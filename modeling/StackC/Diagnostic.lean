import StackC.Text.Bytes

/-! Located messages and how they are shown under the source line they point into. -/
namespace StackC

inductive Stage
  | lex
  | parse
  | codegen
  | other (code : Int)
  deriving DecidableEq, Repr

/-- Stages are numbered from 1. -/
def Stage.ofCode : Int → Stage
  | 1 => .lex
  | 2 => .parse
  | 3 => .codegen
  | n => .other n

def Stage.text : Stage → Bytes
  | .lex => ascii "lex error"
  | .parse => ascii "parse error"
  | .codegen => ascii "codegen error"
  | .other n => ascii "Kind(" ++ Text.decimal n ++ ascii ")"

/-- A message about the source at a byte offset. A negative offset means no place in it. -/
structure Diagnostic where
  stage : Stage
  offset : Int
  message : Bytes
  deriving DecidableEq, Repr

def Diagnostic.text (d : Diagnostic) : Bytes := d.stage.text ++ ascii ": " ++ d.message

/-- An error on its way to the user: plain, located, or set in a context. -/
inductive Complaint
  | plain (text : Bytes)
  | located (d : Diagnostic)
  | context (text : Bytes) (inner : Complaint)
  deriving DecidableEq, Repr

def Complaint.text : Complaint → Bytes
  | .plain t => t
  | .located d => d.text
  | .context t inner => t ++ ascii ": " ++ inner.text

def Complaint.diagnostic? : Complaint → Option Diagnostic
  | .plain _ => none
  | .located d => some d
  | .context _ inner => inner.diagnostic?

/-- A line counted from 1 and a column counted from 0. -/
structure Position where
  line : Nat
  column : Int
  deriving DecidableEq, Repr

namespace Source

def lastLine (t : Bytes) : Bytes := (t.reverse.takeWhile (· != Text.newline)).reverse

/-- The place of an offset. Offsets past the end count as the end; negative ones lie on the first
line, at a negative column. -/
def position (src : Bytes) (offset : Int) : Position :=
  if offset < 0 then { line := 1, column := offset }
  else
    let before := src.take offset.toNat
    { line := before.count Text.newline + 1, column := (lastLine before).length }

def lineAt (src : Bytes) (offset : Nat) : Bytes :=
  lastLine (src.take offset) ++ (src.drop offset).takeWhile (· != Text.newline)

/-- Blank space as wide as the first `column` bytes of a line. Tabs are kept, so that it lines up
however wide they are shown. -/
def indent (line : Bytes) (column : Nat) : Bytes :=
  (line.take column).map fun b => if b == byte '\t' then b else byte ' '

end Source

private def red (t : Bytes) : Bytes := ascii "\x1b[31m" ++ t ++ ascii "\x1b[0m"

/-- The message over the source. It stands behind a caret under the byte it is about. In a source
of several lines a first line names the line and the stage. -/
def Diagnostic.render (src : Bytes) (color : Bool) (d : Diagnostic) : Bytes :=
  if d.offset < 0 || (src.length : Int) < d.offset then d.text ++ [Text.newline]
  else
    let place := Source.position src d.offset
    let line := Source.lineAt src d.offset.toNat
    let multi := src.contains Text.newline
    let header :=
      if multi then
        ascii "line " ++ Text.decimalNat place.line ++ ascii ": " ++ d.stage.text ++ [Text.newline]
      else []
    let caret := Source.indent line place.column.toNat ++ ascii "^ " ++
      (if multi then d.message else d.text)
    header ++ line ++ [Text.newline] ++ (if color then red caret else caret) ++ [Text.newline]

def Complaint.render (src : Bytes) (color : Bool) (c : Complaint) : Bytes :=
  match c.diagnostic? with
  | some d => d.render src color
  | none => ascii "error: " ++ c.text ++ [Text.newline]

end StackC
