import StackC.Markdown.Item

/-! A document as the tools for test cases see it, given a Markdown library. -/
namespace StackC

namespace Markdown.FencedCode

/-- The code without the newlines at its end. -/
def content (f : FencedCode) : Bytes := Text.trimNewlines (f.lines.flatMap CodeLine.text)

/-- The number of the first line of code, 1 if there is none. -/
def lineNumberIn (doc : Bytes) (f : FencedCode) : Nat :=
  match f.lines with
  | [] => 1
  | l :: _ => (doc.take l.start).count Text.newline + 1

end Markdown.FencedCode

namespace Corpus

open Markdown (FencedCode Item Reader)

/-- The offset behind the end of the line that a place is on. -/
def behindLine (doc : Bytes) (pos : Nat) : Nat :=
  pos + ((doc.drop pos).takeWhile (· != Text.newline)).length + 1

/-- The text begins like the line that closes a fence. -/
def beginsWithMarks (t : Bytes) : Bool :=
  let line := t.dropWhile (· == byte ' ')
  [ascii "```", ascii "~~~"].any (·.isPrefixOf line)

inductive BodyFault
  | noInfo
  | notClosed
  deriving DecidableEq, Repr

/-- The offsets between which the code of a fence stands. The place for the code of an empty fence
is behind its opening line, if the next line begins like one that closes a fence. -/
def bodyIn (doc : Bytes) (f : FencedCode) : Except BodyFault (Nat × Nat) :=
  match f.lines.head?, f.lines.getLast? with
  | some first, some last => .ok (first.start, last.stop)
  | _, _ =>
    match f.infoStop with
    | none => .error .noInfo
    | some stop =>
      let pos := behindLine doc stop
      if beginsWithMarks (doc.drop pos) then .ok (pos, pos) else .error .notClosed

/-- A fence, with what the tools find out about it from the document. -/
structure Fence extends FencedCode where
  lineNumber : Nat
  body : Except BodyFault (Nat × Nat)

inductive Block
  | heading (text : Bytes)
  | fence (f : Fence)

def Fence.ofCode (doc : Bytes) (f : FencedCode) : Fence :=
  { f with lineNumber := f.lineNumberIn doc, body := bodyIn doc f }

def Block.ofItem (doc : Bytes) : Item → Block
  | .heading text => heading text
  | .fence f => fence (.ofCode doc f)

def blocksBy (reader : Reader) (doc : Bytes) : List Block := (reader doc).map (Block.ofItem doc)

end Corpus

end StackC
