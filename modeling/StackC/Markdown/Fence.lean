import StackC.Markdown.Item
import StackC.Markdown.Line

/-! The lines of fenced code. -/
namespace StackC.Markdown

structure Opening where
  /-- The number of spaces before the fence. -/
  indent : Nat
  /-- The byte that the fence is made of. -/
  mark : UInt8
  /-- The number of marks. -/
  width : Nat
  language : Bytes
  /-- Where on the line the info string ends, if there is one. -/
  infoStop : Option Nat
  deriving DecidableEq, Repr

/-- The info string of an opening line, given what follows the marks. A single byte is its line
end. -/
def infoOf (t : Bytes) : Bytes := if t.length ≤ 1 then [] else Text.trim isBlank t

/-- The opening of a fence: three or more backticks or tildes. The info string of a fence of
backticks holds none of them. Its first word is the language. -/
def opening? (t : Bytes) : Option Opening := do
  let body ← unindented? t
  let mark ← body.head?
  let width := (body.takeWhile (· == mark)).length
  let info := infoOf (body.drop width)
  if (mark == backtick || mark == tilde) && 3 ≤ width && !(mark == backtick && info.contains mark)
  then
    some {
      indent := t.length - body.length, mark, width
      language := info.takeWhile (· != byte ' ')
      infoStop := if info.isEmpty then none else some (Text.trimRight isBlank t).length }
  else none

/-- A line that closes a fence: at least as many of its marks, and nothing else. -/
def Opening.closedBy (o : Opening) (t : Bytes) : Bool :=
  match unindented? t with
  | none => false
  | some body =>
    o.width ≤ (body.takeWhile (· == o.mark)).length && isBlankLine (body.dropWhile (· == o.mark))

def isSpaceLine (t : Bytes) : Bool :=
  (t.dropWhile fun b => b == byte ' ' || b == byte '\t').all (· == Text.newline)

/-- The indentation that a content line loses: that of the opening line, or all it has. A line of
blanks that has less keeps it. -/
def Opening.strip (o : Opening) (t : Bytes) : Indent :=
  let i := indentUpTo o.indent ⟨0, 0⟩ t
  if i.columns < o.indent && isSpaceLine t then ⟨0, 0⟩ else i

/-- A tab that reaches beyond the indentation that is lost leaves spaces. -/
def Opening.codeLine (o : Opening) (l : Line) : CodeLine :=
  let i := o.strip l.text
  { start := l.start + i.bytes, stop := l.stop
    text := List.replicate (i.columns - o.indent) (byte ' ') ++ l.text.drop i.bytes }

end StackC.Markdown
