import StackC.Text.Bytes

/-! The lines of a document and their indentation. -/
namespace StackC.Markdown

structure Line where
  text : Bytes
  start : Nat
  deriving DecidableEq, Repr

def Line.stop (l : Line) : Nat := l.start + l.text.length

def placeLines (start : Nat) : List Bytes → List Line
  | [] => []
  | t :: ts => { text := t, start } :: placeLines (start + t.length) ts

def linesOf (doc : Bytes) : List Line := placeLines 0 (Text.lines doc)

/-- How far blank space reaches. -/
structure Indent where
  /-- The number of columns. A tab reaches to the next multiple of four. -/
  columns : Nat
  /-- The number of bytes. -/
  bytes : Nat
  deriving DecidableEq, Repr

/-- The blank space at the start of a text, as far as it is needed to reach `limit` columns. -/
def indentUpTo (limit : Nat) (done : Indent) : Bytes → Indent
  | [] => done
  | b :: rest =>
    if limit ≤ done.columns then done
    else if b == byte ' ' then indentUpTo limit ⟨done.columns + 1, done.bytes + 1⟩ rest
    else if b == byte '\t' then
      indentUpTo limit ⟨done.columns + (4 - done.columns % 4), done.bytes + 1⟩ rest
    else done

/-- A line that is indented by four columns or more begins no heading and no fence. -/
def codeColumns : Nat := 4

/-- The text behind the indentation, if it is less than four columns. -/
def unindented? (t : Bytes) : Option Bytes :=
  let i := indentUpTo codeColumns ⟨0, 0⟩ t
  if i.columns < codeColumns then some (t.drop i.bytes) else none

/-- The blanks of a document: space, tab and the bytes of a line end. Vertical tabs and form feeds
are text. -/
def isBlank (b : UInt8) : Bool := (ascii " \t\n\r").contains b

def isBlankLine (t : Bytes) : Bool := t.all isBlank

end StackC.Markdown
