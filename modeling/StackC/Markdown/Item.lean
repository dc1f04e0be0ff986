import StackC.Text.Bytes

/-! What a Markdown library makes of a document, as far as the tools for test cases are concerned:
the headings and fences, in the order in which a walk through the tree meets them. -/
namespace StackC.Markdown

def backtick : UInt8 := 96

def tilde : UInt8 := 126

/-- A line of code: where it stands in the document, behind the indentation that is not part of the
code, and its text. -/
structure CodeLine where
  start : Nat
  stop : Nat
  text : Bytes
  deriving DecidableEq, Repr

/-- A fence. The tools look at neither `closed` nor `nested`. -/
structure FencedCode where
  language : Bytes
  /-- Where the info string ends, if there is one. -/
  infoStop : Option Nat
  lines : List CodeLine
  /-- There is a closing line. Without one the fence goes on to the end of the block around it. -/
  closed : Bool
  /-- The fence stands inside another block, as in a block quote or a list. -/
  nested : Bool
  deriving DecidableEq, Repr

inductive Item
  | heading (text : Bytes)
  | fence (f : FencedCode)
  deriving DecidableEq, Repr

/-- A Markdown library. -/
abbrev Reader := Bytes → List Item

end StackC.Markdown
