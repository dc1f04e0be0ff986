import StackC.Text.Bytes

/-! Lines of assembly text. -/
namespace StackC.Asm

/-- A line: the definition of a label, or an opcode with an operand that may be empty. -/
structure Line where
  label : Bytes := []
  op : Bytes := []
  arg : Bytes := []
  deriving DecidableEq, Repr

namespace Line

/-- A line with a label shows nothing else. -/
def text (l : Line) : Bytes :=
  if !l.label.isEmpty then byte '%' :: l.label
  else if l.arg.isEmpty then l.op
  else l.op ++ ascii " " ++ l.arg

/-- Reads a line. The operand begins behind the first space. -/
def ofText : Bytes → Line
  | [] => {}
  | b :: rest =>
    if b == byte '%' then { label := rest }
    else
      let t := b :: rest
      { op := t.takeWhile (· != byte ' '), arg := (t.dropWhile (· != byte ' ')).drop 1 }

def listing (ls : List Line) : Bytes := ls.flatMap fun l => l.text ++ [Text.newline]

end Line
end StackC.Asm
