import StackC.Asm.Line

/-! The instructions of the stack machine. -/
namespace StackC.Asm

/-- An instruction. Labels and cells are named by texts. -/
inductive Instr
  /-- The place that a label names. -/
  | label (name : Bytes)
  | jump (target : Bytes)
  | jumpZero (target : Bytes)
  | jumpNegative (target : Bytes)
  | call (target : Bytes)
  | ret
  | display
  | halt
  /-- Pushes a number. -/
  | push (n : Int)
  /-- Pushes what a cell holds. -/
  | load (cell : Bytes)
  /-- Pushes the address of a cell. -/
  | address (cell : Bytes)
  /-- Pops into a cell. -/
  | store (cell : Bytes)
  /-- Pops into the cell whose address a cell holds. -/
  | storeThrough (cell : Bytes)
  /-- Pops and forgets. -/
  | drop
  | neg
  | deref
  | add
  | sub
  | mul
  | div
  | equal
  deriving DecidableEq, Repr

namespace Instr

def line : Instr → Line
  | label l => { label := l }
  | jump l => { op := ascii "JMP", arg := byte '%' :: l }
  | jumpZero l => { op := ascii "JZ", arg := byte '%' :: l }
  | jumpNegative l => { op := ascii "JN", arg := byte '%' :: l }
  | call l => { op := ascii "CALL", arg := byte '%' :: l }
  | ret => { op := ascii "RET" }
  | display => { op := ascii "SHOW" }
  | halt => { op := ascii "HALT" }
  | push n => { op := ascii "LOAD", arg := Text.decimal n }
  | load x => { op := ascii "LOAD", arg := byte '&' :: x }
  | address x => { op := ascii "LOAD", arg := byte '$' :: x }
  | store x => { op := ascii "POP", arg := byte '&' :: x }
  | storeThrough x => { op := ascii "POP", arg := byte '*' :: x }
  | drop => { op := ascii "POP", arg := ascii "R0" }
  | neg => { op := ascii "NEG" }
  | deref => { op := ascii "DEREF" }
  | add => { op := ascii "ADD" }
  | sub => { op := ascii "SUB" }
  | mul => { op := ascii "MUL" }
  | div => { op := ascii "DIV" }
  | equal => { op := ascii "EQU" }

def text (i : Instr) : Bytes := i.line.text

def listing (code : List Instr) : Bytes := Line.listing (code.map line)

end Instr
end StackC.Asm
