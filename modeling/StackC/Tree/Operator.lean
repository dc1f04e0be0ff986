import StackC.Text.Bytes

/-! Binary operators and the comparison routines they need. -/
namespace StackC

/-- The operator of a binary expression. A tree built by hand may hold a number that stands for
none. -/
inductive BinaryOp
  | add
  | sub
  | mul
  | div
  | eq
  | ne
  | lt
  | le
  | invalid (code : Int)
  deriving DecidableEq, Repr

namespace BinaryOp

/-- The operators in the order of their numbers. -/
def all : List BinaryOp := [add, sub, mul, div, eq, ne, lt, le]

def ofCode : Int → BinaryOp
  | .ofNat n => (all[n]?).getD (.invalid n)
  | n => .invalid n

def text : BinaryOp → Bytes
  | add => ascii "+"
  | sub => ascii "-"
  | mul => ascii "*"
  | div => ascii "/"
  | eq => ascii "=="
  | ne => ascii "!="
  | lt => ascii "<"
  | le => ascii "<="
  | invalid n => ascii "BinaryOp(" ++ Text.decimal n ++ ascii ")"

def ofText? (t : Bytes) : Option BinaryOp := all.find? (·.text == t)

def code? (op : BinaryOp) : Option Nat := all.idxOf? op

/-- The operators that yield a truth value. -/
def isComparison : BinaryOp → Bool
  | eq | ne | lt | le => true
  | _ => false

end BinaryOp

/-- Which comparison routines a program uses. Flags are set and never cleared. -/
structure Requirements where
  lt : Bool := false
  le : Bool := false
  ne : Bool := false
  deriving DecidableEq, Repr

namespace Requirements

/-- Sets the flag of an operator. Operators of the machine itself have none. -/
def require (r : Requirements) : BinaryOp → Requirements
  | .lt => { r with lt := true }
  | .le => { r with le := true }
  | .ne => { r with ne := true }
  | _ => r

def needs (r : Requirements) : BinaryOp → Bool
  | .lt => r.lt
  | .le => r.le
  | .ne => r.ne
  | _ => false

end Requirements
end StackC
