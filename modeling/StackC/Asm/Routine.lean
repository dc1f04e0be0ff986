import StackC.Asm.Instr
import StackC.Tree.Operator

/-! Routines for the comparisons that the machine has no instruction for. Each is called with both
operands on the stack and leaves 1 or 0 in their place. -/
namespace StackC.Asm

/-- A routine, without the label it is entered by. The labels inside begin with its name. -/
structure Routine where
  name : Bytes
  op : BinaryOp
  body : List Instr
  deriving DecidableEq, Repr

namespace Routine

def code (r : Routine) : List Instr := .label r.name :: r.body

/-- The end of each routine: 0 if the test before it fell through, 1 from label `yes` on. -/
private def verdict (yes done : Bytes) : List Instr :=
  [.drop, .push 0, .jump done, .label yes, .drop, .push 1, .label done, .ret]

def less : Routine where
  name := ascii "le"
  op := .lt
  body := [.sub, .jumpNegative (ascii "le.less")] ++ verdict (ascii "le.less") (ascii "le.end")

def lessOrEqual : Routine where
  name := ascii "leq"
  op := .le
  body := [.sub, .jumpNegative (ascii "leq.lesseq"), .jumpZero (ascii "leq.lesseq")] ++
    verdict (ascii "leq.lesseq") (ascii "leq.end")

def notEqual : Routine where
  name := ascii "ne"
  op := .ne
  body := [.equal, .jumpZero (ascii "ne.neq")] ++ verdict (ascii "ne.neq") (ascii "ne.end")

def all : List Routine := [less, lessOrEqual, notEqual]

/-- The routine of an operator, if the machine has no instruction for it. -/
def find? (op : BinaryOp) : Option Routine := all.find? (·.op == op)

end Routine

def startLabel : Bytes := ascii "start"

/-- A label that no function may have: the start, or the entry of a routine. -/
def isReserved (name : Bytes) : Bool :=
  name == startLabel || Routine.all.any (·.name == name)

end StackC.Asm
