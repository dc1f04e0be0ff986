import StackC.Tree.Operator

/-! Programs as trees. Every node holds the byte offset of the token that stands for it. -/
namespace StackC

/-- The type of a value: an integer or a pointer. -/
inductive Ty
  | int
  | ptr (base : Ty)
  deriving DecidableEq, Inhabited, Repr

namespace Ty

def stars : Nat → Ty
  | 0 => int
  | n + 1 => ptr (stars n)

def isPointer : Ty → Bool
  | int => false
  | ptr _ => true

def text : Ty → Bytes
  | int => ascii "int"
  | ptr base => base.text ++ ascii "*"

end Ty

/-- An expression. Variables are numbered by their place among the locals of the function. -/
inductive Expr
  /-- No expression. A loop may lack its test and its step; anywhere else this is a defect. -/
  | absent
  | num (pos : Int) (value : Int)
  | neg (pos : Int) (x : Expr)
  | addr (pos : Int) (x : Expr)
  | deref (pos : Int) (x : Expr)
  | binary (pos : Int) (op : BinaryOp) (l r : Expr)
  | assign (pos : Int) (l r : Expr)
  | var (pos : Int) (index : Int)
  | call (pos : Int) (name : Bytes) (args : List Expr)
  deriving Inhabited, Repr

def Expr.isAbsent : Expr → Bool
  | .absent => true
  | _ => false

def Expr.pos? : Expr → Option Int
  | .absent => none
  | .num p _ | .neg p _ | .addr p _ | .deref p _ | .binary p .. | .assign p .. | .var p _
  | .call p .. => some p

inductive Stmt
  /-- No statement. A conditional may lack its second branch and a loop its first step; anywhere
  else this is a defect. -/
  | absent
  | block (pos : Int) (body : List Stmt)
  | cond (pos : Int) (test : Expr) (yes no : Stmt)
  | loop (pos : Int) (first : Stmt) (test step : Expr) (body : Stmt)
  | ret (pos : Int) (x : Expr)
  | expr (pos : Int) (x : Expr)
  deriving Inhabited, Repr

def Stmt.isAbsent : Stmt → Bool
  | .absent => true
  | _ => false

/-- A local variable and where its name first appears. -/
structure Local where
  name : Bytes
  type : Ty
  pos : Int
  deriving DecidableEq, Repr

def declare (locals : List Local) (name : Bytes) (type : Ty) (pos : Int) : List Local :=
  locals ++ [⟨name, type, pos⟩]

def findLocal? (locals : List Local) (name : Bytes) : Option Nat :=
  locals.findIdx? (·.name == name)

def getLocal? (locals : List Local) : Int → Option Local
  | .ofNat i => locals[i]?
  | .negSucc _ => none

/-- The cell that holds the address of a store through a computed pointer. No local has this
name. -/
def scratchName : Bytes := ascii "lval"

structure Body where
  pos : Int
  stmts : List Stmt
  deriving Repr

/-- A function. The block of a program without functions is one with an empty name. -/
structure Function where
  name : Bytes
  returnType : Ty := .int
  pos : Int
  locals : List Local := []
  body : Option Body := none
  deriving Repr

/-- A program: a single block, if `topLevel` is set, or a list of functions. -/
structure Program where
  topLevel : Bool
  funcs : List Function
  req : Requirements
  deriving Repr

def findFunction? (funcs : List Function) (name : Bytes) : Option Function :=
  funcs.find? (·.name == name)

end StackC
