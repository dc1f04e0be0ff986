import StackC.Asm.Routine
import StackC.SourceError
import StackC.Tree.Basic

/-! Code for expressions. -/
namespace StackC.Lowering

open Asm (Instr)

structure Context where
  locals : List Local
  req : Requirements
  /-- The label behind the body. -/
  exit : Bytes

def Context.cell (c : Context) (index : Int) : Except Failure Bytes :=
  match getLocal? c.locals index with
  | some v => .ok v.name
  | none => .error .malformedTree

def fail {α : Type} (cause : Cause) (offset : Int) : Except Failure α :=
  .error (.source ⟨cause, offset⟩)

/-- A node in the place of something that has an address. -/
def notLvalue {α : Type} (e : Expr) : Except Failure α :=
  match e.pos? with
  | some pos => fail .notLvalue pos
  | none => .error .malformedTree

def native? : BinaryOp → Option Instr
  | .add => some .add
  | .sub => some .sub
  | .mul => some .mul
  | .div => some .div
  | .eq => some .equal
  | _ => none

/-- Replaces two operands by the result of an operator. -/
def operation (c : Context) (pos : Int) (op : BinaryOp) : Except Failure Instr :=
  match native? op, Asm.Routine.find? op with
  | some i, _ => .ok i
  | none, none => fail .unknownOperator pos
  | none, some r => if c.req.needs op then .ok (.call r.name) else fail (.helperNotRequested op) pos

/-- Pushes what was just stored into a place. -/
def reload (c : Context) : Expr → Except Failure (List Instr)
  | .var _ i => do return [.load (← c.cell i)]
  | .deref _ (.var _ i) => do return [.load (← c.cell i), .deref]
  | .deref _ _ => .ok [.load scratchName, .deref]
  | _ => .ok []

mutual

/-- Pushes the value of an expression. -/
def value (c : Context) : Expr → Except Failure (List Instr)
  | .absent => fail .absentNode SourceError.noOffset
  | .num _ n => .ok [.push n]
  | .var _ i => do return [.load (← c.cell i)]
  | .neg _ x => do return (← value c x) ++ [.neg]
  | .deref _ x => do return (← value c x) ++ [.deref]
  | .addr _ x =>
    match x with
    | .var _ i => do return [.address (← c.cell i)]
    | _ => notLvalue x
  | .assign _ l r => do
    let r ← value c r
    let store ← place c l
    return r ++ store ++ (← reload c l)
  | .call pos name args => do
    if Asm.isReserved name then fail (.reservedLabel name) pos
    else return (← values c args) ++ [.call name]
  | .binary pos op l r => do
    let l ← value c l
    let r ← value c r
    return l ++ r ++ [← operation c pos op]

/-- Pushes the values of expressions from left to right. -/
def values (c : Context) : List Expr → Except Failure (List Instr)
  | [] => .ok []
  | x :: xs => do
    let x ← value c x
    return x ++ (← values c xs)

/-- Pops into the place that an expression names. An address that has to be computed goes through
the scratch cell. -/
def place (c : Context) : Expr → Except Failure (List Instr)
  | .var _ i => do return [.store (← c.cell i)]
  | .deref _ x =>
    match x with
    | .var _ i => do return [.storeThrough (← c.cell i)]
    | _ => do return (← value c x) ++ [.store scratchName, .storeThrough scratchName]
  | e => notLvalue e

end

/-- Runs an expression for its effects and leaves the stack as it was. -/
def effect (c : Context) : Expr → Except Failure (List Instr)
  | .assign _ l r => do
    let r ← value c r
    return r ++ (← place c l)
  | e => do return (← value c e) ++ [.drop]

end StackC.Lowering
