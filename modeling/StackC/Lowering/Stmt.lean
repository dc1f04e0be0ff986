import StackC.Lowering.Expr

/-! Code for statements. Conditionals and loops are numbered from 1 in the order in which they
begin, and their labels carry the number. -/
namespace StackC.Lowering

open Asm (Instr)

def elseLabel (n : Nat) : Bytes := ascii "l.else." ++ Text.decimalNat n

def beginLabel (n : Nat) : Bytes := ascii "l.begin." ++ Text.decimalNat n

def endLabel (n : Nat) : Bytes := ascii "l.end." ++ Text.decimalNat n

abbrev Numbered := List Instr × Nat

/-- Leaves a loop when its test fails. A loop without a test goes on. -/
def loopTest (c : Context) (done : Bytes) (test : Expr) : Except Failure (List Instr) :=
  if test.isAbsent then .ok [] else do return (← value c test) ++ [.jumpZero done]

/-- Runs the step of a loop, if it has one. -/
def loopStep (c : Context) (step : Expr) : Except Failure (List Instr) :=
  if step.isAbsent then .ok [] else effect c step

mutual

/-- The code of a statement, if `n` is the last number handed out before it. -/
def statement (c : Context) (n : Nat) : Stmt → Except Failure Numbered
  | .absent => fail .absentNode SourceError.noOffset
  | .block _ body => statements c n body
  | .cond _ test yes no => do
    let k := n + 1
    let test ← value c test
    let (yes, n₁) ← statement c k yes
    let (no, n₂) ← if no.isAbsent then .ok ([], n₁) else statement c n₁ no
    return (test ++ [.jumpZero (elseLabel k)] ++ yes ++
      [.jump (endLabel k), .label (elseLabel k)] ++ no ++ [.label (endLabel k)], n₂)
  | .loop _ first test step body => do
    let k := n + 1
    let (first, n₁) ← if first.isAbsent then .ok ([], k) else statement c k first
    let test ← loopTest c (endLabel k) test
    let (body, n₂) ← statement c n₁ body
    let step ← loopStep c step
    return (first ++ [.label (beginLabel k)] ++ test ++ body ++ step ++
      [.jump (beginLabel k), .label (endLabel k)], n₂)
  | .ret _ x => do return ((← value c x) ++ [.jump c.exit], n)
  | .expr _ x => do return (← effect c x, n)

def statements (c : Context) (n : Nat) : List Stmt → Except Failure Numbered
  | [] => .ok ([], n)
  | s :: ss => do
    let (s, n₁) ← statement c n s
    let (ss, n₂) ← statements c n₁ ss
    return (s ++ ss, n₂)

end

end StackC.Lowering
