import StackC.Proofs.Execution.Machine
import StackC.Proofs.Tree.Violations

/-! What a body without calls does by itself, on exact integers. An access through a pointer to
anything but a local, and a division by zero, have no meaning. -/
namespace StackC

open Asm (Machine truth)

abbrev Store := Nat → Int

def BinaryOp.apply (M : Machine) : BinaryOp → Int → Int → Option Int
  | add, a, b => some (a + b)
  | sub, a, b => some (a - b)
  | mul, a, b => some (a * b)
  | div, a, b => if b = 0 then none else some (M.quotient a b)
  | eq, a, b => some (truth (a = b))
  | ne, a, b => some (truth (a ≠ b))
  | lt, a, b => some (truth (a < b))
  | le, a, b => some (truth (a ≤ b))
  | invalid _, _, _ => none

def localAt? (M : Machine) (locals : List Local) (a : Int) : Option Nat :=
  locals.findIdx? fun v => M.address v.name = a

def placeOf? (locals : List Local) : Int → Option Nat
  | .ofNat i => if i < locals.length then some i else none
  | .negSucc _ => none

namespace Expr

mutual

/-- The value of an expression and the store behind it. Operands are evaluated from left to right,
and what is assigned before the place that it goes to. -/
def eval (M : Machine) (locals : List Local) : Expr → Store → Option (Int × Store)
  | absent, _ | call .., _ => none
  | num _ n, σ => some (n, σ)
  | var _ i, σ => do
    let i ← placeOf? locals i
    return (σ i, σ)
  | neg _ x, σ => do
    let (v, σ) ← x.eval M locals σ
    return (-v, σ)
  | addr _ x, σ =>
    match x with
    | var _ i => do
      let v ← getLocal? locals i
      return (M.address v.name, σ)
    | _ => none
  | deref _ x, σ => do
    let (a, σ) ← x.eval M locals σ
    let i ← localAt? M locals a
    return (σ i, σ)
  | binary _ op l r, σ => do
    let (a, σ) ← l.eval M locals σ
    let (b, σ) ← r.eval M locals σ
    return (← op.apply M a b, σ)
  | assign _ l r, σ => do
    let (v, σ) ← r.eval M locals σ
    let (i, σ) ← l.target M locals σ
    return (v, Function.update σ i v)

/-- The place that an assignment goes to. -/
def target (M : Machine) (locals : List Local) : Expr → Store → Option (Nat × Store)
  | var _ i, σ => do
    let i ← placeOf? locals i
    return (i, σ)
  | deref _ x, σ => do
    let (a, σ) ← x.eval M locals σ
    let i ← localAt? M locals a
    return (i, σ)
  | _, _ => none

end

section Evaluation

variable {M : Machine} {locals : List Local} {x l r : Expr} {pos v : Int} {σ σ' : Store}

theorem eval_var_eq_some {k : Int} : (var pos k).eval M locals σ = some (v, σ') ↔
    ∃ i, placeOf? locals k = some i ∧ v = σ i ∧ σ' = σ := by
  simp only [eval, Option.bind_eq_bind, Option.bind_eq_some_iff]
  simp [eq_comm]

theorem eval_neg_eq_some : (neg pos x).eval M locals σ = some (v, σ') ↔
    ∃ w, x.eval M locals σ = some (w, σ') ∧ v = -w := by
  simp only [eval, Option.bind_eq_bind, Option.bind_eq_some_iff]
  simp [eq_comm]

theorem eval_addr_eq_some {p k : Int} : (addr pos (var p k)).eval M locals σ = some (v, σ') ↔
    ∃ x, getLocal? locals k = some x ∧ v = M.address x.name ∧ σ' = σ := by
  simp only [eval, Option.bind_eq_bind, Option.bind_eq_some_iff]
  simp [eq_comm]

theorem eval_deref_eq_some : (deref pos x).eval M locals σ = some (v, σ') ↔
    ∃ a i, x.eval M locals σ = some (a, σ') ∧ localAt? M locals a = some i ∧ v = σ' i := by
  simp only [eval, Option.bind_eq_bind, Option.bind_eq_some_iff]
  simp [eq_comm]

theorem eval_binary_eq_some {op : BinaryOp} :
    (binary pos op l r).eval M locals σ = some (v, σ') ↔
      ∃ p σ₁ q, l.eval M locals σ = some (p, σ₁) ∧ r.eval M locals σ₁ = some (q, σ') ∧
        op.apply M p q = some v := by
  simp only [eval, Option.bind_eq_bind, Option.bind_eq_some_iff]
  simp

theorem eval_assign_eq_some : (assign pos l r).eval M locals σ = some (v, σ') ↔
    ∃ σ₁ i σ₂, r.eval M locals σ = some (v, σ₁) ∧ l.target M locals σ₁ = some (i, σ₂) ∧
      σ' = Function.update σ₂ i v := by
  simp only [eval, Option.bind_eq_bind, Option.bind_eq_some_iff]
  simp [eq_comm]

theorem target_var_eq_some {k : Int} {i : Nat} :
    (var pos k).target M locals σ = some (i, σ') ↔ placeOf? locals k = some i ∧ σ' = σ := by
  simp only [target, Option.bind_eq_bind, Option.bind_eq_some_iff]
  simp [eq_comm]

theorem target_deref_eq_some {i : Nat} :
    (deref pos x).target M locals σ = some (i, σ') ↔
      ∃ a, x.eval M locals σ = some (a, σ') ∧ localAt? M locals a = some i := by
  simp only [target, Option.bind_eq_bind, Option.bind_eq_some_iff]
  simp

end Evaluation

/-- The store behind an expression that is run for its effects, if there is one. -/
def effect (M : Machine) (locals : List Local) (x : Expr) (σ : Store) : Option Store :=
  if x.isAbsent then some σ else (x.eval M locals σ).map Prod.snd

/-- Whether a loop goes on. One without a test does. -/
def holds (M : Machine) (locals : List Local) (test : Expr) (σ : Store) : Option (Bool × Store) :=
  if test.isAbsent then some (true, σ)
  else (test.eval M locals σ).map fun (v, σ) => (v != 0, σ)

end Expr

/-- How statements end: behind themselves, or by returning a value. -/
inductive Ending
  | next (σ : Store)
  | returned (v : Int) (σ : Store)

namespace Ending

def store : Ending → Store
  | next σ | returned _ σ => σ

/-- Goes on behind statements that did not return. -/
def andThen (e : Ending) (f : Store → Option Ending) : Option Ending :=
  match e with
  | next σ => f σ
  | returned v σ => some (returned v σ)

end Ending

/-- What there is to do: a statement that may be missing, statements one after the other, or the
rounds of a loop. -/
inductive Task
  | one (x : Stmt)
  | many (xs : List Stmt)
  | rounds (test step : Expr) (body : Stmt)

/-- The end of a task that nests and repeats no more than some number of times. -/
def Task.run (M : Machine) (locals : List Local) : Nat → Task → Store → Option Ending
  | 0, _, _ => none
  | n + 1, one x, σ =>
    match x with
    | .absent => some (.next σ)
    | .block _ body => run M locals n (many body) σ
    | .cond _ test yes no => do
      let (v, σ) ← test.eval M locals σ
      run M locals n (one (if v = 0 then no else yes)) σ
    | .loop _ first test step body => do
      (← run M locals n (one first) σ).andThen (run M locals n (rounds test step body))
    | .ret _ x => do
      let (v, σ) ← x.eval M locals σ
      return .returned v σ
    | .expr _ x => do return .next (← x.effect M locals σ)
  | _ + 1, many [], σ => some (.next σ)
  | n + 1, many (x :: xs), σ => do
    (← run M locals n (one x) σ).andThen (run M locals n (many xs))
  | n + 1, rounds test step body, σ => do
    let (go, σ) ← test.holds M locals σ
    if go then
      (← run M locals n (one body) σ).andThen fun σ => do
        run M locals n (rounds test step body) (← step.effect M locals σ)
    else return .next σ

def Function.Returns (M : Machine) (f : Function) (σ : Store) (v : Int) (σ' : Store) : Prop :=
  ∃ b n, f.body = some b ∧ (Task.many b.stmts).run M f.locals n σ = some (.returned v σ')

section Direct

namespace Expr

mutual

/-- Every assignment is to a variable. -/
def direct : Expr → Bool
  | absent | num .. | var .. => true
  | neg _ x | addr _ x | deref _ x => x.direct
  | binary _ _ l r => l.direct && r.direct
  | assign _ l r => l.isVar && r.direct
  | call _ _ args => allDirect args

def allDirect : List Expr → Bool
  | [] => true
  | x :: xs => x.direct && allDirect xs

end

/-- Every assignment is to a variable, the outermost aside. -/
def directInside : Expr → Bool
  | assign _ l r => l.direct && r.direct
  | x => x.direct

end Expr

namespace Stmt

mutual

/-- An assignment through a pointer is a statement, or the first or last part of the head of a
loop, and its value is not used. -/
def direct : Stmt → Bool
  | absent => true
  | block _ body => allDirect body
  | cond _ test yes no => test.direct && yes.direct && no.direct
  | loop _ first test step body =>
    first.direct && test.direct && step.directInside && body.direct
  | ret _ x => x.direct
  | expr _ x => x.directInside

def allDirect : List Stmt → Bool
  | [] => true
  | x :: xs => x.direct && allDirect xs

end

end Stmt

def Function.direct (f : Function) : Bool := f.body.all fun b => Stmt.allDirect b.stmts

end Direct

end StackC
