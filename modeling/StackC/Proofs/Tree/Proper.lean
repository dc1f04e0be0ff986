import StackC.Lowering.Program
import StackC.Proofs.Scanning

/-! Trees as program texts have them: no node is missing, every variable is one of the locals, and
the routine of every comparison is asked for. -/
namespace StackC

/-- A name as the scanner cuts it out of a text. -/
def Token.IsName (name : Bytes) : Prop := name ≠ [] ∧ ∀ b ∈ name, Token.isIdentPart b

/-- There is an instruction for the operator, or its routine is asked for. -/
def Requirements.Supports (req : Requirements) (op : BinaryOp) : Prop :=
  (Lowering.native? op).isSome ∨ req.needs op

/-- An expression over some number of locals. -/
inductive Expr.Proper (count : Nat) (req : Requirements) : Expr → Prop
  | num {pos value : Int} : Proper count req (.num pos value)
  | var {pos : Int} {i : Nat} (bound : i < count) : Proper count req (.var pos i)
  | neg {pos : Int} {x : Expr} (operand : Proper count req x) : Proper count req (.neg pos x)
  | addr {pos : Int} {x : Expr} (operand : Proper count req x) : Proper count req (.addr pos x)
  | deref {pos : Int} {x : Expr} (operand : Proper count req x) : Proper count req (.deref pos x)
  | binary {pos : Int} {op : BinaryOp} {l r : Expr} (supported : req.Supports op)
      (left : Proper count req l) (right : Proper count req r) :
      Proper count req (.binary pos op l r)
  | assign {pos : Int} {l r : Expr} (left : Proper count req l) (right : Proper count req r) :
      Proper count req (.assign pos l r)
  | call {pos : Int} {name : Bytes} {args : List Expr} (isName : Token.IsName name)
      (arguments : ∀ x ∈ args, Proper count req x) : Proper count req (.call pos name args)

inductive Stmt.Proper (count : Nat) (req : Requirements) : Stmt → Prop
  | block {pos : Int} {body : List Stmt} (inner : ∀ x ∈ body, Proper count req x) :
      Proper count req (.block pos body)
  | cond {pos : Int} {test : Expr} {yes no : Stmt} (tested : test.Proper count req)
      (first : Proper count req yes) (second : no.isAbsent = false → Proper count req no) :
      Proper count req (.cond pos test yes no)
  | loop {pos : Int} {first body : Stmt} {test step : Expr}
      (started : first.isAbsent = false → Proper count req first)
      (tested : test.isAbsent = false → test.Proper count req)
      (stepped : step.isAbsent = false → step.Proper count req)
      (inner : Proper count req body) : Proper count req (.loop pos first test step body)
  | ret {pos : Int} {x : Expr} (value : x.Proper count req) : Proper count req (.ret pos x)
  | expr {pos : Int} {x : Expr} (value : x.Proper count req) : Proper count req (.expr pos x)

/-- A function whose body is over its own locals, each of which has a name of its own. -/
structure Function.Proper (req : Requirements) (f : Function) : Prop where
  body : ∃ b, f.body = some b ∧ ∀ x ∈ b.stmts, x.Proper f.locals.length req
  distinct : (f.locals.map Local.name).Nodup
  unreserved : scratchName ∉ f.locals.map Local.name

/-- A program: one function without a name, or functions with different names. -/
structure Program.Proper (p : Program) : Prop where
  single : p.topLevel = true → ∃ f, p.funcs = [f]
  named : p.topLevel = false → ∀ f ∈ p.funcs, Token.IsName f.name
  distinct : (p.funcs.map Function.name).Nodup
  functions : ∀ f ∈ p.funcs, f.Proper p.req

section Weakening

variable {count count' : Nat} {req req' : Requirements}

theorem Requirements.Supports.weaken {op : BinaryOp} (h : req.Supports op)
    (hr : ∀ op, req.needs op → req'.needs op) : req'.Supports op := by
  rcases h with h | h
  · exact .inl h
  · exact .inr (hr op h)

/-- An expression stays proper with more locals and more routines. -/
theorem Expr.Proper.weaken {x : Expr} (h : x.Proper count req) (hc : count ≤ count')
    (hr : ∀ op, req.needs op → req'.needs op) : x.Proper count' req' := by
  induction h with
  | num => exact .num
  | var bound => exact .var (Nat.lt_of_lt_of_le bound hc)
  | neg operand ih => exact .neg ih
  | addr operand ih => exact .addr ih
  | deref operand ih => exact .deref ih
  | binary supported left right ih₁ ih₂ => exact .binary (supported.weaken hr) ih₁ ih₂
  | assign left right ih₁ ih₂ => exact .assign ih₁ ih₂
  | call isName arguments ih => exact .call isName ih

theorem Stmt.Proper.weaken {x : Stmt} (h : x.Proper count req) (hc : count ≤ count')
    (hr : ∀ op, req.needs op → req'.needs op) : x.Proper count' req' := by
  induction h with
  | block inner ih => exact .block ih
  | cond tested first second ih₁ ih₂ => exact .cond (tested.weaken hc hr) ih₁ ih₂
  | loop started tested stepped inner ih₁ ih₂ =>
    exact .loop ih₁ (fun h => (tested h).weaken hc hr) (fun h => (stepped h).weaken hc hr) ih₂
  | ret value => exact .ret (value.weaken hc hr)
  | expr value => exact .expr (value.weaken hc hr)

theorem Function.Proper.weaken {f : Function} (h : f.Proper req)
    (hr : ∀ op, req.needs op → req'.needs op) : f.Proper req' := by
  obtain ⟨b, hb, hs⟩ := h.body
  exact ⟨⟨b, hb, fun x hx => (hs x hx).weaken (Nat.le_refl _) hr⟩, h.distinct, h.unreserved⟩

end Weakening

theorem Expr.eq_absent {x : Expr} (h : x.isAbsent = true) : x = .absent := by
  cases x with
  | absent => rfl
  | _ => cases h

theorem Stmt.eq_absent {x : Stmt} (h : x.isAbsent = true) : x = .absent := by
  cases x with
  | absent => rfl
  | _ => cases h

/-- Of an expression that may be missing. -/
@[elab_as_elim]
theorem Expr.absent_or {P : Expr → Prop} (x : Expr) (missing : P .absent)
    (present : x.isAbsent = false → P x) : P x := by
  cases hx : x.isAbsent with
  | true =>
    rw [Expr.eq_absent hx]
    exact missing
  | false => exact present hx

/-- Of a statement that may be missing. -/
@[elab_as_elim]
theorem Stmt.absent_or {P : Stmt → Prop} (x : Stmt) (missing : P .absent)
    (present : x.isAbsent = false → P x) : P x := by
  cases hx : x.isAbsent with
  | true =>
    rw [Stmt.eq_absent hx]
    exact missing
  | false => exact present hx

theorem Expr.Proper.isAbsent {count : Nat} {req : Requirements} {x : Expr}
    (h : x.Proper count req) : x.isAbsent = false := by
  cases h <;> rfl

theorem Stmt.Proper.isAbsent {count : Nat} {req : Requirements} {x : Stmt}
    (h : x.Proper count req) : x.isAbsent = false := by
  cases h <;> rfl

end StackC
