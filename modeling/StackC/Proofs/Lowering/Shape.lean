import StackC.Lowering.Program
import StackC.Proofs.Outcome

/-! What the code of each construct is made of. -/
namespace StackC.Lowering

open Asm (Instr)

variable {c : Context} {n m : Nat} {pos : Int} {code : List Instr}

def optional (c : Context) (n : Nat) (x : Stmt) : Except Failure Numbered :=
  if x.isAbsent then .ok ([], n) else statement c n x

def condCode (k : Nat) (test yes no : List Instr) : List Instr :=
  test ++ [Instr.jumpZero (elseLabel k)] ++ yes ++
    [Instr.jump (endLabel k), .label (elseLabel k)] ++ no ++ [Instr.label (endLabel k)]

def loopCode (k : Nat) (first test body step : List Instr) : List Instr :=
  first ++ [Instr.label (beginLabel k)] ++ test ++ body ++ step ++
    [Instr.jump (beginLabel k), .label (endLabel k)]

section Parts

variable {k : Nat} {first test yes no body step : List Instr}

theorem test_infix_condCode : test <:+: condCode k test yes no :=
  ⟨[], [Instr.jumpZero (elseLabel k)] ++ yes ++
    [Instr.jump (endLabel k), .label (elseLabel k)] ++ no ++ [Instr.label (endLabel k)],
    by simp [condCode]⟩

theorem yes_infix_condCode : yes <:+: condCode k test yes no :=
  ⟨test ++ [Instr.jumpZero (elseLabel k)],
    [Instr.jump (endLabel k), .label (elseLabel k)] ++ no ++ [Instr.label (endLabel k)],
    by simp [condCode]⟩

theorem no_infix_condCode : no <:+: condCode k test yes no :=
  ⟨test ++ [Instr.jumpZero (elseLabel k)] ++ yes ++ [Instr.jump (endLabel k), .label (elseLabel k)],
    [.label (endLabel k)], rfl⟩

theorem first_infix_loopCode : first <:+: loopCode k first test body step :=
  ⟨[], [Instr.label (beginLabel k)] ++ test ++ body ++ step ++
    [Instr.jump (beginLabel k), .label (endLabel k)], by simp [loopCode]⟩

theorem test_infix_loopCode : test <:+: loopCode k first test body step :=
  ⟨first ++ [Instr.label (beginLabel k)],
    body ++ step ++ [Instr.jump (beginLabel k), .label (endLabel k)], by simp [loopCode]⟩

theorem body_infix_loopCode : body <:+: loopCode k first test body step :=
  ⟨first ++ [Instr.label (beginLabel k)] ++ test,
    step ++ [Instr.jump (beginLabel k), .label (endLabel k)], by simp [loopCode]⟩

theorem step_infix_loopCode : step <:+: loopCode k first test body step :=
  ⟨first ++ [Instr.label (beginLabel k)] ++ test ++ body,
    [.jump (beginLabel k), .label (endLabel k)], rfl⟩

end Parts

theorem statement_cond {test : Expr} {yes no : Stmt} :
    statement c n (.cond pos test yes no) = (do
      let test ← value c test
      let yes ← statement c (n + 1) yes
      let no ← optional c yes.2 no
      return (condCode (n + 1) test yes.1 no.1, no.2)) := by
  rw [statement]
  simp only [optional]
  cases no.isAbsent <;> rfl

theorem statement_loop {first body : Stmt} {test step : Expr} :
    statement c n (.loop pos first test step body) = (do
      let first ← optional c (n + 1) first
      let test ← loopTest c (endLabel (n + 1)) test
      let body ← statement c first.2 body
      let step ← loopStep c step
      return (loopCode (n + 1) first.1 test body.1 step, body.2)) := by
  rw [statement]
  simp only [optional]
  cases first.isAbsent <;> rfl

section Expressions

variable {x l r : Expr} {op : BinaryOp} {name : Bytes} {args : List Expr}

theorem value_var_eq_ok {i : Int} : value c (.var pos i) = .ok code ↔
    ∃ name, c.cell i = .ok name ∧ code = [.load name] := by
  rw [value, Outcome.bind_eq_ok]
  simp [eq_comm]

theorem value_neg_eq_ok : value c (.neg pos x) = .ok code ↔
    ∃ a, value c x = .ok a ∧ code = a ++ [Instr.neg] := by
  rw [value, Outcome.bind_eq_ok]
  simp [eq_comm]

theorem value_deref_eq_ok : value c (.deref pos x) = .ok code ↔
    ∃ a, value c x = .ok a ∧ code = a ++ [Instr.deref] := by
  rw [value, Outcome.bind_eq_ok]
  simp [eq_comm]

theorem value_binary_eq_ok : value c (.binary pos op l r) = .ok code ↔
    ∃ a b i, value c l = .ok a ∧ value c r = .ok b ∧ operation c pos op = .ok i ∧
      code = a ++ b ++ [i] := by
  simp only [value, Outcome.bind_eq_ok, Outcome.pure_eq, Except.ok.injEq]
  grind

theorem value_assign_eq_ok : value c (.assign pos l r) = .ok code ↔
    ∃ a b d, value c r = .ok a ∧ place c l = .ok b ∧ reload c l = .ok d ∧
      code = a ++ b ++ d := by
  simp only [value, Outcome.bind_eq_ok, Outcome.pure_eq, Except.ok.injEq]
  grind

theorem value_call_eq_ok : value c (.call pos name args) = .ok code ↔
    Asm.isReserved name = false ∧ ∃ a, values c args = .ok a ∧ code = a ++ [Instr.call name] := by
  rw [value]
  cases hr : Asm.isReserved name with
  | true => simp [fail]
  | false =>
    simp only [Bool.false_eq_true, if_false, Outcome.bind_eq_ok, Outcome.pure_eq,
      Except.ok.injEq]
    grind

theorem values_cons_eq_ok {xs : List Expr} : values c (x :: xs) = .ok code ↔
    ∃ a b, value c x = .ok a ∧ values c xs = .ok b ∧ code = a ++ b := by
  simp only [values, Outcome.bind_eq_ok, Outcome.pure_eq, Except.ok.injEq]
  grind

theorem value_addr_eq_ok : value c (.addr pos x) = .ok code ↔
    ∃ p i name, x = .var p i ∧ c.cell i = .ok name ∧ code = [.address name] := by
  cases x with
  | var p i =>
    simp only [value, Outcome.bind_eq_ok, Outcome.pure_eq, Except.ok.injEq, Expr.var.injEq]
    grind
  | _ => simp [value, notLvalue, Expr.pos?, fail]

/-- A store goes into a variable, through a variable, or through the scratch cell. -/
theorem place_cases (h : place c x = .ok code) :
    (∃ p i name, x = .var p i ∧ c.cell i = .ok name ∧ code = [.store name]) ∨
      (∃ q p i name, x = .deref q (.var p i) ∧ c.cell i = .ok name ∧
        code = [.storeThrough name]) ∨
      ∃ q y a, x = .deref q y ∧ (∀ p i, y ≠ .var p i) ∧ value c y = .ok a ∧
        code = a ++ [Instr.store scratchName, .storeThrough scratchName] := by
  cases x with
  | var p i =>
    rw [place, Outcome.bind_eq_ok] at h
    obtain ⟨name, hn, h⟩ := h
    cases h
    exact .inl ⟨p, i, name, rfl, hn, rfl⟩
  | deref q y =>
    by_cases hy : ∃ p i, y = .var p i
    · obtain ⟨p, i, rfl⟩ := hy
      rw [place, Outcome.bind_eq_ok] at h
      obtain ⟨name, hn, h⟩ := h
      cases h
      exact .inr (.inl ⟨q, p, i, name, rfl, hn, rfl⟩)
    · have hn : ∀ p i, y ≠ .var p i := fun p i he => hy ⟨p, i, he⟩
      rw [place.eq_def] at h
      simp only at h
      obtain ⟨a, ha, h⟩ := Outcome.bind_eq_ok.mp h
      cases h
      exact .inr (.inr ⟨q, y, a, rfl, hn, ha, rfl⟩)
  | _ => simp [place, notLvalue, Expr.pos?, fail] at h

/-- An assignment is stored and not loaded again; any other value is dropped. -/
theorem effect_cases (h : effect c x = .ok code) :
    (∃ p l r a b, x = .assign p l r ∧ value c r = .ok a ∧ place c l = .ok b ∧ code = a ++ b) ∨
      (∀ p l r, x ≠ .assign p l r) ∧ ∃ a, value c x = .ok a ∧ code = a ++ [Instr.drop] := by
  cases x with
  | assign p l r =>
    rw [effect, Outcome.bind_eq_ok] at h
    obtain ⟨a, ha, h⟩ := h
    obtain ⟨b, hb, h⟩ := Outcome.bind_eq_ok.mp h
    cases h
    exact .inl ⟨p, l, r, a, b, rfl, ha, hb, rfl⟩
  | _ =>
    rw [effect.eq_def] at h
    obtain ⟨a, ha, h⟩ := Outcome.bind_eq_ok.mp h
    cases h
    exact .inr ⟨by simp, a, ha, rfl⟩

end Expressions

theorem loopTest_cases {done : Bytes} {test : Expr} (h : loopTest c done test = .ok code) :
    (test.isAbsent = true ∧ code = []) ∨
      (test.isAbsent = false ∧ ∃ a, value c test = .ok a ∧ code = a ++ [Instr.jumpZero done]) := by
  rw [loopTest] at h
  cases ha : test.isAbsent with
  | true =>
    rw [ha, if_pos rfl] at h
    cases h
    exact .inl ⟨rfl, rfl⟩
  | false =>
    rw [ha, if_neg (by decide), Outcome.bind_eq_ok] at h
    obtain ⟨a, hv, h⟩ := h
    cases h
    exact .inr ⟨rfl, a, hv, rfl⟩

theorem loopStep_cases {step : Expr} (h : loopStep c step = .ok code) :
    (step.isAbsent = true ∧ code = []) ∨ (step.isAbsent = false ∧ effect c step = .ok code) := by
  rw [loopStep] at h
  cases ha : step.isAbsent with
  | true =>
    rw [ha, if_pos rfl] at h
    cases h
    exact .inl ⟨rfl, rfl⟩
  | false =>
    rw [ha, if_neg (by decide)] at h
    exact .inr ⟨rfl, h⟩

end StackC.Lowering
