import StackC.Proofs.Lowering.Shape
import StackC.Proofs.Tree.Proper

/-! The code of statements as a relation, with one rule for each kind of statement. -/
namespace StackC.Lowering

open Asm (Instr)

/-- One statement, or statements one after the other. -/
inductive Piece
  | one (x : Stmt)
  | many (xs : List Stmt)

def Piece.ofOptional (x : Stmt) : Piece := if x.isAbsent then .many [] else .one x

/-- What takes a missing statement for no statement takes an optional one for itself. -/
theorem Piece.apply_ofOptional {α : Sort _} (f : Piece → α) (h : f (.many []) = f (.one .absent))
    (x : Stmt) : f (.ofOptional x) = f (.one x) := by
  unfold Piece.ofOptional
  cases hx : x.isAbsent with
  | true =>
    cases Stmt.eq_absent hx
    exact h
  | false => rfl

/-- The piece has this code, between the two numbers handed out last. -/
inductive Emits (c : Context) : Piece → Nat → List Instr → Nat → Prop
  | nil {n : Nat} : Emits c (.many []) n [] n
  | cons {n n₁ m : Nat} {x : Stmt} {xs : List Stmt} {a b : List Instr}
      (first : Emits c (.one x) n a n₁) (rest : Emits c (.many xs) n₁ b m) :
      Emits c (.many (x :: xs)) n (a ++ b) m
  | block {n m : Nat} {pos : Int} {body : List Stmt} {code : List Instr}
      (inner : Emits c (.many body) n code m) : Emits c (.one (.block pos body)) n code m
  | cond {n n₁ m : Nat} {pos : Int} {test : Expr} {yes no : Stmt} {t a b : List Instr}
      (proper : test.Proper c.locals.length c.req) (tested : value c test = .ok t)
      (first : Emits c (.one yes) (n + 1) a n₁) (second : Emits c (.ofOptional no) n₁ b m) :
      Emits c (.one (.cond pos test yes no)) n (condCode (n + 1) t a b) m
  | loop {n n₁ m : Nat} {pos : Int} {first body : Stmt} {test step : Expr} {i t b s : List Instr}
      (properTest : test.isAbsent = false → test.Proper c.locals.length c.req)
      (properStep : step.isAbsent = false → step.Proper c.locals.length c.req)
      (started : Emits c (.ofOptional first) (n + 1) i n₁)
      (tested : loopTest c (endLabel (n + 1)) test = .ok t)
      (inner : Emits c (.one body) n₁ b m) (stepped : loopStep c step = .ok s) :
      Emits c (.one (.loop pos first test step body)) n (loopCode (n + 1) i t b s) m
  | ret {n : Nat} {pos : Int} {x : Expr} {code : List Instr}
      (proper : x.Proper c.locals.length c.req) (valued : value c x = .ok code) :
      Emits c (.one (.ret pos x)) n (code ++ [Instr.jump c.exit]) n
  | expr {n : Nat} {pos : Int} {x : Expr} {code : List Instr}
      (proper : x.Proper c.locals.length c.req) (run : effect c x = .ok code) :
      Emits c (.one (.expr pos x)) n code n

theorem emits_of_statements {c : Context} {xs : List Stmt}
    (h : ∀ x ∈ xs, ∀ n code m, statement c n x = .ok (code, m) → Emits c (.one x) n code m)
    {n m : Nat} {code : List Instr} (hs : statements c n xs = .ok (code, m)) :
    Emits c (.many xs) n code m := by
  induction xs generalizing n code with
  | nil =>
    cases hs
    exact .nil
  | cons x xs ih =>
    rw [List.forall_mem_cons] at h
    rw [statements] at hs
    obtain ⟨⟨a, n₁⟩, ha, hs⟩ := Outcome.bind_eq_ok.mp hs
    obtain ⟨⟨b, n₂⟩, hb, hs⟩ := Outcome.bind_eq_ok.mp hs
    cases hs
    exact .cons (h.1 n a n₁ ha) (ih h.2 hb)

theorem emits_of_optional {c : Context} {x : Stmt} {n m : Nat} {code : List Instr}
    (h : x.isAbsent = false → statement c n x = .ok (code, m) → Emits c (.one x) n code m)
    (hs : optional c n x = .ok (code, m)) : Emits c (.ofOptional x) n code m := by
  rw [optional] at hs
  rw [Piece.ofOptional]
  cases ha : x.isAbsent with
  | true =>
    rw [ha, if_pos rfl] at hs
    cases hs
    exact .nil
  | false =>
    rw [ha] at hs
    exact h ha hs

/-- The code of a proper statement is emitted. -/
theorem emits_of_statement {c : Context} {x : Stmt} (h : x.Proper c.locals.length c.req)
    {n m : Nat} {code : List Instr} (hs : statement c n x = .ok (code, m)) :
    Emits c (.one x) n code m := by
  induction h generalizing n m code with
  | block inner ih =>
    rw [statement] at hs
    exact .block (emits_of_statements (fun x hx n code m => ih x hx) hs)
  | cond tested first second ih₁ ih₂ =>
    rw [statement_cond] at hs
    obtain ⟨t, ht, hs⟩ := Outcome.bind_eq_ok.mp hs
    obtain ⟨⟨a, n₁⟩, ha, hs⟩ := Outcome.bind_eq_ok.mp hs
    obtain ⟨⟨b, n₂⟩, hb, hs⟩ := Outcome.bind_eq_ok.mp hs
    cases hs
    exact .cond tested ht (ih₁ ha) (emits_of_optional (fun ha => ih₂ ha) hb)
  | loop started tested stepped inner ih₁ ih₂ =>
    rw [statement_loop] at hs
    obtain ⟨⟨i, n₁⟩, hi, hs⟩ := Outcome.bind_eq_ok.mp hs
    obtain ⟨t, ht, hs⟩ := Outcome.bind_eq_ok.mp hs
    obtain ⟨⟨b, n₂⟩, hb, hs⟩ := Outcome.bind_eq_ok.mp hs
    obtain ⟨s, hstep, hs⟩ := Outcome.bind_eq_ok.mp hs
    cases hs
    exact .loop tested stepped (emits_of_optional (fun ha => ih₁ ha) hi) ht (ih₂ hb) hstep
  | ret proper =>
    rw [statement] at hs
    obtain ⟨a, ha, hs⟩ := Outcome.bind_eq_ok.mp hs
    cases hs
    exact .ret proper ha
  | expr proper =>
    rw [statement] at hs
    obtain ⟨a, ha, hs⟩ := Outcome.bind_eq_ok.mp hs
    cases hs
    exact .expr proper ha

def Piece.lower (c : Context) (n : Nat) : Piece → Except Failure Numbered
  | .one x => statement c n x
  | .many xs => statements c n xs

theorem lower_ofOptional (c : Context) (n : Nat) (x : Stmt) :
    (Piece.ofOptional x).lower c n = optional c n x := by
  unfold Piece.ofOptional optional
  split <;> rfl

/-- What is emitted is the code of the piece. -/
theorem lower_of_emits {c : Context} {piece : Piece} {n m : Nat} {code : List Instr}
    (h : Emits c piece n code m) : piece.lower c n = .ok (code, m) := by
  induction h with
  | nil => rfl
  | cons first rest ih₁ ih₂ =>
    simp only [Piece.lower] at ih₁ ih₂ ⊢
    simp [statements, ih₁, ih₂]
  | block inner ih => simpa only [Piece.lower, statement] using ih
  | cond proper tested first second ih₁ ih₂ =>
    simp only [Piece.lower] at ih₁
    rw [lower_ofOptional] at ih₂
    simp [Piece.lower, statement_cond, tested, ih₁, ih₂]
  | loop properTest properStep started tested inner stepped ih₁ ih₂ =>
    simp only [Piece.lower] at ih₂
    rw [lower_ofOptional] at ih₁
    simp [Piece.lower, statement_loop, tested, stepped, ih₁, ih₂]
  | ret proper valued => simp [Piece.lower, statement, valued]
  | expr proper run => simp [Piece.lower, statement, run]

/-- The code of a function: its entry, its statements and its exit. -/
theorem body_eq_ok {req : Requirements} {entry exit : Bytes} {n m : Nat} {f : Function}
    {code : List Instr} (hf : f.Proper req) (h : body req entry exit n f = .ok (code, m)) :
    ∃ b inner, f.body = some b ∧
      Emits { locals := f.locals, req, exit } (.many b.stmts) n inner m ∧
      code = .label entry :: (inner ++ [Instr.label exit]) := by
  obtain ⟨b, hb, hs⟩ := hf.body
  rw [body, hb] at h
  obtain ⟨⟨inner, n₁⟩, hi, h⟩ := Outcome.bind_eq_ok.mp h
  cases h
  refine ⟨b, inner, hb, emits_of_statements (fun x hx n code m => ?_) hi, rfl⟩
  exact emits_of_statement (hs x hx)

end StackC.Lowering
