import StackC.Proofs.Lowering.Shape
import StackC.Proofs.Tree.Matching

/-! Trees that match have the same code, or none of them has code. Offsets show only in errors, and
variables stand in the code by their names. -/
namespace StackC.Lowering

open Asm (Instr)

/-- Both give the same, or both fail. -/
inductive Same {A : Type} : Except Failure A → Except Failure A → Prop
  | ok (a : A) : Same (.ok a) (.ok a)
  | error (e e' : Failure) : Same (.error e) (.error e')

theorem Same.bind {A B : Type} {x y : Except Failure A} {k l : A → Except Failure B}
    (h : Same x y) (hk : ∀ a, Same (k a) (l a)) : Same (x >>= k) (y >>= l) := by
  cases h with
  | ok a => exact hk a
  | error e e' => exact .error e e'

theorem Same.ok_iff {A : Type} {x y : Except Failure A} (h : Same x y) (a : A) :
    x = .ok a ↔ y = .ok a := by
  cases h with
  | ok b => exact Iff.rfl
  | error e e' => simp

/-- Two functions are compiled alike, if their variables correspond like this. -/
structure Context.Matches (V : Int → Int → Prop) (c c' : Context) : Prop where
  cell : ∀ i i', V i i' → Same (c.cell i) (c'.cell i')
  req : c.req = c'.req
  exit : c.exit = c'.exit

section Expressions

variable {V : Int → Int → Prop} {c c' : Context}

private theorem same_operation (hc : c.Matches V c') (p p' : Int) (op : BinaryOp) :
    Same (operation c p op) (operation c' p' op) := by
  unfold operation
  rw [hc.req]
  cases native? op with
  | some i => exact .ok i
  | none =>
    cases Asm.Routine.find? op with
    | none => exact .error _ _
    | some r =>
      simp only
      split
      · exact .ok _
      · exact .error _ _

private theorem same_reload (hc : c.Matches V c') {x x' : Expr} (h : x.Matches V x') :
    Same (reload c x) (reload c' x') := by
  cases h with
  | var same => exact (hc.cell _ _ same).bind fun _ => .ok _
  | deref operand =>
    cases operand with
    | var same => exact (hc.cell _ _ same).bind fun _ => .ok _
    | _ => exact .ok _
  | _ => exact .ok _

mutual

theorem same_value (hc : c.Matches V c') {x x' : Expr} (h : x.Matches V x') :
    Same (value c x) (value c' x') := by
  match x, h with
  | _, .absent => exact .error _ _
  | _, .num => exact .ok _
  | _, .var same => exact (hc.cell _ _ same).bind fun _ => .ok _
  | .neg _ x, .neg hx => exact (same_value hc hx).bind fun _ => .ok _
  | .deref _ x, .deref hx => exact (same_value hc hx).bind fun _ => .ok _
  | .addr _ x, .addr hx =>
    cases hx with
    | var same => exact (hc.cell _ _ same).bind fun _ => .ok _
    | _ => exact .error _ _
  | .assign _ l r, .assign hl hr =>
    exact (same_value hc hr).bind fun _ => (same_place hc hl).bind fun _ =>
      (same_reload hc hl).bind fun _ => .ok _
  | .call _ name args, .call hs =>
    rw [value, value]
    split
    · exact .error _ _
    · exact (same_values hc hs).bind fun _ => .ok _
  | .binary _ op l r, .binary hl hr =>
    exact (same_value hc hl).bind fun _ => (same_value hc hr).bind fun _ =>
      (same_operation hc _ _ op).bind fun _ => .ok _

theorem same_values (hc : c.Matches V c') {xs xs' : List Expr}
    (h : List.Forall₂ (Expr.Matches V) xs xs') : Same (values c xs) (values c' xs') := by
  match xs, h with
  | _, .nil => exact .ok []
  | x :: xs, .cons hx hs =>
    exact (same_value hc hx).bind fun _ => (same_values hc hs).bind fun _ => .ok _

theorem same_place (hc : c.Matches V c') {x x' : Expr} (h : x.Matches V x') :
    Same (place c x) (place c' x') := by
  match x, h with
  | _, .var same => exact (hc.cell _ _ same).bind fun _ => .ok _
  | .deref _ x, .deref hx =>
    have hv := same_value hc hx
    cases hx with
    | var same => exact (hc.cell _ _ same).bind fun _ => .ok _
    | _ => exact hv.bind fun _ => .ok _
  | _, .absent | _, .num | _, .neg _ | _, .addr _ | _, .assign .. | _, .call _ | _, .binary .. =>
    exact .error _ _

end

theorem same_effect (hc : c.Matches V c') {x x' : Expr} (h : x.Matches V x') :
    Same (effect c x) (effect c' x') := by
  have hv := same_value hc h
  cases h with
  | assign hl hr => exact (same_value hc hr).bind fun _ => (same_place hc hl).bind fun _ => .ok _
  | _ => exact hv.bind fun _ => .ok _

end Expressions

section Statements

variable {V : Int → Int → Prop} {c c' : Context}

theorem same_loopTest (hc : c.Matches V c') {x x' : Expr} (h : x.Matches V x') (done : Bytes) :
    Same (loopTest c done x) (loopTest c' done x') := by
  rw [loopTest, loopTest, h.isAbsent]
  split
  · exact .ok _
  · exact (same_value hc h).bind fun _ => .ok _

private theorem same_loopStep (hc : c.Matches V c') {x x' : Expr} (h : x.Matches V x') :
    Same (loopStep c x) (loopStep c' x') := by
  rw [loopStep, loopStep, h.isAbsent]
  split
  · exact .ok _
  · exact same_effect hc h

theorem same_optional {s s' : Stmt} {n : Nat} (ha : s.isAbsent = s'.isAbsent)
    (h : Same (statement c n s) (statement c' n s')) :
    Same (optional c n s) (optional c' n s') := by
  rw [optional, optional, ha]
  split
  · exact .ok _
  · exact h

mutual

theorem same_statement (hc : c.Matches V c') {s s' : Stmt} (h : s.Matches V s') (n : Nat) :
    Same (statement c n s) (statement c' n s') := by
  match s, h with
  | _, .absent => exact .error _ _
  | .block _ body, .block hs => exact same_statements hc hs n
  | .cond _ _ yes no, .cond hx h₁ h₂ =>
    rw [statement_cond, statement_cond]
    refine (same_value hc hx).bind fun _ => (same_statement hc h₁ _).bind fun _ => ?_
    exact (same_optional h₂.isAbsent (same_statement hc h₂ _)).bind fun _ => .ok _
  | .loop _ first _ _ body, .loop hf ht hs hb =>
    rw [statement_loop, statement_loop]
    refine (same_optional hf.isAbsent (same_statement hc hf _)).bind fun _ => ?_
    refine (same_loopTest hc ht _).bind fun _ => (same_statement hc hb _).bind fun _ => ?_
    exact (same_loopStep hc hs).bind fun _ => .ok _
  | _, .ret hx =>
    rw [statement, statement, hc.exit]
    exact (same_value hc hx).bind fun _ => .ok _
  | _, .expr hx => exact (same_effect hc hx).bind fun _ => .ok _

theorem same_statements (hc : c.Matches V c') {ss ss' : List Stmt}
    (h : List.Forall₂ (Stmt.Matches V) ss ss') (n : Nat) :
    Same (statements c n ss) (statements c' n ss') := by
  match ss, h with
  | _, .nil => exact .ok _
  | s :: ss, .cons h hs =>
    exact (same_statement hc h n).bind fun first =>
      (same_statements hc hs first.2).bind fun _ => .ok _

end

end Statements

section Programs

/-- Variables that are taken by name have the same cell. -/
theorem matches_named (locals locals' : List Local) (req : Requirements) (exit : Bytes) :
    Context.Matches (Named locals locals') ⟨locals, req, exit⟩ ⟨locals', req, exit⟩ := by
  refine ⟨?_, rfl, rfl⟩
  rintro i i' ⟨name, hi, hi'⟩
  obtain ⟨v, hv, rfl⟩ := Option.map_eq_some_iff.mp hi
  obtain ⟨v', hv', hn⟩ := Option.map_eq_some_iff.mp hi'
  simp only [Context.cell, hv, hv', hn]
  exact .ok _

theorem same_body {f f' : Function} (h : f.Matches f') (req : Requirements) (entry exit : Bytes)
    (n : Nat) : Same (body req entry exit n f) (body req entry exit n f') := by
  obtain ⟨b, b', hb, hb', hs⟩ := h.body
  simp only [body, hb, hb']
  exact (same_statements (matches_named f.locals f'.locals req exit) hs n).bind fun _ => .ok _

private theorem same_functions {fs fs' : List Function} (h : List.Forall₂ Function.Matches fs fs')
    (req : Requirements) (n : Nat) : Same (functions req n fs) (functions req n fs') := by
  induction h generalizing n with
  | nil => exact .ok []
  | cons hf hs ih =>
    rw [functions, functions, hf.name]
    exact (same_body hf req _ _ n).bind fun code => (ih code.2).bind fun _ => .ok _

/-- Functions with the same names are found alike. -/
theorem isSome_find?_name {fs fs' : List Function} (h : List.Forall₂ Function.Matches fs fs')
    (P : Bytes → Bool) :
    (fs.find? fun f => P f.name).isSome = (fs'.find? fun f => P f.name).isSome := by
  induction h with
  | nil => rfl
  | cons hf hs ih =>
    rw [List.find?_cons, List.find?_cons, hf.name]
    split
    · rfl
    · exact ih

theorem same_checkNames {fs fs' : List Function} (h : List.Forall₂ Function.Matches fs fs') :
    Same (checkNames fs) (checkNames fs') := by
  have hr := isSome_find?_name h Asm.isReserved
  have hm := isSome_find?_name h (· == mainName)
  unfold checkNames findFunction?
  rw [hm]
  cases hf : fs.find? fun f => Asm.isReserved f.name with
  | some f =>
    rw [hf] at hr
    obtain ⟨f', hf'⟩ := Option.isSome_iff_exists.mp hr.symm
    rw [hf']
    exact .error _ _
  | none =>
    rw [hf] at hr
    rw [Option.isSome_eq_false_iff.mp hr.symm |> Option.isNone_iff_eq_none.mp]
    simp only
    split
    · exact .ok ()
    · exact .error _ _

/-- Programs that match have the same code. -/
theorem same_program {p p' : Program} (h : p.Matches p') : Same (program p) (program p') := by
  unfold program
  rw [h.topLevel, h.req]
  split
  · have hf := h.funcs
    revert hf
    generalize p.funcs = fs
    generalize p'.funcs = fs'
    intro hf
    cases hf with
    | nil => exact .error _ _
    | cons hf hs => exact (same_body hf p'.req _ _ 0).bind fun _ => .ok _
  · refine (same_checkNames h.funcs).bind fun _ => ?_
    exact (same_functions h.funcs p'.req 0).bind fun _ => .ok _

end Programs

end StackC.Lowering
