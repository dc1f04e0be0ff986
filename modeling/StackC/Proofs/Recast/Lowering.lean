import StackC.Proofs.Lowering.Shape
import StackC.Proofs.Recast.Tree

/-! The code of a program with other offsets and more flags is the same, but for the routines before
it. -/
namespace StackC.Lowering

open Asm (Instr)

/-- What stands behind the routines in the code of a program. -/
def mainPart (p : Program) : Except Failure (List Instr) :=
  if p.topLevel then
    match p.funcs with
    | [] => .error .malformedTree
    | f :: _ => do
      let code ← body p.req Asm.startLabel (ascii "l.return") 0 f
      return code.1 ++ [.display, .halt]
  else do
    checkNames p.funcs
    let code ← functions p.req 0 p.funcs
    return code ++ [.label Asm.startLabel, .call mainName, .display, .halt]

theorem program_eq_mainPart (p : Program) : program p =
    (mainPart p).map fun tail => .jump Asm.startLabel :: (routines p.req ++ tail) := by
  unfold program mainPart
  cases p.topLevel with
  | true =>
    simp only [if_true]
    cases p.funcs with
    | nil => rfl
    | cons f fs =>
      simp only
      cases body p.req Asm.startLabel (ascii "l.return") 0 f with
      | error e => rfl
      | ok a => simp
  | false =>
    simp only [Bool.false_eq_true, if_false]
    cases checkNames p.funcs with
    | error e => rfl
    | ok a =>
      cases functions p.req 0 p.funcs with
      | error e => rfl
      | ok code => simp

/-- Both give the same, or both fail for the same reason at corresponding places. -/
inductive Alike {A : Type} (m : Recast) : Except Failure A → Except Failure A → Prop
  | ok (a : A) : Alike m (.ok a) (.ok a)
  | error (e : Failure) : Alike m (.error e) (.error (m.failure e))

theorem Alike.bind {A B : Type} {m : Recast} {x y : Except Failure A} {k l : A → Except Failure B}
    (h : Alike m x y) (hk : ∀ a, Alike m (k a) (l a)) : Alike m (x >>= k) (y >>= l) := by
  cases h with
  | ok a => exact hk a
  | error e => exact .error e

/-- What a changed function is compiled with. -/
def Context.recast (m : Recast) (c : Context) : Context :=
  { c with locals := m.vars c.locals, req := m.req c.req }

section Context

variable {m : Recast} {c : Context} {count : Nat}

theorem alike_fail {A : Type} (cause : Cause) (pos : Int) :
    Alike (A := A) m (fail cause pos) (fail cause (m.pos pos)) :=
  .error (.source ⟨cause, pos⟩)

theorem alike_cell (i : Int) : Alike m (c.cell i) ((c.recast m).cell i) := by
  unfold Context.cell Context.recast
  simp only [m.getLocal?_vars]
  cases getLocal? c.locals i with
  | none => exact .error .malformedTree
  | some v => exact .ok v.name

theorem alike_reload (x : Expr) : Alike m (reload c x) (reload (c.recast m) (m.expr x)) := by
  cases x with
  | var pos i => exact (alike_cell i).bind fun _ => .ok _
  | deref pos x =>
    cases x with
    | var pos i => exact (alike_cell i).bind fun _ => .ok _
    | _ => exact .ok _
  | _ => exact .ok _

variable (hm : ∀ op, c.req.needs op → (m.req c.req).needs op)
include hm

/-- An operator with a routine that was asked for is a call of it in either case. -/
theorem alike_operation {op : BinaryOp} (h : c.req.Supports op) (pos : Int) :
    Alike m (operation c pos op) (operation (c.recast m) (m.pos pos) op) := by
  cases op with
  | add | sub | mul | div | eq => exact .ok _
  | invalid code => exact alike_fail .unknownOperator pos
  | lt | le | ne =>
    have hn := h.resolve_left Bool.false_ne_true
    unfold operation
    simp only [hn, Context.recast, hm _ hn]
    exact .ok _

omit hm in
private theorem alike_values {args : List Expr}
    (h : ∀ x ∈ args, Alike m (value c x) (value (c.recast m) (m.expr x))) :
    Alike m (values c args) (values (c.recast m) (m.exprs args)) := by
  induction args with
  | nil => exact .ok []
  | cons a args ih =>
    rw [List.forall_mem_cons] at h
    rw [Recast.exprs, values, values]
    exact h.1.bind fun _ => (ih h.2).bind fun _ => .ok _

/-- The code of an expression, for its value and for it as a target. -/
theorem alike_expr {x : Expr} (h : x.Proper count c.req) :
    Alike m (value c x) (value (c.recast m) (m.expr x)) ∧
      Alike m (place c x) (place (c.recast m) (m.expr x)) := by
  induction h with
  | num => exact ⟨.ok _, alike_fail _ _⟩
  | var bound =>
    constructor
    · exact (alike_cell _).bind fun _ => .ok _
    · exact (alike_cell _).bind fun _ => .ok _
  | neg operand ih => exact ⟨ih.1.bind fun _ => .ok _, alike_fail _ _⟩
  | addr operand ih =>
    refine ⟨?_, alike_fail _ _⟩
    cases operand with
    | var bound => exact (alike_cell _).bind fun _ => .ok _
    | _ => exact alike_fail _ _
  | deref operand ih =>
    refine ⟨ih.1.bind fun _ => .ok _, ?_⟩
    cases operand with
    | var bound => exact (alike_cell _).bind fun _ => .ok _
    | _ => exact ih.1.bind fun _ => .ok _
  | binary supported left right ih₁ ih₂ =>
    refine ⟨?_, alike_fail _ _⟩
    rw [Recast.expr, value, value]
    exact ih₁.1.bind fun _ => ih₂.1.bind fun _ =>
      (alike_operation hm supported _).bind fun _ => .ok _
  | assign left right ih₁ ih₂ =>
    refine ⟨?_, alike_fail _ _⟩
    rw [Recast.expr, value, value]
    exact ih₂.1.bind fun _ => ih₁.2.bind fun _ => (alike_reload _).bind fun _ => .ok _
  | @call pos name args isName arguments ih =>
    refine ⟨?_, alike_fail _ _⟩
    rw [Recast.expr, value, value]
    by_cases hr : Asm.isReserved name
    · rw [if_pos hr, if_pos hr]
      exact alike_fail _ _
    · rw [if_neg hr, if_neg hr]
      exact (alike_values fun x hx => (ih x hx).1).bind fun _ => .ok _

theorem alike_effect {x : Expr} (h : x.Proper count c.req) :
    Alike m (effect c x) (effect (c.recast m) (m.expr x)) := by
  have hv := (alike_expr hm h).1
  cases h with
  | assign left right =>
    exact (alike_expr hm right).1.bind fun _ => (alike_expr hm left).2.bind fun _ => .ok _
  | _ => exact hv.bind fun _ => .ok _

theorem alike_loopTest {done : Bytes} {x : Expr} (h : x.isAbsent = false → x.Proper count c.req) :
    Alike m (loopTest c done x) (loopTest (c.recast m) done (m.expr x)) := by
  unfold loopTest
  rw [m.isAbsent_expr]
  cases ha : x.isAbsent with
  | true => exact .ok []
  | false => exact (alike_expr hm (h ha)).1.bind fun _ => .ok _

private theorem alike_loopStep {x : Expr} (h : x.isAbsent = false → x.Proper count c.req) :
    Alike m (loopStep c x) (loopStep (c.recast m) (m.expr x)) := by
  unfold loopStep
  rw [m.isAbsent_expr]
  cases ha : x.isAbsent with
  | true => exact .ok []
  | false => exact alike_effect hm (h ha)

omit hm in
theorem alike_optional {x : Stmt} {n : Nat}
    (h : x.isAbsent = false → Alike m (statement c n x) (statement (c.recast m) n (m.stmt x))) :
    Alike m (optional c n x) (optional (c.recast m) n (m.stmt x)) := by
  unfold optional
  rw [m.isAbsent_stmt]
  cases ha : x.isAbsent with
  | true => exact .ok _
  | false => exact h ha

omit hm in
theorem alike_statements {xs : List Stmt}
    (h : ∀ x ∈ xs, ∀ n, Alike m (statement c n x) (statement (c.recast m) n (m.stmt x))) (n : Nat) :
    Alike m (statements c n xs) (statements (c.recast m) n (m.stmts xs)) := by
  induction xs generalizing n with
  | nil => exact .ok _
  | cons x xs ih =>
    rw [List.forall_mem_cons] at h
    rw [Recast.stmts, statements, statements]
    exact (h.1 n).bind fun a => (ih h.2 a.2).bind fun _ => .ok _

private theorem alike_statement {x : Stmt} (h : x.Proper count c.req) (n : Nat) :
    Alike m (statement c n x) (statement (c.recast m) n (m.stmt x)) := by
  induction h generalizing n with
  | block inner ih => exact alike_statements ih n
  | cond tested first second ih₁ ih₂ =>
    rw [Recast.stmt, statement_cond, statement_cond]
    refine (alike_expr hm tested).1.bind fun _ => (ih₁ _).bind fun _ => ?_
    exact (alike_optional fun h => ih₂ h _).bind fun _ => .ok _
  | loop started tested stepped inner ih₁ ih₂ =>
    rw [Recast.stmt, statement_loop, statement_loop]
    refine (alike_optional fun h => ih₁ h _).bind fun _ => ?_
    refine (alike_loopTest hm tested).bind fun _ => ?_
    exact (ih₂ _).bind fun _ => (alike_loopStep hm stepped).bind fun _ => .ok _
  | ret value => exact (alike_expr hm value).1.bind fun _ => .ok _
  | expr value => exact (alike_effect hm value).bind fun _ => .ok _

end Context

section Program

variable {m : Recast} {req : Requirements} (hm : ∀ op, req.needs op → (m.req req).needs op)
include hm

theorem alike_body {f : Function} (h : f.Proper req) (entry exit : Bytes) (n : Nat) :
    Alike m (body req entry exit n f) (body (m.req req) entry exit n (m.function f)) := by
  obtain ⟨b, hb, hs⟩ := h.body
  have hc := alike_statements (m := m) (c := { locals := f.locals, req, exit })
    (fun x hx => alike_statement hm (hs x hx)) n
  unfold body Recast.function
  simp only [hb, Option.map_some]
  exact hc.bind fun _ => .ok _

private theorem alike_functions {fs : List Function} (h : ∀ f ∈ fs, f.Proper req) (n : Nat) :
    Alike m (functions req n fs) (functions (m.req req) n (fs.map m.function)) := by
  induction fs generalizing n with
  | nil => exact .ok []
  | cons f fs ih =>
    rw [List.forall_mem_cons] at h
    rw [List.map_cons, functions, functions]
    exact (alike_body hm h.1 _ _ n).bind fun a => (ih h.2 a.2).bind fun _ => .ok _

omit hm in
private theorem alike_checkNames (fs : List Function) :
    Alike m (checkNames fs) (checkNames (fs.map m.function)) := by
  have hfind : (fs.map m.function).find? (fun f => Asm.isReserved f.name) =
      (fs.find? fun f => Asm.isReserved f.name).map m.function := List.find?_map
  unfold checkNames
  rw [hfind, m.findFunction?_map fs mainName]
  cases fs.find? fun f => Asm.isReserved f.name with
  | some f => exact alike_fail _ f.pos
  | none =>
    cases (findFunction? fs mainName).isSome with
    | true => exact .ok ()
    | false =>
      have h := alike_fail (A := Unit) (m := m) .noMain SourceError.noOffset
      rw [m.pos_noOffset] at h
      exact h

omit hm in
/-- The code behind the routines does not depend on offsets, nor on flags beyond those it needs. -/
theorem alike_mainPart {p : Program} (hp : p.Proper)
    (hm : ∀ op, p.req.needs op → (m.req p.req).needs op) :
    Alike m (mainPart p) (mainPart (m.program p)) := by
  unfold mainPart Recast.program
  cases ht : p.topLevel with
  | true =>
    obtain ⟨f, hf⟩ := hp.single ht
    have hproper : f.Proper p.req := hp.functions f (by simp [hf])
    simp only [hf, List.map_cons, List.map_nil, if_true]
    exact (alike_body hm hproper _ _ 0).bind fun _ => .ok _
  | false =>
    simp only [Bool.false_eq_true, if_false]
    refine (alike_checkNames p.funcs).bind fun _ => ?_
    exact (alike_functions hm hp.functions 0).bind fun _ => .ok _

end Program

end StackC.Lowering
