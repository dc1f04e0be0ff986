import StackC.Proofs.Cursor.Program
import StackC.Proofs.Lowering.Shape
import StackC.Proofs.Tree.Parsed
import StackC.Proofs.Tree.Violations

/-! Code is made for a parsed program unless it violates the rules, and then its first violation is
reported. -/
namespace StackC.Lowering

open Asm (Instr)

/-- The outcome is a result if there are no violations, and otherwise the error of the first. -/
def Reports {α : Type} (r : Except Failure α) : List Violation → Prop
  | [] => ∃ a, r = .ok a
  | v :: _ => r = .error (.source v.error)

namespace Reports

variable {α β : Type} {r : Except Failure α} {vs ws : List Violation}

theorem ok (a : α) : Reports (.ok a) [] := ⟨a, rfl⟩

theorem bind {f : α → Except Failure β} (h : Reports r vs)
    (hf : ∀ a, r = .ok a → Reports (f a) ws) : Reports (r >>= f) (vs ++ ws) := by
  cases vs with
  | nil =>
    obtain ⟨a, rfl⟩ := h
    exact hf a rfl
  | cons v vs =>
    cases h
    rfl

/-- What comes after the last step that may fail makes no difference. -/
theorem andThen {f : α → Except Failure β} (h : Reports r vs)
    (hf : ∀ a, r = .ok a → Reports (f a) []) : Reports (r >>= f) vs := by
  rw [← List.append_nil vs]
  exact h.bind hf

end Reports

theorem cell_eq_ok {c : Context} {i : Nat} (h : i < c.locals.length) :
    c.cell i = .ok c.locals[i].name := by
  have hg : getLocal? c.locals i = some c.locals[i] := List.getElem?_eq_getElem h
  rw [Context.cell, hg]

private theorem operation_isOk {c : Context} {op : BinaryOp} (h : c.req.Supports op) (pos : Int) :
    ∃ i, operation c pos op = .ok i := by
  rcases h with h | h
  · obtain ⟨i, hi⟩ := Option.isSome_iff_exists.mp h
    exact ⟨i, by rw [operation, hi]⟩
  · cases op with
    | lt | le | ne => exact ⟨_, by rw [operation, h]; rfl⟩
    | _ => cases h

private theorem reload_isOk {c : Context} {x : Expr} (h : x.Proper c.locals.length c.req) :
    ∃ code, reload c x = .ok code := by
  cases h with
  | var bound => exact ⟨_, by rw [reload, cell_eq_ok bound]; rfl⟩
  | deref operand =>
    cases operand with
    | var bound => exact ⟨_, by rw [reload, cell_eq_ok bound]; rfl⟩
    | _ => exact ⟨_, rfl⟩
  | _ => exact ⟨_, rfl⟩

private theorem reports_values {c : Context} {args : List Expr}
    (h : ∀ x ∈ args, Reports (value c x) x.violations) :
    Reports (values c args) (Expr.allViolations args) := by
  induction args with
  | nil => exact .ok []
  | cons a args ih =>
    rw [List.forall_mem_cons] at h
    rw [values, Expr.allViolations]
    exact h.1.bind fun _ _ => (ih h.2).andThen fun _ _ => .ok _

/-- What is reported for an expression, for its value and for it as a target. -/
theorem reports_expr {c : Context} {x : Expr} (h : x.Proper c.locals.length c.req) :
    Reports (value c x) x.violations ∧ Reports (place c x) x.targetViolations := by
  induction h with
  | num => exact ⟨.ok _, rfl⟩
  | var bound =>
    constructor
    · rw [value, cell_eq_ok bound]
      exact .ok _
    · rw [place, cell_eq_ok bound]
      exact .ok _
  | neg operand ih => exact ⟨ih.1.andThen fun _ _ => .ok _, rfl⟩
  | addr operand ih =>
    refine ⟨?_, rfl⟩
    cases operand with
    | var bound =>
      rw [value, cell_eq_ok bound]
      exact .ok _
    | _ => exact rfl
  | @deref pos x operand ih =>
    refine ⟨ih.1.andThen fun _ _ => .ok _, ?_⟩
    cases operand with
    | var bound =>
      rw [place, cell_eq_ok bound]
      exact .ok _
    | _ => exact ih.1.andThen fun _ _ => .ok _
  | @binary pos op l r supported left right ih₁ ih₂ =>
    refine ⟨?_, rfl⟩
    obtain ⟨i, hi⟩ := operation_isOk supported pos
    rw [value]
    refine ih₁.1.bind fun _ _ => ih₂.1.andThen fun _ _ => ?_
    rw [hi]
    exact .ok _
  | assign left right ih₁ ih₂ =>
    refine ⟨?_, rfl⟩
    obtain ⟨code, hc⟩ := reload_isOk left
    rw [value]
    refine ih₂.1.bind fun _ _ => ih₁.2.andThen fun _ _ => ?_
    rw [hc]
    exact .ok _
  | @call pos name args isName arguments ih =>
    refine ⟨?_, rfl⟩
    rw [value, Expr.violations]
    by_cases hr : name ∈ reservedNames
    · rw [if_pos (isReserved_iff.mpr hr), if_pos (List.contains_iff_mem.mpr hr)]
      exact rfl
    · rw [if_neg (fun h => hr (isReserved_iff.mp h)),
        if_neg (fun h => hr (List.contains_iff_mem.mp h))]
      exact (reports_values fun x hx => (ih x hx).1).andThen fun _ _ => .ok _

theorem reports_effect {c : Context} {x : Expr} (h : x.Proper c.locals.length c.req) :
    Reports (effect c x) x.violations := by
  have hv := (reports_expr h).1
  cases h with
  | assign left right =>
    exact (reports_expr right).1.bind fun _ _ => (reports_expr left).2.andThen fun _ _ => .ok _
  | _ => exact hv.andThen fun _ _ => .ok _

private theorem reports_loopTest {c : Context} {done : Bytes} {x : Expr}
    (h : x.isAbsent = false → x.Proper c.locals.length c.req) :
    Reports (loopTest c done x) x.violations := by
  rw [loopTest]
  cases ha : x.isAbsent with
  | true =>
    cases Expr.eq_absent ha
    exact .ok _
  | false => exact (reports_expr (h ha)).1.andThen fun _ _ => .ok _

private theorem reports_loopStep {c : Context} {x : Expr}
    (h : x.isAbsent = false → x.Proper c.locals.length c.req) :
    Reports (loopStep c x) x.violations := by
  rw [loopStep]
  cases ha : x.isAbsent with
  | true =>
    cases Expr.eq_absent ha
    exact .ok _
  | false => exact reports_effect (h ha)

/-- A statement that may be missing. -/
theorem reports_optional {c : Context} {n : Nat} {x : Stmt}
    (h : x.isAbsent = false → Reports (statement c n x) x.violations) :
    Reports (optional c n x) x.violations := by
  rw [optional]
  cases ha : x.isAbsent with
  | true =>
    cases Stmt.eq_absent ha
    exact .ok _
  | false => exact h ha

theorem reports_statements {c : Context} {xs : List Stmt}
    (h : ∀ x ∈ xs, ∀ n, Reports (statement c n x) x.violations) (n : Nat) :
    Reports (statements c n xs) (Stmt.allViolations xs) := by
  induction xs generalizing n with
  | nil => exact .ok _
  | cons x xs ih =>
    rw [List.forall_mem_cons] at h
    rw [statements, Stmt.allViolations]
    exact (h.1 n).bind fun _ _ => (ih h.2 _).andThen fun _ _ => .ok _

theorem reports_statement {c : Context} {x : Stmt} (h : x.Proper c.locals.length c.req) (n : Nat) :
    Reports (statement c n x) x.violations := by
  induction h generalizing n with
  | block inner ih =>
    rw [statement, Stmt.violations]
    exact reports_statements ih n
  | cond tested first second ih₁ ih₂ =>
    rw [statement_cond, Stmt.violations]
    refine (reports_expr tested).1.bind fun _ _ => (ih₁ _).bind fun _ _ => ?_
    exact (reports_optional fun ha => ih₂ ha _).andThen fun _ _ => .ok _
  | loop started tested stepped inner ih₁ ih₂ =>
    rw [statement_loop, Stmt.violations]
    refine (reports_optional fun ha => ih₁ ha _).bind fun _ _ => ?_
    refine (reports_loopTest tested).bind fun _ _ => (ih₂ _).bind fun _ _ => ?_
    exact (reports_loopStep stepped).andThen fun _ _ => .ok _
  | ret value =>
    rw [statement, Stmt.violations]
    exact (reports_expr value).1.andThen fun _ _ => .ok _
  | expr value =>
    rw [statement, Stmt.violations]
    exact (reports_effect value).andThen fun _ _ => .ok _

theorem reports_body {req : Requirements} {f : Function} (h : f.Proper req) (entry exit : Bytes)
    (n : Nat) : Reports (body req entry exit n f) f.violations := by
  obtain ⟨b, hb, hs⟩ := h.body
  rw [body, Function.violations, hb]
  refine (reports_statements (fun x hx n => ?_) n).andThen fun _ _ => .ok _
  exact reports_statement (hs x hx) n

private theorem reports_functions {req : Requirements} {fs : List Function}
    (h : ∀ f ∈ fs, f.Proper req) (n : Nat) :
    Reports (functions req n fs) (fs.flatMap Function.violations) := by
  induction fs generalizing n with
  | nil => exact .ok _
  | cons f fs ih =>
    rw [List.forall_mem_cons] at h
    rw [functions, List.flatMap_cons]
    exact (reports_body h.1 _ _ n).bind fun _ _ => (ih h.2 _).andThen fun _ _ => .ok _

theorem reports_checkNames (p : Program) : Reports (checkNames p.funcs) p.nameViolations := by
  have hp : (fun f : Function => Asm.isReserved f.name) =
      fun f => reservedNames.contains f.name := by
    funext f
    rw [Bool.eq_iff_iff, isReserved_iff, List.contains_iff_mem]
  rw [checkNames, hp, ← List.head?_filter, Program.nameViolations]
  cases p.funcs.filter fun f => reservedNames.contains f.name with
  | cons f fs => rfl
  | nil =>
    have hm : (findFunction? p.funcs mainName).isSome ↔ ∃ f ∈ p.funcs, f.name = ascii "main" := by
      simp [findFunction?, mainName]
    by_cases h : ∃ f ∈ p.funcs, f.name = ascii "main"
    · simp only [List.head?_nil, hm.mpr h, if_true, List.map_nil, List.nil_append, if_pos h]
      exact .ok ()
    · simp only [List.head?_nil, mt hm.mp h, List.map_nil, List.nil_append, if_neg h]
      exact rfl

theorem reports_program {p : Program} (h : p.Proper) : Reports (program p) p.violations := by
  rw [program, Program.violations]
  cases ht : p.topLevel with
  | true =>
    obtain ⟨f, hf⟩ := h.single ht
    have hp := h.functions f (by simp [hf])
    simp only [hf, if_true, List.nil_append, List.flatMap_cons, List.flatMap_nil, List.append_nil]
    exact (reports_body hp _ _ 0).andThen fun _ _ => .ok _
  | false =>
    refine (reports_checkNames p).bind fun _ _ => ?_
    exact (reports_functions h.functions 0).andThen fun _ _ => .ok _

/-- The failure is a defect of the tree: a missing node, an unknown operator, or a comparison whose
routine was not asked for. -/
def isInternal : Failure → Bool
  | .malformedTree => true
  | .source ⟨.absentNode, _⟩ | .source ⟨.unknownOperator, _⟩
  | .source ⟨.helperNotRequested _, _⟩ => true
  | _ => false

private theorem isInternal_error (v : Violation) : isInternal (.source v.error) = false := by
  cases v <;> rfl

/-- Code is made for a parsed program if and only if it is acceptable. Otherwise its first violation
is reported, and nothing else. -/
theorem program_outcome_of_parse {src : Bytes} {toks : List Token} {req : Requirements}
    {p : Program} (hsrc : Token.scan src = .ok toks) (hp : Grammar.parse toks req = .ok p) :
    ((∃ code, program p = .ok code) ↔ p.Acceptable) ∧
      ∀ e, program p = .error e →
        isInternal e = false ∧ ∃ v, p.violations.head? = some v ∧ e = .source v.error := by
  have h := Grammar.proper_of_parse hsrc hp
  have hr := reports_program h
  rw [← Program.violations_eq_nil h]
  cases hv : p.violations with
  | nil =>
    rw [hv] at hr
    obtain ⟨code, hc⟩ := hr
    exact ⟨⟨fun _ => rfl, fun _ => ⟨code, hc⟩⟩, fun e he => by rw [hc] at he; cases he⟩
  | cons v vs =>
    rw [hv] at hr
    have hr : program p = .error (.source v.error) := hr
    rw [hr]
    refine ⟨⟨?_, ?_⟩, ?_⟩
    · rintro ⟨code, hc⟩
      cases hc
    · intro hn
      cases hn
    · intro e he
      cases he
      exact ⟨isInternal_error v, v, rfl, rfl⟩

/-- The tokens of a function with a name that is taken and a target that is none. -/
def takenName : List Token :=
  [⟨.keyword, 0, ascii "int", 0⟩, ⟨.ident, 4, ascii "le", 0⟩, ⟨.punct, 6, ascii "(", 0⟩,
    ⟨.punct, 7, ascii ")", 0⟩, ⟨.punct, 8, ascii "\x7b", 0⟩, ⟨.num, 9, ascii "1", 1⟩,
    ⟨.punct, 10, ascii "=", 0⟩, ⟨.num, 11, ascii "2", 2⟩, ⟨.punct, 12, ascii ";", 0⟩,
    ⟨.punct, 13, ascii "\x7d", 0⟩, .eof 14]

/-- Its tree, with all three violations. -/
def takenNameTree : Program where
  topLevel := false
  funcs := [{ name := ascii "le", pos := 4, body := some {
    pos := 8, stmts := [.expr 9 (.assign 10 (.num 9 1) (.num 11 2))] } }]
  req := {}

theorem program_outcome_of_takenName :
    takenNameTree.violations = [.reservedName (ascii "le") 4, .noMain, .notLvalue 9] ∧
      ((∃ code, program takenNameTree = .ok code) ↔ takenNameTree.Acceptable) ∧
      ∀ e, program takenNameTree = .error e → isInternal e = false ∧
        ∃ v, takenNameTree.violations.head? = some v ∧ e = .source v.error := by
  have hsrc : Token.scan (ascii "int le()\x7b1=2;\x7d") = .ok takenName := by decide +kernel
  have hp : Grammar.parse takenName {} = .ok takenNameTree := Grammar.parse_of_walk rfl
  exact ⟨by decide, program_outcome_of_parse hsrc hp⟩

end StackC.Lowering
