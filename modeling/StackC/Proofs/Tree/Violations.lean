import StackC.Proofs.Tree.Proper

/-! What a program may do wrong beyond its syntax, in the order in which code is made for it. -/
namespace StackC

/-- The labels that belong to no function: the start, and the comparison routines. -/
def reservedNames : List Bytes := [ascii "start", ascii "le", ascii "leq", ascii "ne"]

theorem isReserved_iff {name : Bytes} : Asm.isReserved name = true ↔ name ∈ reservedNames := by
  simp only [Asm.isReserved, Asm.startLabel, Asm.Routine.all, Asm.Routine.less,
    Asm.Routine.lessOrEqual, Asm.Routine.notEqual, List.any_cons, List.any_nil, Bool.or_false,
    Bool.or_eq_true, beq_iff_eq, reservedNames, List.mem_cons, List.not_mem_nil, or_false]
  rw [@eq_comm _ name (ascii "le"), @eq_comm _ name (ascii "leq"), @eq_comm _ name (ascii "ne")]

inductive Violation
  /-- A function is defined or called by a name that is taken. -/
  | reservedName (name : Bytes) (pos : Int)
  | noMain
  /-- Something else stands where a variable or a cell has to. -/
  | notLvalue (pos : Int)
  deriving DecidableEq, Repr

def Violation.error : Violation → SourceError
  | reservedName name pos => ⟨.reservedLabel name, pos⟩
  | noMain => ⟨.noMain, SourceError.noOffset⟩
  | notLvalue pos => ⟨.notLvalue, pos⟩

namespace Expr

def isVar : Expr → Bool
  | var .. => true
  | _ => false

/-- The expression stands for a cell that can be stored into. -/
def isPlace : Expr → Bool
  | var .. | deref .. => true
  | _ => false

def lacksAddress (x : Expr) : Violation := .notLvalue (x.pos?.getD SourceError.noOffset)

mutual

/-- What is wrong in an expression. -/
def violations : Expr → List Violation
  | absent | num .. | var .. => []
  | neg _ x | deref _ x => x.violations
  | addr _ x => if x.isVar then [] else [x.lacksAddress]
  | binary _ _ l r => l.violations ++ r.violations
  | assign _ l r => r.violations ++ l.targetViolations
  | call pos name args =>
    (if reservedNames.contains name then [.reservedName name pos] else []) ++ allViolations args

def allViolations : List Expr → List Violation
  | [] => []
  | x :: xs => x.violations ++ allViolations xs

/-- What is wrong with an expression as the target of an assignment. -/
def targetViolations : Expr → List Violation
  | var .. => []
  | deref _ x => x.violations
  | x => [x.lacksAddress]

end

mutual

/-- An expression and all expressions inside it. -/
def nodes : Expr → List Expr
  | absent => []
  | num pos n => [num pos n]
  | var pos i => [var pos i]
  | neg pos x => neg pos x :: x.nodes
  | addr pos x => addr pos x :: x.nodes
  | deref pos x => deref pos x :: x.nodes
  | binary pos op l r => binary pos op l r :: (l.nodes ++ r.nodes)
  | assign pos l r => assign pos l r :: (l.nodes ++ r.nodes)
  | call pos name args => call pos name args :: allNodes args

def allNodes : List Expr → List Expr
  | [] => []
  | x :: xs => x.nodes ++ allNodes xs

end

/-- A node is as it has to be, whatever is inside it. -/
def Allowed : Expr → Prop
  | assign _ l _ => l.isPlace
  | addr _ x => x.isVar
  | call _ name _ => name ∉ reservedNames
  | _ => True

theorem violations_eq_nil {count : Nat} {req : Requirements} {x : Expr} (h : x.Proper count req) :
    (x.violations = [] ↔ ∀ y ∈ x.nodes, y.Allowed) ∧
      (x.targetViolations = [] ↔ x.isPlace ∧ ∀ y ∈ x.nodes, y.Allowed) := by
  induction h with
  | num => simp [violations, targetViolations, nodes, isPlace, Allowed]
  | var bound => simp [violations, targetViolations, nodes, isPlace, Allowed]
  | neg operand ih => simp [violations, targetViolations, nodes, isPlace, Allowed, ih.1]
  | @addr pos x operand ih =>
    have hv : x.isVar → ∀ y ∈ x.nodes, y.Allowed := by
      cases operand <;> simp [isVar, nodes, Allowed]
    simp [violations, targetViolations, nodes, isPlace, Allowed]
    exact hv
  | deref operand ih => simp [violations, targetViolations, nodes, isPlace, Allowed, ih.1]
  | binary supported left right ih₁ ih₂ =>
    simp [violations, targetViolations, nodes, isPlace, Allowed, ih₁.1, ih₂.1, or_imp, forall_and]
  | assign left right ih₁ ih₂ =>
    simp [violations, targetViolations, nodes, isPlace, Allowed, ih₁.2, ih₂.1, or_imp, forall_and]
    grind
  | @call pos name args isName arguments ih =>
    have ha : allViolations args = [] ↔ ∀ y ∈ allNodes args, y.Allowed := by
      clear arguments
      induction args with
      | nil => simp [allViolations, allNodes]
      | cons a args iha =>
        rw [List.forall_mem_cons] at ih
        simp [allViolations, allNodes, ih.1.1, iha ih.2, or_imp, forall_and]
    simp [violations, targetViolations, nodes, isPlace, Allowed, ha]

end Expr

namespace Stmt

mutual

/-- What is wrong in a statement. The step of a loop comes behind its body. -/
def violations : Stmt → List Violation
  | absent => []
  | block _ body => allViolations body
  | cond _ test yes no => test.violations ++ (yes.violations ++ no.violations)
  | loop _ first test step body =>
    first.violations ++ (test.violations ++ (body.violations ++ step.violations))
  | ret _ x | expr _ x => x.violations

def allViolations : List Stmt → List Violation
  | [] => []
  | x :: xs => x.violations ++ allViolations xs

end

mutual

def nodes : Stmt → List Expr
  | absent => []
  | block _ body => allNodes body
  | cond _ test yes no => test.nodes ++ (yes.nodes ++ no.nodes)
  | loop _ first test step body => first.nodes ++ (test.nodes ++ (step.nodes ++ body.nodes))
  | ret _ x | expr _ x => x.nodes

def allNodes : List Stmt → List Expr
  | [] => []
  | x :: xs => x.nodes ++ allNodes xs

end

theorem allViolations_eq_nil {xs : List Stmt}
    (h : ∀ x ∈ xs, x.violations = [] ↔ ∀ y ∈ x.nodes, y.Allowed) :
    allViolations xs = [] ↔ ∀ y ∈ allNodes xs, y.Allowed := by
  induction xs with
  | nil => simp [allViolations, allNodes]
  | cons x xs ih =>
    rw [List.forall_mem_cons] at h
    simp [allViolations, allNodes, h.1, ih h.2, or_imp, forall_and]

theorem violations_eq_nil {count : Nat} {req : Requirements} {x : Stmt} (h : x.Proper count req) :
    x.violations = [] ↔ ∀ y ∈ x.nodes, y.Allowed := by
  have optional {x : Expr} (hx : x.isAbsent = false → x.Proper count req) :
      x.violations = [] ↔ ∀ y ∈ x.nodes, y.Allowed := by
    cases ha : x.isAbsent with
    | false => exact (Expr.violations_eq_nil (hx ha)).1
    | true => cases x <;> simp_all [Expr.isAbsent, Expr.violations, Expr.nodes]
  have optionalStmt {x : Stmt}
      (hx : x.isAbsent = false → (x.violations = [] ↔ ∀ y ∈ x.nodes, y.Allowed)) :
      x.violations = [] ↔ ∀ y ∈ x.nodes, y.Allowed := by
    cases ha : x.isAbsent with
    | false => exact hx ha
    | true => cases x <;> simp_all [Stmt.isAbsent, violations, nodes]
  induction h with
  | block inner ih => exact allViolations_eq_nil ih
  | cond tested first second ih₁ ih₂ =>
    simp [violations, nodes, (Expr.violations_eq_nil tested).1, ih₁, optionalStmt ih₂, or_imp,
      forall_and]
  | loop started tested stepped inner ih₁ ih₂ =>
    simp [violations, nodes, optional tested, optional stepped, ih₂, optionalStmt ih₁, or_imp,
      forall_and]
    grind
  | ret value => exact (Expr.violations_eq_nil value).1
  | expr value => exact (Expr.violations_eq_nil value).1

end Stmt

namespace Function

def violations (f : Function) : List Violation :=
  f.body.elim [] fun b => Stmt.allViolations b.stmts

def nodes (f : Function) : List Expr := f.body.elim [] fun b => Stmt.allNodes b.stmts

theorem violations_eq_nil {req : Requirements} {f : Function} (h : f.Proper req) :
    f.violations = [] ↔ ∀ y ∈ f.nodes, y.Allowed := by
  obtain ⟨b, hb, hs⟩ := h.body
  simp only [violations, nodes, hb, Option.elim_some]
  exact Stmt.allViolations_eq_nil fun x hx => Stmt.violations_eq_nil (hs x hx)

end Function

namespace Program

/-- What is wrong with the functions of a program as a whole: names that are taken, and the lack of
a main function. -/
def nameViolations (p : Program) : List Violation :=
  (p.funcs.filter fun f => reservedNames.contains f.name).map
      (fun f => .reservedName f.name f.pos) ++
    if ∃ f ∈ p.funcs, f.name = ascii "main" then [] else [.noMain]

/-- What is wrong with a program. Only functions are called by name. -/
def violations (p : Program) : List Violation :=
  (if p.topLevel then [] else p.nameViolations) ++ p.funcs.flatMap Function.violations

def nodes (p : Program) : List Expr := p.funcs.flatMap Function.nodes

/-- What a program has to satisfy for code to be made for it. -/
structure Acceptable (p : Program) : Prop where
  targets : ∀ pos l r, .assign pos l r ∈ p.nodes → l.isPlace
  operands : ∀ pos x, .addr pos x ∈ p.nodes → x.isVar
  callees : ∀ pos name args, .call pos name args ∈ p.nodes → name ∉ reservedNames
  names : p.topLevel = false → ∀ f ∈ p.funcs, f.name ∉ reservedNames
  main : p.topLevel = false → ∃ f ∈ p.funcs, f.name = ascii "main"

private theorem allowed_iff {p : Program} : (∀ y ∈ p.nodes, y.Allowed) ↔
    (∀ pos l r, .assign pos l r ∈ p.nodes → l.isPlace) ∧
      (∀ pos x, .addr pos x ∈ p.nodes → x.isVar) ∧
      ∀ pos name args, .call pos name args ∈ p.nodes → name ∉ reservedNames := by
  constructor
  · intro h
    exact ⟨fun _ _ _ hm => h _ hm, fun _ _ hm => h _ hm, fun _ _ _ hm => h _ hm⟩
  · rintro ⟨ht, ho, hc⟩ y hy
    cases y with
    | assign pos l r => exact ht pos l r hy
    | addr pos x => exact ho pos x hy
    | call pos name args => exact hc pos name args hy
    | _ => trivial

private theorem nameViolations_eq_nil {p : Program} : p.nameViolations = [] ↔
    (∀ f ∈ p.funcs, f.name ∉ reservedNames) ∧ ∃ f ∈ p.funcs, f.name = ascii "main" := by
  simp [nameViolations]

theorem violations_eq_nil {p : Program} (h : p.Proper) : p.violations = [] ↔ p.Acceptable := by
  have hf : p.funcs.flatMap Function.violations = [] ↔ ∀ y ∈ p.nodes, y.Allowed := by
    rw [List.flatMap_eq_nil_iff]
    simp only [nodes, List.mem_flatMap]
    constructor
    · rintro hv y ⟨f, hf, hy⟩
      exact (Function.violations_eq_nil (h.functions f hf)).mp (hv f hf) y hy
    · intro hv f hf
      exact (Function.violations_eq_nil (h.functions f hf)).mpr fun y hy => hv y ⟨f, hf, hy⟩
  rw [violations, List.append_eq_nil_iff, hf, allowed_iff]
  cases ht : p.topLevel with
  | true =>
    constructor
    · rintro ⟨-, h₁, h₂, h₃⟩
      exact ⟨h₁, h₂, h₃, by simp [ht], by simp [ht]⟩
    · rintro ⟨h₁, h₂, h₃, -, -⟩
      exact ⟨rfl, h₁, h₂, h₃⟩
  | false =>
    simp only [Bool.false_eq_true, if_false, nameViolations_eq_nil]
    constructor
    · rintro ⟨⟨hn, hm⟩, h₁, h₂, h₃⟩
      exact ⟨h₁, h₂, h₃, fun _ => hn, fun _ => hm⟩
    · rintro ⟨h₁, h₂, h₃, hn, hm⟩
      exact ⟨⟨hn ht, hm ht⟩, h₁, h₂, h₃⟩

end Program

end StackC
