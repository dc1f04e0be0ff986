import StackC.Proofs.Reading.Places

/-! What is wrong with a program is reported at one of its nodes or at the name of a function,
unless it has no main function. -/
namespace StackC

open Grammar (Extent)

variable {e : Extent} {count : Nat} {req : Requirements}

namespace Grammar.Extent

/-- The violations are reported at such places. -/
def Blames (e : Extent) (vs : List Violation) : Prop := ∀ v ∈ vs, e.place v.error.offset

theorem blames_nil : e.Blames [] := fun _ hv => absurd hv List.not_mem_nil

theorem blames_append {vs ws : List Violation} :
    e.Blames (vs ++ ws) ↔ e.Blames vs ∧ e.Blames ws := List.forall_mem_append

end Grammar.Extent

namespace Expr

/-- A proper expression is the first of its nodes. -/
theorem Proper.mem_nodes {x : Expr} (h : x.Proper count req) :
    x ∈ x.nodes ∧ ∃ pos, x.pos? = some pos := by
  cases h <;> simp [nodes, pos?]

theorem blames_lacksAddress {x : Expr} (h : x.Proper count req) (hx : e.HoldsExpr x) :
    e.Blames [x.lacksAddress] := by
  obtain ⟨hmem, pos, hpos⟩ := h.mem_nodes
  rw [lacksAddress, hpos]
  exact List.forall_mem_singleton.mpr (hx x hmem pos hpos)

theorem blames_allViolations {xs : List Expr}
    (h : ∀ x ∈ xs, e.HoldsExpr x → e.Blames x.violations) (hx : e.HoldsExprs xs) :
    e.Blames (allViolations xs) := by
  induction xs with
  | nil => exact Extent.blames_nil
  | cons x xs ih =>
    rw [List.forall_mem_cons] at h
    obtain ⟨hx, hxs⟩ := Extent.holds_append.mp hx
    exact Extent.blames_append.mpr ⟨h.1 hx, ih h.2 hxs⟩

theorem blames_violations {x : Expr} (h : x.Proper count req) (hx : e.HoldsExpr x) :
    e.Blames x.violations ∧ e.Blames x.targetViolations := by
  induction h with
  | num => exact ⟨Extent.blames_nil, blames_lacksAddress (@Proper.num count req _ _) hx⟩
  | var bound => exact ⟨Extent.blames_nil, Extent.blames_nil⟩
  | neg operand ih =>
    exact ⟨(ih (Extent.holds_cons.mp hx).2).1, blames_lacksAddress (.neg operand) hx⟩
  | addr operand ih =>
    refine ⟨?_, blames_lacksAddress (.addr operand) hx⟩
    rw [violations]
    split
    · exact Extent.blames_nil
    · exact blames_lacksAddress operand (Extent.holds_cons.mp hx).2
  | deref operand ih =>
    have hv := (ih (Extent.holds_cons.mp hx).2).1
    exact ⟨hv, hv⟩
  | binary supported left right ih₁ ih₂ =>
    obtain ⟨hl, hr⟩ := Extent.holds_append.mp (Extent.holds_cons.mp hx).2
    refine ⟨Extent.blames_append.mpr ⟨(ih₁ hl).1, (ih₂ hr).1⟩, ?_⟩
    exact blames_lacksAddress (.binary supported left right) hx
  | assign left right ih₁ ih₂ =>
    obtain ⟨hl, hr⟩ := Extent.holds_append.mp (Extent.holds_cons.mp hx).2
    refine ⟨Extent.blames_append.mpr ⟨(ih₂ hr).1, (ih₁ hl).2⟩, ?_⟩
    exact blames_lacksAddress (.assign left right) hx
  | @call pos name args isName arguments ih =>
    refine ⟨?_, blames_lacksAddress (.call isName arguments) hx⟩
    obtain ⟨hself, hargs⟩ := Extent.holds_cons.mp hx
    rw [violations, Extent.blames_append]
    refine ⟨?_, blames_allViolations (fun x hx hn => (ih x hx hn).1) hargs⟩
    split
    · exact List.forall_mem_singleton.mpr (hself pos rfl)
    · exact Extent.blames_nil

end Expr

namespace Stmt

theorem blames_allViolations {xs : List Stmt}
    (h : ∀ x ∈ xs, e.HoldsStmt x → e.Blames x.violations) (hx : e.HoldsStmts xs) :
    e.Blames (allViolations xs) := by
  induction xs with
  | nil => exact Extent.blames_nil
  | cons x xs ih =>
    rw [List.forall_mem_cons] at h
    obtain ⟨hx, hxs⟩ := Extent.holds_append.mp hx
    exact Extent.blames_append.mpr ⟨h.1 hx, ih h.2 hxs⟩

theorem blames_violations {x : Stmt} (h : x.Proper count req) (hx : e.HoldsStmt x) :
    e.Blames x.violations := by
  have optional (y : Expr) (hy : y.isAbsent = false → y.Proper count req) :
      e.HoldsExpr y → e.Blames y.violations :=
    y.absent_or (fun _ => Extent.blames_nil) fun ha hn => (Expr.blames_violations (hy ha) hn).1
  have optionalStmt (y : Stmt) (hy : y.isAbsent = false → e.HoldsStmt y → e.Blames y.violations) :
      e.HoldsStmt y → e.Blames y.violations :=
    y.absent_or (fun _ => Extent.blames_nil) hy
  induction h with
  | block inner ih => exact blames_allViolations ih hx
  | @cond pos test yes no tested first second ih₁ ih₂ =>
    unfold Extent.HoldsStmt at hx
    simp only [nodes, Extent.holds_append] at hx
    simp only [violations, Extent.blames_append]
    obtain ⟨htest, hyes, hno⟩ := hx
    exact ⟨(Expr.blames_violations tested htest).1, ih₁ hyes, optionalStmt no ih₂ hno⟩
  | @loop pos start body test step started tested stepped inner ih₁ ih₂ =>
    unfold Extent.HoldsStmt at hx
    simp only [nodes, Extent.holds_append] at hx
    simp only [violations, Extent.blames_append]
    obtain ⟨hstart, htest, hstep, hbody⟩ := hx
    exact ⟨optionalStmt start ih₁ hstart, optional test tested htest, ih₂ hbody,
      optional step stepped hstep⟩
  | ret value => exact (Expr.blames_violations value hx).1
  | expr value => exact (Expr.blames_violations value hx).1

end Stmt

theorem Function.blames_violations {f : Function} (h : f.Proper req) (hf : e.HoldsFunction f) :
    e.Blames f.violations := by
  obtain ⟨b, hb, hs⟩ := h.body
  have hn : e.Holds f.nodes := hf.nodes
  rw [nodes, hb] at hn
  rw [violations, hb]
  exact Stmt.blames_allViolations (fun x hx => Stmt.blames_violations (hs x hx)) hn

/-- A violation other than the lack of a main function has a place. -/
theorem Program.blames_violations {p : Program} (h : p.Proper)
    (hp : ∀ f ∈ p.funcs, e.HoldsFunction f) :
    ∀ v ∈ p.violations, v = .noMain ∨ e.place v.error.offset := by
  intro v hv
  rw [violations, List.mem_append] at hv
  rcases hv with hv | hv
  · split at hv
    · cases hv
    rw [nameViolations, List.mem_append] at hv
    rcases hv with hv | hv
    · obtain ⟨f, hf, rfl⟩ := List.mem_map.mp hv
      exact .inr (hp f (List.mem_filter.mp hf).1).name
    · split at hv
      · cases hv
      · exact .inl (List.mem_singleton.mp hv)
  · obtain ⟨f, hf, hv⟩ := List.mem_flatMap.mp hv
    exact .inr (f.blames_violations (h.functions f hf) (hp f hf) v hv)

end StackC
