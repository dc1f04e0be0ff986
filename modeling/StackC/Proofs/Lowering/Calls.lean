import StackC.Proofs.Lowering.Emits
import StackC.Proofs.Tree.Violations

/-! Every call in a tree is a call in its code. -/
namespace StackC.Lowering

open Asm (Instr)

/-- A name that a function may have. -/
def Callable (name : Bytes) : Prop := Token.IsName name ∧ name ∉ reservedNames

/-- The calls among some expressions are calls in the code. -/
def Calls (xs : List Expr) (code : List Instr) : Prop :=
  ∀ pos name args, .call pos name args ∈ xs → Callable name ∧ Instr.call name ∈ code

namespace Calls

variable {x : Expr} {xs ys : List Expr} {a b code : List Instr}

theorem nil : Calls [] code := by simp [Calls]

theorem mono (h : Calls xs a) (hs : a ⊆ code) : Calls xs code :=
  fun pos name args hm => (h pos name args hm).imp_right fun hc => hs hc

theorem append (ha : Calls xs code) (hb : Calls ys code) : Calls (xs ++ ys) code := by
  intro pos name args hm
  rcases List.mem_append.mp hm with hm | hm
  · exact ha pos name args hm
  · exact hb pos name args hm

/-- A node that is no call. -/
theorem cons (hx : ∀ pos name args, x ≠ .call pos name args) (h : Calls xs code) :
    Calls (x :: xs) code := by
  intro pos name args hm
  rcases List.mem_cons.mp hm with hm | hm
  · exact absurd hm.symm (hx pos name args)
  · exact h pos name args hm

end Calls

variable {c : Context} {code : List Instr} {x : Expr}

private theorem calls_of_values {args : List Expr}
    (h : ∀ x ∈ args, ∀ code, value c x = .ok code → Calls x.nodes code)
    (hv : values c args = .ok code) : Calls (Expr.allNodes args) code := by
  induction args generalizing code with
  | nil => exact .nil
  | cons x args ih =>
    rw [List.forall_mem_cons] at h
    obtain ⟨a, b, ha, hb, rfl⟩ := values_cons_eq_ok.mp hv
    exact .append ((h.1 a ha).mono (by simp)) ((ih h.2 hb).mono (by simp))

/-- A place calls what its address does. -/
theorem calls_of_place
    (h : ∀ q y, x = .deref q y → ∀ a, value c y = .ok a → Calls y.nodes a)
    (hp : place c x = .ok code) : Calls x.nodes code := by
  rcases place_cases hp with ⟨p, i, name, rfl, -, rfl⟩ | ⟨q, p, i, name, rfl, -, rfl⟩ |
    ⟨q, y, a, rfl, -, ha, rfl⟩
  · exact .cons (by simp) .nil
  · exact .cons (by simp) (.cons (by simp) .nil)
  · exact .cons (by simp) ((h q y rfl a ha).mono (by simp))

theorem calls_of_expr (hx : x.Proper c.locals.length c.req) :
    (∀ code, value c x = .ok code → Calls x.nodes code) ∧
      ∀ code, place c x = .ok code → Calls x.nodes code := by
  induction hx with
  | num => exact ⟨fun code _ => .cons (by simp) .nil, fun code => calls_of_place (by simp)⟩
  | var bound => exact ⟨fun code _ => .cons (by simp) .nil, fun code => calls_of_place (by simp)⟩
  | neg operand ih =>
    refine ⟨fun code h => ?_, fun code => calls_of_place (by simp)⟩
    obtain ⟨a, ha, rfl⟩ := value_neg_eq_ok.mp h
    exact .cons (by simp) ((ih.1 a ha).mono (by simp))
  | addr operand ih =>
    refine ⟨fun code h => ?_, fun code => calls_of_place (by simp)⟩
    obtain ⟨p, i, name, rfl, -, rfl⟩ := value_addr_eq_ok.mp h
    exact .cons (by simp) (.cons (by simp) .nil)
  | deref operand ih =>
    refine ⟨fun code h => ?_, fun code => calls_of_place ?_⟩
    · obtain ⟨a, ha, rfl⟩ := value_deref_eq_ok.mp h
      exact .cons (by simp) ((ih.1 a ha).mono (by simp))
    · intro q y he
      cases he
      exact ih.1
  | binary supported left right ih₁ ih₂ =>
    refine ⟨fun code h => ?_, fun code => calls_of_place (by simp)⟩
    obtain ⟨a, b, i, ha, hb, -, rfl⟩ := value_binary_eq_ok.mp h
    exact .cons (by simp) (.append ((ih₁.1 a ha).mono (by simp)) ((ih₂.1 b hb).mono (by simp)))
  | assign left right ih₁ ih₂ =>
    refine ⟨fun code h => ?_, fun code => calls_of_place (by simp)⟩
    obtain ⟨a, b, d, ha, hb, -, rfl⟩ := value_assign_eq_ok.mp h
    exact .cons (by simp) (.append ((ih₁.2 b hb).mono (by simp)) ((ih₂.1 a ha).mono (by simp)))
  | call isName arguments ih =>
    refine ⟨fun code h => ?_, fun code => calls_of_place (by simp)⟩
    obtain ⟨hn, a, ha, rfl⟩ := value_call_eq_ok.mp h
    have hargs := calls_of_values (fun x hx => (ih x hx).1) ha
    intro pos name args hm
    rcases List.mem_cons.mp hm with hm | hm
    · cases hm
      refine ⟨⟨isName, fun hr => ?_⟩, by simp⟩
      rw [isReserved_iff.mpr hr] at hn
      cases hn
    · exact (hargs pos name args hm).imp_right fun hc => List.mem_append_left _ hc

theorem calls_of_effect (hx : x.Proper c.locals.length c.req) (h : effect c x = .ok code) :
    Calls x.nodes code := by
  rcases effect_cases h with ⟨p, l, r, a, b, rfl, ha, hb, rfl⟩ | ⟨-, a, ha, rfl⟩
  · cases hx with
    | assign left right =>
      exact .cons (by simp) (.append (((calls_of_expr left).2 b hb).mono (by simp))
        (((calls_of_expr right).1 a ha).mono (by simp)))
  · exact ((calls_of_expr hx).1 a ha).mono (by simp)

private theorem calls_of_loopTest {done : Bytes}
    (hx : x.isAbsent = false → x.Proper c.locals.length c.req)
    (h : loopTest c done x = .ok code) : Calls x.nodes code := by
  rcases loopTest_cases h with ⟨ha, rfl⟩ | ⟨ha, a, hv, rfl⟩
  · cases Expr.eq_absent ha
    exact .nil
  · exact ((calls_of_expr (hx ha)).1 a hv).mono (by simp)

private theorem calls_of_loopStep (hx : x.isAbsent = false → x.Proper c.locals.length c.req)
    (h : loopStep c x = .ok code) : Calls x.nodes code := by
  rcases loopStep_cases h with ⟨ha, rfl⟩ | ⟨ha, h⟩
  · cases Expr.eq_absent ha
    exact .nil
  · exact calls_of_effect (hx ha) h

def Piece.nodes : Piece → List Expr
  | one x => x.nodes
  | many xs => Stmt.allNodes xs

theorem nodes_ofOptional (x : Stmt) : (Piece.ofOptional x).nodes = x.nodes :=
  Piece.apply_ofOptional Piece.nodes rfl x

theorem calls_of_emits {piece : Piece} {n m : Nat} (h : Emits c piece n code m) :
    Calls piece.nodes code := by
  induction h with
  | nil => exact .nil
  | cons first rest ih₁ ih₂ => exact .append (ih₁.mono (by simp)) (ih₂.mono (by simp))
  | block inner ih => exact ih
  | cond proper tested first second ih₁ ih₂ =>
    rw [nodes_ofOptional] at ih₂
    have ht := (calls_of_expr proper).1 _ tested
    exact .append (ht.mono test_infix_condCode.subset)
      (.append (ih₁.mono yes_infix_condCode.subset) (ih₂.mono no_infix_condCode.subset))
  | loop properTest properStep started tested inner stepped ih₁ ih₂ =>
    rw [nodes_ofOptional] at ih₁
    have ht := calls_of_loopTest properTest tested
    have hs := calls_of_loopStep properStep stepped
    exact .append (ih₁.mono first_infix_loopCode.subset)
      (.append (ht.mono test_infix_loopCode.subset)
        (.append (hs.mono step_infix_loopCode.subset) (ih₂.mono body_infix_loopCode.subset)))
  | ret proper valued => exact ((calls_of_expr proper).1 _ valued).mono (by simp)
  | expr proper run => exact calls_of_effect proper run

end StackC.Lowering
