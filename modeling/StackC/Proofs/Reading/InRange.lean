import StackC.Proofs.Tree.Inference

/-! Every variable that is read has the number of a local, whatever the tokens are. -/
namespace StackC.Grammar

/-- The variables among these nodes have numbers below `count`. -/
def InRange (count : Nat) (ns : List Expr) : Prop :=
  ∀ p i : Int, .var p i ∈ ns → ∃ k : Nat, i = k ∧ k < count

namespace InRange

variable {n m : Nat} {xs ys : List Expr}

theorem mono (h : InRange n xs) (hm : n ≤ m) : InRange m xs := by
  intro p i hi
  obtain ⟨k, hk, hlt⟩ := h p i hi
  exact ⟨k, hk, Nat.lt_of_lt_of_le hlt hm⟩

theorem nil : InRange n [] := fun _ _ h => absurd h List.not_mem_nil

theorem append (hx : InRange n xs) (hy : InRange n ys) : InRange n (xs ++ ys) := by
  intro p i hi
  rcases List.mem_append.mp hi with hi | hi
  · exact hx p i hi
  · exact hy p i hi

/-- A node that is no variable. -/
theorem node {e : Expr} (he : e.isVar = false) (h : InRange n xs) : InRange n (e :: xs) := by
  intro p i hi
  rcases List.mem_cons.mp hi with rfl | hi
  · cases he
  · exact h p i hi

theorem unary {t : Token} {node : Int → Expr → Expr} (hu : unary? t = some node) (pos : Int)
    {x : Expr} (h : InRange n x.nodes) : InRange n (node pos x).nodes := by
  unfold unary? at hu
  repeat' split at hu
  all_goals cases hu
  · exact .node rfl h
  · exact .node rfl h
  · exact .node rfl h

theorem operation {l r : Expr} (swap : Bool) (pos : Int) (op : BinaryOp) (hl : InRange n l.nodes)
    (hr : InRange n r.nodes) : InRange n (operation swap pos op l r).nodes := by
  cases swap with
  | false => exact .node rfl (hl.append hr)
  | true => exact .node rfl (hr.append hl)

/-- Such a variable has a local. -/
theorem exists_local {locals : List Local} {x : Expr} (h : InRange locals.length x.nodes)
    {p i : Int} (hi : .var p i ∈ x.nodes) : ∃ v, getLocal? locals i = some v := by
  obtain ⟨k, rfl, hk⟩ := h p i hi
  exact ⟨locals[k], List.getElem?_eq_getElem hk⟩

end InRange

/-- What a form is given has variables with numbers of locals. -/
def Form.Inside (s : State) : Form → Prop
  | .chain _ l => InRange s.locals.length l.nodes
  | _ => True

/-- What is read has variables with numbers of locals. -/
theorem inRange_of_reads {f : Form} {s s' : State} {xs : List Expr} (h : Reads f s xs s')
    (hf : f.Inside s) : InRange s'.locals.length (Expr.allNodes xs) := by
  induction h with
  | paren opens inner closes ih => exact ih trivial
  | call isName opens inner ih =>
    rw [Expr.allNodes_singleton]
    exact .node rfl (ih trivial)
  | @name s t i locals fresh isName noCall known =>
    rw [Expr.allNodes_singleton]
    intro p j hj
    cases List.mem_singleton.mp hj
    exact ⟨i, rfl, (resolve_eq_ok known).1⟩
  | number isNumber => exact .node rfl .nil
  | noArguments closes => exact .nil
  | arguments more inner closes ih => exact ih trivial
  | lastArgument only last ih => exact ih trivial
  | moreArguments first comma others ih₁ ih₂ =>
    have hx := ih₁ trivial
    rw [Expr.allNodes_singleton] at hx
    exact (hx.mono (grows_of_reads others).2.1).append (ih₂ trivial)
  | plus isPlus operand ih => exact ih trivial
  | unary noPlus isOp operand ih =>
    have hx := ih trivial
    rw [Expr.allNodes_singleton] at hx ⊢
    rw [length_inferDeref]
    exact hx.unary isOp _
  | operand noUnary inner ih => exact ih trivial
  | tightest inner ih => exact ih trivial
  | level left rest ih₁ ih₂ =>
    have hl := ih₁ trivial
    rw [Expr.allNodes_singleton] at hl
    exact ih₂ hl
  | endChain noOperator =>
    rw [Expr.allNodes_singleton]
    exact hf
  | @chain s s₁ s₂ t n op swap l r x isOp right rest ih₁ ih₂ =>
    have hl : InRange s₁.locals.length l.nodes := InRange.mono hf (grows_of_reads right).2.1
    have hr := ih₁ trivial
    rw [Expr.allNodes_singleton] at hr
    exact ih₂ (hl.operation swap t.pos op hr)
  | value inner noAssign ih => exact ih trivial
  | assign left eq right ih₁ ih₂ =>
    have hl := ih₁ trivial
    have hr := ih₂ trivial
    rw [Expr.allNodes_singleton] at hl hr ⊢
    rw [length_inferAssign]
    exact .node rfl ((hl.mono (grows_of_reads right).2.1).append hr)

end StackC.Grammar
