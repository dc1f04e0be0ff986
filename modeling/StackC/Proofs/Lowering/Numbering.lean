import StackC.Proofs.Lowering.Labels

/-! Conditionals and loops have the numbers 1, 2, … in the order in which they begin, and the labels
with a number belong to one of them. -/
namespace StackC

namespace Stmt

mutual

/-- The conditionals and loops of a statement, each before those inside it. -/
def controls : Stmt → List Stmt
  | absent | ret .. | expr .. => []
  | block _ body => allControls body
  | cond pos test yes no => cond pos test yes no :: (yes.controls ++ no.controls)
  | loop pos first test step body =>
    loop pos first test step body :: (first.controls ++ body.controls)

def allControls : List Stmt → List Stmt
  | [] => []
  | x :: xs => x.controls ++ allControls xs

end

end Stmt

def Function.controls (f : Function) : List Stmt :=
  f.body.elim [] fun b => Stmt.allControls b.stmts

def Program.controls (p : Program) : List Stmt := p.funcs.flatMap Function.controls

namespace Lowering

open Asm

/-- The instructions of a control that name its own labels. -/
def frame (k : Nat) : Stmt → List Instr
  | .cond .. => [.jumpZero (elseLabel k), .jump (endLabel k), .label (elseLabel k),
      .label (endLabel k)]
  | .loop _ _ test _ _ => .label (beginLabel k) ::
      (if test.isAbsent then [] else [.jumpZero (endLabel k)]) ++
      [Instr.jump (beginLabel k), .label (endLabel k)]
  | _ => []

/-- The instruction names a label with this number. -/
def mentions (k : Nat) (i : Instr) : Bool := i.names?.any (numbered k).contains

def Piece.controls : Piece → List Stmt
  | one x => x.controls
  | many xs => Stmt.allControls xs

/-- The instructions for a number, if these controls have the numbers behind `base`. -/
def numberedCode (base : Nat) (xs : List Stmt) (k : Nat) : List Instr :=
  if k ≤ base then [] else (xs[k - base - 1]?).elim [] (frame k)

theorem controls_ofOptional (x : Stmt) : (Piece.ofOptional x).controls = x.controls :=
  Piece.apply_ofOptional Piece.controls rfl x

section NumberedCode

variable {base k : Nat} {xs ys : List Stmt}

@[simp] theorem numberedCode_nil : numberedCode base [] k = [] := by
  simp [numberedCode]

theorem numberedCode_of_le (h : k ≤ base) : numberedCode base xs k = [] := if_pos h

theorem numberedCode_append : numberedCode base (xs ++ ys) k =
    numberedCode base xs k ++ numberedCode (base + xs.length) ys k := by
  unfold numberedCode
  by_cases hk : k ≤ base
  · simp [hk, show k ≤ base + xs.length by omega]
  · by_cases hl : k ≤ base + xs.length
    · simp [hk, hl, List.getElem?_append_left (show k - base - 1 < xs.length by omega)]
    · have hi : k - base - 1 - xs.length = k - (base + xs.length) - 1 := by omega
      simp [hk, hl, List.getElem?_append_right (show xs.length ≤ k - base - 1 by omega), hi,
        List.getElem?_eq_none (show xs.length ≤ k - base - 1 by omega)]

theorem numberedCode_cons {x : Stmt} : numberedCode base (x :: xs) k =
    (if k = base + 1 then frame k x else []) ++ numberedCode (base + 1) xs k := by
  have h : numberedCode base [x] k = if k = base + 1 then frame k x else [] := by
    unfold numberedCode
    by_cases hk : k = base + 1
    · subst hk
      simp [show ¬base + 1 ≤ base by omega]
    · by_cases hl : k ≤ base
      · simp [hl, hk]
      · simp [hl, hk, List.getElem?_eq_none (show [x].length ≤ k - base - 1 by simp; omega)]
  rw [← List.singleton_append, numberedCode_append, h]
  rfl

end NumberedCode

section Mentions

variable {j k : Nat} {l : Bytes} {code : List Instr}

theorem mem_numbered_iff (h : l ∈ numbered j) : l ∈ numbered k ↔ j = k := by
  constructor
  · exact numbered_inj h
  · rintro rfl
    exact h

theorem filter_plain (h : code.all Instr.isPlain) : code.filter (mentions k) = [] := by
  refine List.filter_eq_nil_iff.mpr fun i hi => ?_
  have hp := List.all_eq_true.mp h i hi
  cases i with
  | call l =>
    have hd : byte '.' ∉ l := by simpa [Instr.isPlain] using hp
    simp only [mentions, Instr.names?, Option.any_some, List.contains_iff_mem]
    exact fun hm => hd (dot_mem_numbered hm)
  | label | jump | jumpZero | jumpNegative | ret | halt => cases hp
  | _ => simp [mentions, Instr.names?]

@[simp] theorem elseLabel_mem_numbered : elseLabel j ∈ numbered k ↔ j = k :=
  mem_numbered_iff (by simp [numbered])

@[simp] theorem beginLabel_mem_numbered : beginLabel j ∈ numbered k ↔ j = k :=
  mem_numbered_iff (by simp [numbered])

@[simp] theorem endLabel_mem_numbered : endLabel j ∈ numbered k ↔ j = k :=
  mem_numbered_iff (by simp [numbered])

@[simp] theorem mentions_label : mentions k (.label l) = decide (l ∈ numbered k) :=
  List.contains_eq_mem l _

@[simp] theorem mentions_jump : mentions k (.jump l) = decide (l ∈ numbered k) :=
  List.contains_eq_mem l _

@[simp] theorem mentions_jumpZero : mentions k (.jumpZero l) = decide (l ∈ numbered k) :=
  List.contains_eq_mem l _

end Mentions

theorem count_of_emits {c : Context} {piece : Piece} {n m : Nat} {code : List Instr}
    (h : Emits c piece n code m) : m = n + piece.controls.length := by
  induction h with
  | nil => rfl
  | cons first rest ih₁ ih₂ =>
    simp only [Piece.controls, Stmt.allControls, List.length_append] at ih₁ ih₂ ⊢
    omega
  | block inner ih => exact ih
  | cond proper tested first second ih₁ ih₂ =>
    rw [controls_ofOptional] at ih₂
    simp only [Piece.controls, Stmt.controls, List.length_cons, List.length_append] at ih₁ ih₂ ⊢
    omega
  | loop properTest properStep started tested inner stepped ih₁ ih₂ =>
    rw [controls_ofOptional] at ih₁
    simp only [Piece.controls, Stmt.controls, List.length_cons, List.length_append] at ih₁ ih₂ ⊢
    omega
  | ret | expr => rfl

/-- The labels with a number are those of the control that has it. -/
theorem filter_of_emits {c : Context} (hc : ∀ k, c.exit ∉ numbered k) {piece : Piece} {n m : Nat}
    {code : List Instr} (h : Emits c piece n code m) (k : Nat) :
    code.filter (mentions k) = numberedCode n piece.controls k := by
  induction h with
  | nil => simp [Piece.controls, Stmt.allControls]
  | cons first rest ih₁ ih₂ =>
    rw [List.filter_append, ih₁, ih₂, count_of_emits first]
    simp only [Piece.controls, Stmt.allControls, numberedCode_append]
  | block inner ih => exact ih
  | @cond n n₁ m pos test yes no t a b proper tested first second ih₁ ih₂ =>
    have hn := count_of_emits first
    have hp : t.filter (mentions k) = [] := filter_plain (plain_of_value proper tested)
    rw [controls_ofOptional] at ih₂
    simp only [Piece.controls, Stmt.controls, numberedCode_cons, numberedCode_append] at ih₁ hn ⊢
    rw [← hn]
    simp only [condCode, List.filter_append, hp, ih₁, ih₂]
    by_cases hk : k = n + 1
    · subst hk
      simp [numberedCode_of_le, show n + 1 ≤ n₁ by omega, frame]
    · simp [hk, Ne.symm hk]
  | @loop n n₁ m pos first body test step i t b s properTest properStep started tested inner
      stepped ih₁ ih₂ =>
    have hn := count_of_emits started
    have hp : s.filter (mentions k) = [] := filter_plain (plain_of_loopStep properStep stepped)
    have ht : t.filter (mentions k) =
        if k = n + 1 ∧ test.isAbsent = false then [.jumpZero (endLabel (n + 1))] else [] := by
      rcases loopTest_cases tested with ⟨ha, rfl⟩ | ⟨ha, u, hu, rfl⟩
      · simp [ha]
      · rw [List.filter_append, filter_plain (plain_of_value (properTest ha) hu)]
        by_cases hk : k = n + 1
        · simp [hk, ha]
        · simp [hk, Ne.symm hk]
    rw [controls_ofOptional] at ih₁ hn
    simp only [Piece.controls, Stmt.controls, numberedCode_cons, numberedCode_append] at ih₂ ⊢
    rw [← hn]
    simp only [loopCode, List.filter_append, hp, ht, ih₁, ih₂]
    by_cases hk : k = n + 1
    · subst hk
      cases ha : test.isAbsent <;>
        simp [numberedCode_of_le, show n + 1 ≤ n₁ by omega, frame, ha]
    · simp [hk, Ne.symm hk]
  | ret proper valued =>
    rw [List.filter_append, filter_plain (plain_of_value proper valued)]
    simp [Piece.controls, Stmt.controls, hc k]
  | expr proper run =>
    rw [filter_plain (plain_of_effect proper run)]
    simp [Piece.controls, Stmt.controls]

theorem getElem?_append_cases {xs ys : List Stmt} {j : Nat} {x : Stmt}
    (h : (xs ++ ys)[j]? = some x) :
    xs[j]? = some x ∨ ∃ i, j = xs.length + i ∧ ys[i]? = some x := by
  by_cases hj : j < xs.length
  · exact .inl (List.getElem?_append_left hj ▸ h)
  · rw [List.getElem?_append_right (by omega)] at h
    exact .inr ⟨j - xs.length, by omega, h⟩

/-- Each control is emitted in its place, with its number. -/
theorem part_of_emits {c : Context} {piece : Piece} {n m : Nat} {code : List Instr}
    (h : Emits c piece n code m) {j : Nat} {x : Stmt} (hx : piece.controls[j]? = some x) :
    ∃ part m', Emits c (.one x) (n + j) part m' ∧ part <:+: code := by
  induction h generalizing j with
  | nil => cases hx
  | @cons n n₁ m y ys a b first rest ih₁ ih₂ =>
    have hn := count_of_emits first
    rcases getElem?_append_cases hx with hy | ⟨i, rfl, hy⟩
    · obtain ⟨part, m', he, hi⟩ := ih₁ hy
      exact ⟨part, m', he, hi.trans (List.prefix_append a b).isInfix⟩
    · obtain ⟨part, m', he, hi⟩ := ih₂ hy
      rw [hn, Nat.add_assoc] at he
      exact ⟨part, m', he, hi.trans (List.suffix_append a b).isInfix⟩
  | block inner ih => exact ih hx
  | @cond n n₁ m pos test yes no t a b proper tested first second ih₁ ih₂ =>
    have hn := count_of_emits first
    rw [controls_ofOptional] at ih₂
    cases j with
    | zero =>
      cases hx
      exact ⟨_, m, .cond proper tested first second, List.infix_rfl⟩
    | succ j =>
      rcases getElem?_append_cases (show (yes.controls ++ no.controls)[j]? = some x from hx) with
        hy | ⟨i, rfl, hy⟩
      · obtain ⟨part, m', he, hi⟩ := ih₁ hy
        exact ⟨part, m', by rwa [Nat.add_right_comm] at he, hi.trans yes_infix_condCode⟩
      · obtain ⟨part, m', he, hi⟩ := ih₂ hy
        have hm : n₁ + i = n + (yes.controls.length + i + 1) := by
          simp only [Piece.controls] at hn
          omega
        exact ⟨part, m', hm ▸ he, hi.trans no_infix_condCode⟩
  | @loop n n₁ m pos first body test step i t b s properTest properStep started tested inner
      stepped ih₁ ih₂ =>
    have hn := count_of_emits started
    rw [controls_ofOptional] at ih₁ hn
    cases j with
    | zero =>
      cases hx
      exact ⟨_, m, .loop properTest properStep started tested inner stepped, List.infix_rfl⟩
    | succ j =>
      have hx : (first.controls ++ body.controls)[j]? = some x := hx
      rcases getElem?_append_cases hx with hy | ⟨d, rfl, hy⟩
      · obtain ⟨part, m', he, hi⟩ := ih₁ hy
        exact ⟨part, m', by rwa [Nat.add_right_comm] at he, hi.trans first_infix_loopCode⟩
      · obtain ⟨part, m', he, hi⟩ := ih₂ hy
        have hm : n₁ + d = n + (first.controls.length + d + 1) := by omega
        exact ⟨part, m', hm ▸ he, hi.trans body_infix_loopCode⟩
  | ret | expr => cases hx

end Lowering

end StackC
