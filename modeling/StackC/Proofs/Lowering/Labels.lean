import StackC.Proofs.Asm.Labels
import StackC.Proofs.Lowering.Emits

/-! The labels in the code of statements: their numbers, that each is placed once, and that no jump
leaves the statement except to the exit of the function. -/
namespace StackC

theorem Token.IsName.dotless {name : Bytes} (h : Token.IsName name) : byte '.' ∉ name := by
  intro hm
  exact absurd (h.2 _ hm) (by decide)

namespace Asm

/-- The instruction places no label and stays in line. It may call what has no dot in its name. -/
def Instr.isPlain : Instr → Bool
  | label _ | jump _ | jumpZero _ | jumpNegative _ | ret | halt => false
  | call l => !l.contains (byte '.')
  | _ => true

section

variable {code : List Instr}

theorem labels_plain (h : code.all Instr.isPlain) : labels code = [] := by
  refine List.filterMap_eq_nil_iff.mpr fun i hi => ?_
  have hp := List.all_eq_true.mp h i hi
  cases i with
  | label l => cases hp
  | _ => rfl

theorem targets_plain (h : code.all Instr.isPlain) : targets code = [] := by
  refine List.filterMap_eq_nil_iff.mpr fun i hi => ?_
  have hp := List.all_eq_true.mp h i hi
  cases i with
  | jump l | jumpZero l | jumpNegative l => cases hp
  | _ => rfl

theorem isEnd_plain (h : code.all Instr.isPlain) : code.any Instr.isEnd = false := by
  refine List.any_eq_false.mpr fun i hi => ?_
  have hp := List.all_eq_true.mp h i hi
  cases i <;> simp_all [Instr.isEnd, Instr.isPlain]

end

end Asm

namespace Lowering

open Asm

def numbered (k : Nat) : List Bytes := [elseLabel k, beginLabel k, endLabel k]

theorem numbered_inj {l : Bytes} {j k : Nat} (hj : l ∈ numbered j) (hk : l ∈ numbered k) :
    j = k := by
  simp only [numbered, List.mem_cons, List.not_mem_nil, or_false] at hj hk
  have stem {a b : Bytes} (h : a = b) : a.take 4 = b.take 4 := congrArg _ h
  rcases hj with rfl | rfl | rfl <;> rcases hk with hk | hk | hk
  · exact Text.decimalNat_inj (List.append_cancel_left hk)
  · exact absurd (stem hk) (show ascii "l.el" ≠ ascii "l.be" by decide)
  · exact absurd (stem hk) (show ascii "l.el" ≠ ascii "l.en" by decide)
  · exact absurd (stem hk) (show ascii "l.be" ≠ ascii "l.el" by decide)
  · exact Text.decimalNat_inj (List.append_cancel_left hk)
  · exact absurd (stem hk) (show ascii "l.be" ≠ ascii "l.en" by decide)
  · exact absurd (stem hk) (show ascii "l.en" ≠ ascii "l.el" by decide)
  · exact absurd (stem hk) (show ascii "l.en" ≠ ascii "l.be" by decide)
  · exact Text.decimalNat_inj (List.append_cancel_left hk)

theorem dot_mem_numbered {l : Bytes} {k : Nat} (h : l ∈ numbered k) : byte '.' ∈ l := by
  simp only [numbered, List.mem_cons, List.not_mem_nil, or_false] at h
  rcases h with rfl | rfl | rfl
  · exact List.mem_append_left _ (by decide)
  · exact List.mem_append_left _ (by decide)
  · exact List.mem_append_left _ (by decide)

section Plain

variable {c : Context} {code : List Instr} {x : Expr}

private theorem plain_of_operation {pos : Int} {op : BinaryOp} {i : Instr}
    (h : operation c pos op = .ok i) : i.isPlain := by
  unfold operation at h
  split at h
  · next j hj =>
    cases h
    cases op <;> cases hj <;> rfl
  · cases h
  · next r hn hr =>
    split at h
    · cases h
      have hd : ∀ r ∈ Routine.all, Instr.isPlain (.call r.name) := by decide
      exact hd r (List.mem_of_find?_eq_some hr)
    · cases h

private theorem plain_of_values {args : List Expr}
    (h : ∀ x ∈ args, ∀ code, value c x = .ok code → code.all Instr.isPlain)
    (hv : values c args = .ok code) : code.all Instr.isPlain := by
  induction args generalizing code with
  | nil =>
    cases hv
    rfl
  | cons x args ih =>
    rw [List.forall_mem_cons] at h
    obtain ⟨a, b, ha, hb, rfl⟩ := values_cons_eq_ok.mp hv
    simp only [List.all_append, h.1 a ha, ih h.2 hb, Bool.and_self]

private theorem plain_of_reload (h : reload c x = .ok code) : code.all Instr.isPlain := by
  unfold reload at h
  split at h
  · obtain ⟨name, -, h⟩ := Outcome.bind_eq_ok.mp h
    cases h
    rfl
  · obtain ⟨name, -, h⟩ := Outcome.bind_eq_ok.mp h
    cases h
    rfl
  · cases h
    rfl
  · cases h
    rfl

theorem plain_of_place (h : ∀ q y, x = .deref q y → ∀ a, value c y = .ok a → a.all Instr.isPlain)
    (hp : place c x = .ok code) : code.all Instr.isPlain := by
  rcases place_cases hp with ⟨p, i, name, rfl, -, rfl⟩ | ⟨q, p, i, name, rfl, -, rfl⟩ |
    ⟨q, y, a, rfl, -, ha, rfl⟩
  · rfl
  · rfl
  · simp only [List.all_append, h q y rfl a ha, Bool.true_and]
    rfl

/-- The code of an expression stays in line, and so does that of a store. -/
theorem plain_of_expr (hx : x.Proper c.locals.length c.req) :
    (∀ code, value c x = .ok code → code.all Instr.isPlain) ∧
      ∀ code, place c x = .ok code → code.all Instr.isPlain := by
  induction hx with
  | num =>
    refine ⟨fun code h => ?_, fun code => plain_of_place (by simp)⟩
    cases h
    rfl
  | var bound =>
    refine ⟨fun code h => ?_, fun code => plain_of_place (by simp)⟩
    obtain ⟨name, -, rfl⟩ := value_var_eq_ok.mp h
    rfl
  | neg operand ih =>
    refine ⟨fun code h => ?_, fun code => plain_of_place (by simp)⟩
    obtain ⟨a, ha, rfl⟩ := value_neg_eq_ok.mp h
    simp [ih.1 a ha, Instr.isPlain]
  | addr operand ih =>
    refine ⟨fun code h => ?_, fun code => plain_of_place (by simp)⟩
    obtain ⟨p, i, name, -, -, rfl⟩ := value_addr_eq_ok.mp h
    rfl
  | deref operand ih =>
    refine ⟨fun code h => ?_, fun code => plain_of_place ?_⟩
    · obtain ⟨a, ha, rfl⟩ := value_deref_eq_ok.mp h
      simp [ih.1 a ha, Instr.isPlain]
    · rintro q y he a ha
      cases he
      exact ih.1 a ha
  | binary supported left right ih₁ ih₂ =>
    refine ⟨fun code h => ?_, fun code => plain_of_place (by simp)⟩
    obtain ⟨a, b, i, ha, hb, hi, rfl⟩ := value_binary_eq_ok.mp h
    simp [ih₁.1 a ha, ih₂.1 b hb, plain_of_operation hi]
  | assign left right ih₁ ih₂ =>
    refine ⟨fun code h => ?_, fun code => plain_of_place (by simp)⟩
    obtain ⟨a, b, d, ha, hb, hd, rfl⟩ := value_assign_eq_ok.mp h
    simp [ih₂.1 a ha, ih₁.2 b hb, plain_of_reload hd]
  | call isName arguments ih =>
    refine ⟨fun code h => ?_, fun code => plain_of_place (by simp)⟩
    obtain ⟨-, a, ha, rfl⟩ := value_call_eq_ok.mp h
    simp [plain_of_values (fun x hx => (ih x hx).1) ha, Instr.isPlain, isName.dotless]

theorem plain_of_value (hx : x.Proper c.locals.length c.req) (h : value c x = .ok code) :
    code.all Instr.isPlain :=
  (plain_of_expr hx).1 code h

theorem plain_of_effect (hx : x.Proper c.locals.length c.req) (h : effect c x = .ok code) :
    code.all Instr.isPlain := by
  rcases effect_cases h with ⟨p, l, r, a, b, rfl, ha, hb, rfl⟩ | ⟨-, a, ha, rfl⟩
  · cases hx with
    | assign left right => simp [plain_of_value right ha, (plain_of_expr left).2 b hb]
  · simp [plain_of_value hx ha, Instr.isPlain]

theorem plain_of_loopStep {step : Expr}
    (hs : step.isAbsent = false → step.Proper c.locals.length c.req)
    (h : loopStep c step = .ok code) : code.all Instr.isPlain := by
  rcases loopStep_cases h with ⟨-, rfl⟩ | ⟨ha, h⟩
  · rfl
  · exact plain_of_effect (hs ha) h

/-- A test places no label, and it leaves the loop if at all. -/
theorem loopTest_labels {done : Bytes} {test : Expr}
    (ht : test.isAbsent = false → test.Proper c.locals.length c.req)
    (h : loopTest c done test = .ok code) :
    labels code = [] ∧ (∀ l ∈ targets code, l = done) ∧ code.any Instr.isEnd = false := by
  rcases loopTest_cases h with ⟨-, rfl⟩ | ⟨ha, a, hv, rfl⟩
  · simp
  · have hp := plain_of_value (ht ha) hv
    have he := isEnd_plain hp
    refine ⟨?_, ?_, ?_⟩
    · rw [labels_append, labels_plain hp]
      rfl
    · simp [targets_plain hp]
    · simp [he, Instr.isEnd]

end Plain

/-- Labels that are placed once each and carry numbers from a range. -/
structure Fresh (n m : Nat) (ls : List Bytes) : Prop where
  nodup : ls.Nodup
  range : ∀ l ∈ ls, ∃ k, n < k ∧ k ≤ m ∧ l ∈ numbered k

namespace Fresh

variable {n n₁ m : Nat} {a b : List Bytes}

theorem nil : Fresh n m [] := ⟨List.nodup_nil, by simp⟩

theorem append (ha : Fresh n n₁ a) (hb : Fresh n₁ m b) (h : n ≤ n₁) (h₁ : n₁ ≤ m) :
    Fresh n m (a ++ b) := by
  constructor
  · refine List.Nodup.append ha.nodup hb.nodup fun l hla hlb => ?_
    obtain ⟨j, -, hj, hlj⟩ := ha.range l hla
    obtain ⟨k, hk, -, hlk⟩ := hb.range l hlb
    have := numbered_inj hlj hlk
    omega
  · rw [List.forall_mem_append]
    constructor
    · intro l hl
      obtain ⟨k, hk, hk', hn⟩ := ha.range l hl
      exact ⟨k, hk, by omega, hn⟩
    · intro l hl
      obtain ⟨k, hk, hk', hn⟩ := hb.range l hl
      exact ⟨k, by omega, hk', hn⟩

/-- The labels of a control around those of its two parts. -/
theorem frame {x y : Bytes} (hxy : x ≠ y) (hx : x ∈ numbered (n + 1)) (hy : y ∈ numbered (n + 1))
    (ha : Fresh (n + 1) n₁ a) (hb : Fresh n₁ m b) (h : n + 1 ≤ n₁) (h₁ : n₁ ≤ m) :
    Fresh n m (a ++ x :: (b ++ [y])) := by
  have hp : (a ++ x :: (b ++ [y])).Perm ([x, y] ++ (a ++ b)) := by
    refine List.perm_middle.trans (.cons x ?_)
    rw [← List.append_assoc]
    exact List.perm_append_singleton y (a ++ b)
  have ho : Fresh n (n + 1) [x, y] := by
    refine ⟨by simp [hxy], ?_⟩
    simp only [List.forall_mem_cons]
    exact ⟨⟨n + 1, by omega, by omega, hx⟩, ⟨n + 1, by omega, by omega, hy⟩, by simp⟩
  have hf := ho.append (ha.append hb h h₁) (by omega) (by omega)
  exact ⟨hp.nodup_iff.mpr hf.nodup, fun l hl => hf.range l (hp.subset hl)⟩

end Fresh

theorem labels_condCode {k : Nat} {t a b : List Instr} (ht : t.all Instr.isPlain) :
    labels (condCode k t a b) = labels a ++ elseLabel k :: (labels b ++ [endLabel k]) := by
  simp [condCode, labels_plain ht]

theorem labels_loopCode {k : Nat} {i t b s : List Instr} (ht : labels t = [])
    (hs : s.all Instr.isPlain) :
    labels (loopCode k i t b s) = labels i ++ beginLabel k :: (labels b ++ [endLabel k]) := by
  simp [loopCode, labels_plain hs, ht]

private theorem elseLabel_ne_endLabel (k : Nat) : elseLabel k ≠ endLabel k := by
  intro h
  exact absurd (congrArg (List.take 4) h) (show ascii "l.el" ≠ ascii "l.en" by decide)

private theorem beginLabel_ne_endLabel (k : Nat) : beginLabel k ≠ endLabel k := by
  intro h
  exact absurd (congrArg (List.take 4) h) (show ascii "l.be" ≠ ascii "l.en" by decide)

/-- The labels of statements are fresh. -/
theorem fresh_of_emits {c : Context} {piece : Piece} {n m : Nat} {code : List Instr}
    (h : Emits c piece n code m) : n ≤ m ∧ Fresh n m (labels code) := by
  induction h with
  | nil => exact ⟨Nat.le_refl _, .nil⟩
  | cons first rest ih₁ ih₂ =>
    rw [labels_append]
    exact ⟨Nat.le_trans ih₁.1 ih₂.1, ih₁.2.append ih₂.2 ih₁.1 ih₂.1⟩
  | block inner ih => exact ih
  | @cond n n₁ m pos test yes no t a b proper tested first second ih₁ ih₂ =>
    rw [labels_condCode (plain_of_value proper tested)]
    refine ⟨by omega, Fresh.frame (elseLabel_ne_endLabel _) ?_ ?_ ih₁.2 ih₂.2 ih₁.1 ih₂.1⟩
    · simp [numbered]
    · simp [numbered]
  | @loop n n₁ m pos first body test step i t b s properTest properStep started tested inner
      stepped ih₁ ih₂ =>
    have ht := (loopTest_labels properTest tested).1
    rw [labels_loopCode ht (plain_of_loopStep properStep stepped)]
    refine ⟨by omega, Fresh.frame (beginLabel_ne_endLabel _) ?_ ?_ ih₁.2 ih₂.2 ih₁.1 ih₂.1⟩
    · simp [numbered]
    · simp [numbered]
  | ret proper valued =>
    rw [labels_append, labels_plain (plain_of_value proper valued)]
    exact ⟨Nat.le_refl _, .nil⟩
  | expr proper run =>
    rw [labels_plain (plain_of_effect proper run)]
    exact ⟨Nat.le_refl _, .nil⟩

/-- A jump out of statements goes to the exit of the function. -/
theorem targets_of_emits {c : Context} {piece : Piece} {n m : Nat} {code : List Instr}
    (h : Emits c piece n code m) : ∀ l ∈ targets code, l = c.exit ∨ l ∈ labels code := by
  induction h with
  | nil => simp
  | cons first rest ih₁ ih₂ =>
    rw [labels_append, targets_append]
    grind
  | block inner ih => exact ih
  | @cond n n₁ m pos test yes no t a b proper tested first second ih₁ ih₂ =>
    have hp := plain_of_value proper tested
    rw [labels_condCode hp]
    simp only [condCode, targets_append, targets_plain hp]
    grind [targets_jump, targets_jumpZero, targets_label, targets_nil]
  | @loop n n₁ m pos first body test step i t b s properTest properStep started tested inner
      stepped ih₁ ih₂ =>
    have hp := plain_of_loopStep properStep stepped
    obtain ⟨hl, ht, -⟩ := loopTest_labels properTest tested
    rw [labels_loopCode hl hp]
    simp only [loopCode, targets_append, targets_plain hp]
    grind [targets_jump, targets_jumpZero, targets_label, targets_nil]
  | ret proper valued => simp [targets_plain (plain_of_value proper valued)]
  | expr proper run => simp [targets_plain (plain_of_effect proper run)]

theorem isEnd_of_emits {c : Context} {piece : Piece} {n m : Nat} {code : List Instr}
    (h : Emits c piece n code m) : code.any Instr.isEnd = false := by
  induction h with
  | nil => rfl
  | cons first rest ih₁ ih₂ => simp only [List.any_append, ih₁, ih₂, Bool.or_self]
  | block inner ih => exact ih
  | cond proper tested first second ih₁ ih₂ =>
    have hp := isEnd_plain (plain_of_value proper tested)
    simp only [condCode, List.any_append, hp, ih₁, ih₂]
    rfl
  | loop properTest properStep started tested inner stepped ih₁ ih₂ =>
    have hp := isEnd_plain (plain_of_loopStep properStep stepped)
    obtain ⟨-, -, ht⟩ := loopTest_labels properTest tested
    simp only [loopCode, List.any_append, hp, ht, ih₁, ih₂]
    rfl
  | ret proper valued =>
    simp only [List.any_append, isEnd_plain (plain_of_value proper valued)]
    rfl
  | expr proper run => exact isEnd_plain (plain_of_effect proper run)

end Lowering

end StackC
