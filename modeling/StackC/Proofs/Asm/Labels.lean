import StackC.Proofs.Tree.Proper
import Mathlib.Data.List.Nodup

/-! The labels of a list of instructions, and how they are spelled. -/
namespace StackC

namespace Asm

namespace Instr

/-- The label that an instruction places. -/
def defines? : Instr → Option Bytes
  | label l => some l
  | _ => none

/-- The label that an instruction jumps to, always or under a condition. -/
def jumpsTo? : Instr → Option Bytes
  | jump l | jumpZero l | jumpNegative l => some l
  | _ => none

/-- The label that an instruction names, in whatever way. -/
def names? : Instr → Option Bytes
  | label l | jump l | jumpZero l | jumpNegative l | call l => some l
  | _ => none

/-- Nothing behind the instruction is run after it. -/
def isEnd : Instr → Bool
  | ret | halt => true
  | _ => false

end Instr

def labels (code : List Instr) : List Bytes := code.filterMap Instr.defines?

def targets (code : List Instr) : List Bytes := code.filterMap Instr.jumpsTo?

/-- The code behind a label. -/
def behind (l : Bytes) : List Instr → Option (List Instr)
  | [] => none
  | i :: rest => if i = .label l then some rest else behind l rest

section

variable {l : Bytes} {i : Instr} {code a b : List Instr}

@[simp] theorem labels_nil : labels [] = [] := rfl

@[simp] theorem labels_append : labels (a ++ b) = labels a ++ labels b := List.filterMap_append

@[simp] theorem labels_label : labels (.label l :: code) = l :: labels code := rfl

@[simp] theorem targets_nil : targets [] = [] := rfl

@[simp] theorem targets_append : targets (a ++ b) = targets a ++ targets b := List.filterMap_append

@[simp] theorem labels_jump : labels (.jump l :: code) = labels code := rfl

@[simp] theorem labels_jumpZero : labels (.jumpZero l :: code) = labels code := rfl

@[simp] theorem targets_label : targets (.label l :: code) = targets code := rfl

@[simp] theorem targets_jump : targets (.jump l :: code) = l :: targets code := rfl

@[simp] theorem targets_jumpZero : targets (.jumpZero l :: code) = l :: targets code := rfl

theorem mem_labels : l ∈ labels code ↔ Instr.label l ∈ code := by
  simp only [labels, List.mem_filterMap]
  constructor
  · rintro ⟨i, hi, hl⟩
    cases i <;> simp_all [Instr.defines?]
  · intro h
    exact ⟨_, h, rfl⟩

/-- The first of the places of a label counts. -/
theorem behind_append (h : l ∉ labels a) : behind l (a ++ Instr.label l :: b) = some b := by
  induction a with
  | nil => simp [behind]
  | cons i a ih =>
    rw [mem_labels, List.mem_cons, not_or] at h
    simp [behind, Ne.symm h.1, ih (mt mem_labels.mp h.2)]

/-- Where labels are distinct, the code behind one is what follows it in any suffix. -/
theorem behind_of_suffix (hd : (labels code).Nodup) (h : a ++ Instr.label l :: b <:+ code) :
    behind l code = some b := by
  obtain ⟨c, rfl⟩ := h
  rw [← List.append_assoc] at hd ⊢
  refine behind_append fun hl => ?_
  rw [labels_append] at hd
  exact List.disjoint_of_nodup_append hd hl (by simp)

end

end Asm

namespace Text

theorem ofNat_byte {c : Char} (h : c.isDigit) : Char.ofNat (byte c).toNat = c := by
  simp only [Char.isDigit, Bool.and_eq_true, decide_eq_true_eq, UInt32.le_iff_toNat_le] at h
  have hc : c.val.toNat < 2 ^ 8 := Nat.lt_of_le_of_lt h.2 (by decide)
  have hb : (byte c).toNat = c.toNat := by
    change c.val.toUInt8.toNat = c.val.toNat
    rw [UInt32.toNat_toUInt8]
    exact Nat.mod_eq_of_lt hc
  rw [hb, Char.ofNat_toNat]

/-- Different numbers have different texts. -/
theorem decimalNat_inj {a b : Nat} (h : decimalNat a = decimalNat b) : a = b := by
  have hd (n : Nat) : (decimalNat n).map (fun d => Char.ofNat d.toNat) = Nat.toDigits 10 n := by
    rw [decimalNat, List.map_map]
    refine (List.map_congr_left fun c hc => ?_).trans (List.map_id _)
    exact ofNat_byte (Nat.isDigit_of_mem_toDigits (by decide) (by decide) hc)
  have ht : Nat.toDigits 10 a = Nat.toDigits 10 b := by rw [← hd a, h, hd b]
  calc a = Nat.ofDigitChars 10 (Nat.toDigits 10 a) 0 :=
        (Nat.ofDigitChars_toDigits (by decide) (by decide)).symm
    _ = b := by rw [ht, Nat.ofDigitChars_toDigits (by decide) (by decide)]

end Text

end StackC
