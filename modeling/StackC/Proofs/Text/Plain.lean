import StackC.Proofs.Asm.Labels
import StackC.Proofs.Text.Quoting

/-! Texts that stand between quotes as they are, and the texts of numbers. -/
namespace StackC

theorem forall_byte {P : UInt8 → Prop} (h : ∀ n < 256, P (UInt8.ofNat n)) (b : UInt8) : P b := by
  have hb := h b.toNat b.toNat_lt
  rw [UInt8.ofNat_toNat] at hb
  exact hb

namespace Text

/-- A printable ASCII character that needs no escape. -/
def isPlain (b : UInt8) : Bool := 0x20 ≤ b && b < 0x7F && b != quoteMark && b != backslash

theorem ne_of_isPlain {b : UInt8} (h : isPlain b) : b ≠ quoteMark ∧ b ≠ backslash := by
  simp only [isPlain, Bool.and_eq_true, bne_iff_ne] at h
  exact ⟨h.1.2, h.2⟩

theorem printable_of_isPlain {t : Bytes} (h : ∀ b ∈ t, isPlain b) :
    Printable isPrintable t := by
  have hd : ∀ b, isPlain b → b.toNat < 0x80 ∧ isPrintable b.toNat := forall_byte (by decide +kernel)
  induction t with
  | nil => exact printable_nil
  | cons b t ih =>
    rw [List.forall_mem_cons] at h
    obtain ⟨hlt, hb⟩ := hd b h.1
    obtain ⟨c, hc, henc⟩ := (Sequence.one hlt).exists_char
    rw [← hc] at hb
    have hcons := (ih h.2).cons hb
    rwa [henc] at hcons

/-- A plain text between quotes is not changed. -/
theorem quote_plain {t : Bytes} (h : ∀ b ∈ t, isPlain b) :
    quote t = quoteMark :: (t ++ [quoteMark]) := by
  rw [quote, (printable_of_isPlain h).quote_eq,
    flatMap_escaped_eq fun b hb => ne_of_isPlain (h b hb)]

theorem isDigit_decimalNat (n : Nat) : ∀ b ∈ decimalNat n, isDigit b := by
  intro b hb
  obtain ⟨c, hc, rfl⟩ := List.mem_map.mp hb
  have hall : ∀ b : UInt8, (Char.ofNat b.toNat).isDigit → isDigit b :=
    forall_byte (by decide +kernel)
  have hd := Nat.isDigit_of_mem_toDigits (by decide) (by decide) hc
  apply hall
  rw [ofNat_byte hd]
  exact hd

theorem mem_decimal {n : Int} {b : UInt8} (h : b ∈ decimal n) : isDigit b ∨ b = byte '-' := by
  cases n with
  | ofNat k => exact .inl (isDigit_decimalNat k b h)
  | negSucc k =>
    rcases List.mem_cons.mp h with rfl | hb
    · exact .inr rfl
    · exact .inl (isDigit_decimalNat (k + 1) b hb)

theorem exists_decimalNat (n : Nat) : ∃ b t, decimalNat n = b :: t := by
  have hne : decimalNat n ≠ [] := by
    intro h
    have ht : Nat.toDigits 10 n = [] := List.map_eq_nil_iff.mp h
    exact Nat.toDigits_ne_nil ht
  exact List.exists_cons_of_ne_nil hne

/-- Different integers have different texts. -/
theorem decimal_inj {a b : Int} (h : decimal a = decimal b) : a = b := by
  have minus (k n : Nat) : decimalNat k ≠ byte '-' :: decimalNat n := by
    intro he
    have hm : byte '-' ∈ decimalNat k := he ▸ List.mem_cons_self
    exact absurd (isDigit_decimalNat k _ hm) (by decide)
  cases a with
  | ofNat k =>
    cases b with
    | ofNat n => rw [decimalNat_inj h]
    | negSucc n => exact absurd h (minus k (n + 1))
  | negSucc k =>
    cases b with
    | ofNat n => exact absurd h.symm (minus n (k + 1))
    | negSucc n =>
      have hs := decimalNat_inj (List.cons_injective h)
      rw [Nat.succ.inj hs]

end Text

end StackC
