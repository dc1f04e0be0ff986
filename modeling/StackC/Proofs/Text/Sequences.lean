import StackC.Text.Utf8

/-! The byte sequences that are read as code points are those of the characters. -/
namespace StackC.Text

/-- The well-formed sequences and their code points. None is longer than it need be, and no code
point is a surrogate or above U+10FFFF. -/
inductive Sequence : Bytes → Nat → Prop
  | one {a : UInt8} (lead : a.toNat < 0x80) : Sequence [a] a.toNat
  | two {a b : UInt8} (lead : 0xC2 ≤ a.toNat ∧ a.toNat ≤ 0xDF) (second : isContinuation b) :
      Sequence [a, b] (a.toNat % 32 * 64 + b.toNat % 64)
  | three {a b c : UInt8} (lead : 0xE0 ≤ a.toNat ∧ a.toNat ≤ 0xEF) (second : isContinuation b)
      (third : isContinuation c) (shortest : a.toNat = 0xE0 → 0xA0 ≤ b.toNat)
      (noSurrogate : a.toNat = 0xED → b.toNat ≤ 0x9F) :
      Sequence [a, b, c] (a.toNat % 16 * 4096 + b.toNat % 64 * 64 + c.toNat % 64)
  | four {a b c d : UInt8} (lead : 0xF0 ≤ a.toNat ∧ a.toNat ≤ 0xF4) (second : isContinuation b)
      (third : isContinuation c) (fourth : isContinuation d)
      (shortest : a.toNat = 0xF0 → 0x90 ≤ b.toNat) (inRange : a.toNat = 0xF4 → b.toNat ≤ 0x8F) :
      Sequence [a, b, c, d]
        (a.toNat % 8 * 262144 + b.toNat % 64 * 4096 + c.toNat % 64 * 64 + d.toNat % 64)

section CodePoint

variable {s t : Bytes} {code n : Nat}

private theorem exists_sequence (h : codePoint? t = some (code, n)) :
    ∃ s rest, t = s ++ rest ∧ Sequence s code ∧ n = s.length := by
  unfold codePoint? at h
  simp only [Bool.and_eq_true, Bool.or_eq_true, bne_iff_ne, ne_eq, decide_eq_true_eq,
    ← UInt8.toNat_inj, UInt8.le_iff_toNat_le, UInt8.lt_iff_toNat_lt,
    ← Decidable.imp_iff_not_or] at h
  split at h
  · cases h
  · next a rest =>
    split at h
    · next lead =>
      cases h
      exact ⟨[a], rest, rfl, .one lead, rfl⟩
    split at h
    · next lead =>
      split at h
      · next b rest =>
        split at h
        · next second =>
          cases h
          exact ⟨[a, b], rest, rfl, .two lead second, rfl⟩
        · cases h
      · cases h
    split at h
    · next lead =>
      split at h
      · next b c rest =>
        split at h
        · next hb =>
          cases h
          obtain ⟨⟨⟨second, third⟩, shortest⟩, noSurrogate⟩ := hb
          exact ⟨[a, b, c], rest, rfl, .three lead second third shortest noSurrogate, rfl⟩
        · cases h
      · cases h
    split at h
    · next lead =>
      split at h
      · next b c d rest =>
        split at h
        · next hb =>
          cases h
          obtain ⟨⟨⟨⟨second, third⟩, fourth⟩, shortest⟩, inRange⟩ := hb
          exact ⟨[a, b, c, d], rest, rfl, .four lead second third fourth shortest inRange, rfl⟩
        · cases h
      · cases h
    · cases h

private theorem codePoint?_sequence (h : Sequence s code) (rest : Bytes) :
    codePoint? (s ++ rest) = some (code, s.length) := by
  unfold codePoint?
  simp only [Bool.and_eq_true, Bool.or_eq_true, bne_iff_ne, ne_eq, decide_eq_true_eq,
    ← UInt8.toNat_inj, UInt8.le_iff_toNat_le, UInt8.lt_iff_toNat_lt, ← Decidable.imp_iff_not_or]
  cases h with
  | one lead => exact if_pos lead
  | two lead second =>
    refine (if_neg (by simp; omega)).trans ((if_pos lead).trans ?_)
    exact if_pos second
  | three lead second third shortest noSurrogate =>
    refine (if_neg (by simp; omega)).trans ((if_neg (by simp; omega)).trans
      ((if_pos lead).trans ?_))
    exact if_pos ⟨⟨⟨second, third⟩, shortest⟩, noSurrogate⟩
  | four lead second third fourth shortest inRange =>
    refine (if_neg (by simp; omega)).trans ((if_neg (by simp; omega)).trans
      ((if_neg (by simp; omega)).trans ((if_pos lead).trans ?_)))
    exact if_pos ⟨⟨⟨⟨second, third⟩, fourth⟩, shortest⟩, inRange⟩

theorem Sequence.ne_nil (h : Sequence s code) : s ≠ [] := by
  cases h <;> exact List.cons_ne_nil _ _

theorem isContinuation_iff {b : UInt8} : isContinuation b ↔ 0x80 ≤ b.toNat ∧ b.toNat ≤ 0xBF := by
  rw [isContinuation, Bool.and_eq_true, decide_eq_true_eq, decide_eq_true_eq,
    UInt8.le_iff_toNat_le, UInt8.le_iff_toNat_le]
  rfl

/-- An ASCII byte stands only for itself. -/
theorem Sequence.eq_of_mem_ascii {b : UInt8} (h : Sequence s code) (hb : b ∈ s)
    (hlt : b.toNat < 0x80) : s = [b] ∧ code = b.toNat := by
  have tail {c : UInt8} (hc : isContinuation c) : b ≠ c := by
    rintro rfl
    rw [isContinuation_iff] at hc
    omega
  have head {a : UInt8} (ha : 0x80 ≤ a.toNat) : b ≠ a := by
    rintro rfl
    omega
  cases h with
  | one lead =>
    rw [List.mem_singleton] at hb
    exact hb ▸ ⟨rfl, rfl⟩
  | two lead second => simp [head (Nat.le_trans (by decide) lead.1), tail second] at hb
  | three lead second third =>
    simp [head (Nat.le_trans (by decide) lead.1), tail second, tail third] at hb
  | four lead second third fourth =>
    simp [head (Nat.le_trans (by decide) lead.1), tail second, tail third, tail fourth] at hb

end CodePoint

section Characters

variable {s : Bytes} {code : Nat}

theorem toNat_ofNat {n : Nat} (h : n < 256) : (UInt8.ofNat n).toNat = n :=
  UInt8.toNat_ofNat_of_lt' h

private theorem isContinuation_ofNat (n : Nat) : isContinuation (UInt8.ofNat (n % 64 + 128)) := by
  rw [isContinuation_iff, toNat_ofNat (by omega)]
  omega

theorem sequence_utf8EncodeChar (c : Char) : Sequence (String.utf8EncodeChar c) c.toNat := by
  have hv : c.val.toNat.isValidChar := c.valid
  rw [Char.toNat, String.utf8EncodeChar]
  generalize c.val.toNat = v at hv
  rw [Nat.isValidChar] at hv
  have tail (n : Nat) : (UInt8.ofNat (n % 64 + 128)).toNat = n % 64 + 128 :=
    toNat_ofNat (by omega)
  have cont := isContinuation_ofNat
  split
  · have lead : (UInt8.ofNat v).toNat = v := toNat_ofNat (by omega)
    have h := Sequence.one (a := UInt8.ofNat v) (by omega)
    rwa [lead] at h
  split
  · have lead : (UInt8.ofNat (v / 64 % 32 + 192)).toNat = v / 64 + 192 := by
      rw [toNat_ofNat (by omega)]
      omega
    have h := Sequence.two (a := UInt8.ofNat (v / 64 % 32 + 192)) (by omega) (cont v)
    rwa [lead, tail, show (v / 64 + 192) % 32 * 64 + (v % 64 + 128) % 64 = v by omega] at h
  split
  · have lead : (UInt8.ofNat (v / 4096 % 16 + 224)).toNat = v / 4096 + 224 := by
      rw [toNat_ofNat (by omega)]
      omega
    have h := Sequence.three (a := UInt8.ofNat (v / 4096 % 16 + 224)) (by omega) (cont (v / 64))
      (cont v) (by rw [tail]; omega) (by rw [tail]; omega)
    rwa [lead, tail, tail, show (v / 4096 + 224) % 16 * 4096 + (v / 64 % 64 + 128) % 64 * 64 +
      (v % 64 + 128) % 64 = v by omega] at h
  · have lead : (UInt8.ofNat (v / 262144 % 8 + 240)).toNat = v / 262144 + 240 := by
      rw [toNat_ofNat (by omega)]
      omega
    have h := Sequence.four (a := UInt8.ofNat (v / 262144 % 8 + 240)) (by omega)
      (cont (v / 4096)) (cont (v / 64)) (cont v) (by rw [tail]; omega) (by rw [tail]; omega)
    rwa [lead, tail, tail, tail, show (v / 262144 + 240) % 8 * 262144 +
      (v / 4096 % 64 + 128) % 64 * 4096 + (v / 64 % 64 + 128) % 64 * 64 +
      (v % 64 + 128) % 64 = v by omega] at h

theorem Sequence.isValidChar (h : Sequence s code) : code.isValidChar := by
  rw [Nat.isValidChar]
  cases h with
  | one lead => omega
  | two lead second => omega
  | three lead second third shortest noSurrogate =>
    rw [isContinuation_iff] at second third
    omega
  | four lead second third fourth shortest inRange =>
    rw [isContinuation_iff] at second third fourth
    omega

theorem Sequence.exists_char (h : Sequence s code) :
    ∃ c : Char, c.toNat = code ∧ String.utf8EncodeChar c = s := by
  obtain ⟨c, hc⟩ : ∃ c : Char, c.val.toNat = code := ⟨Char.ofNatAux code h.isValidChar, rfl⟩
  refine ⟨c, hc, ?_⟩
  have ofNat_eq {n : Nat} {b : UInt8} (hb : n = b.toNat) : UInt8.ofNat n = b := by
    rw [hb, UInt8.ofNat_toNat]
  rw [String.utf8EncodeChar]
  simp only [hc]
  cases h with
  | one lead => rw [if_pos (by omega), UInt8.ofNat_toNat]
  | two lead second =>
    rw [isContinuation_iff] at second
    rw [if_neg (by omega), if_pos (by omega)]
    simp only [List.cons.injEq, and_true]
    refine ⟨ofNat_eq ?_, ofNat_eq ?_⟩ <;> omega
  | three lead second third shortest noSurrogate =>
    rw [isContinuation_iff] at second third
    rw [if_neg (by omega), if_neg (by omega), if_pos (by omega)]
    simp only [List.cons.injEq, and_true]
    refine ⟨ofNat_eq ?_, ofNat_eq ?_, ofNat_eq ?_⟩ <;> omega
  | four lead second third fourth shortest inRange =>
    rw [isContinuation_iff] at second third fourth
    rw [if_neg (by omega), if_neg (by omega), if_neg (by omega)]
    simp only [List.cons.injEq, and_true]
    refine ⟨ofNat_eq ?_, ofNat_eq ?_, ofNat_eq ?_, ofNat_eq ?_⟩ <;> omega

end Characters

section Pieces

def Piece.ofChar (c : Char) : Piece := .scalar c.toNat (String.utf8EncodeChar c)

theorem pieces_char (c : Char) (rest : Bytes) :
    pieces (String.utf8EncodeChar c ++ rest) = .ofChar c :: pieces rest := by
  have hs := sequence_utf8EncodeChar c
  have hc := codePoint?_sequence hs rest
  rw [Piece.ofChar]
  obtain ⟨b, s, hb⟩ := List.exists_cons_of_ne_nil hs.ne_nil
  rw [hb] at hc ⊢
  rw [List.cons_append] at hc ⊢
  rw [pieces]
  simp only [hc, List.length_cons, Nat.add_sub_cancel, List.take_left, List.drop_left]

theorem pieces_chars (cs : List Char) (rest : Bytes) :
    pieces (cs.flatMap String.utf8EncodeChar ++ rest) = cs.map .ofChar ++ pieces rest := by
  induction cs with
  | nil => rfl
  | cons c cs ih =>
    rw [List.flatMap_cons, List.append_assoc, pieces_char, ih, List.map_cons, List.cons_append]

/-- A text begins with a character or with a byte that starts none, if it has a byte at all. -/
theorem pieces_cases (t : Bytes) : t = [] ∨
    (∃ (c : Char) (rest : Bytes), t = String.utf8EncodeChar c ++ rest) ∨
      ∃ b rest, pieces t = .stray b :: pieces rest := by
  cases t with
  | nil => exact .inl rfl
  | cons b rest =>
    cases hc : codePoint? (b :: rest) with
    | none =>
      refine .inr (.inr ⟨b, rest, ?_⟩)
      rw [pieces]
      simp only [hc]
    | some p =>
      obtain ⟨s, rest', ht, hs, -⟩ := exists_sequence hc
      obtain ⟨c, -, rfl⟩ := hs.exists_char
      exact .inr (.inl ⟨c, rest', ht⟩)

end Pieces

end StackC.Text
