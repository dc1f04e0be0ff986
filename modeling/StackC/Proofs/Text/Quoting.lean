import Mathlib.Tactic.ByContra
import StackC.Proofs.Text.Sequences
import StackC.Text.Quoted

/-! Which texts stand between quotes with no other escapes than those of the quote and the
backslash. -/
namespace StackC.Text

/-- The text is the UTF-8 of printable characters. -/
def Printable (printable : Nat → Bool) (t : Bytes) : Prop :=
  ∃ cs : List Char, t = cs.flatMap String.utf8EncodeChar ∧ ∀ c ∈ cs, printable c.toNat

/-- A byte between quotes: a quote and a backslash have a backslash before them. -/
def escaped (b : UInt8) : Bytes := if b = quoteMark ∨ b = backslash then [backslash, b] else [b]

/-- A piece that stands between quotes as it is, up to the escapes of the quote and the
backslash. -/
def Piece.isShown (printable : Nat → Bool) : Piece → Bool
  | .scalar code _ => printable code
  | .stray _ => false

/-- The quote and the backslash are printable. -/
structure ShowsEscaped (printable : Nat → Bool) : Prop where
  quoteMark : printable quoteMark.toNat
  backslash : printable backslash.toNat

theorem Sequence.eq_singleton {s : Bytes} {code : Nat} (h : Sequence s code) (hlt : code < 0x80) :
    ∃ b : UInt8, s = [b] ∧ b.toNat = code := by
  cases h with
  | one lead => exact ⟨_, rfl, rfl⟩
  | two lead second => omega
  | three lead second third shortest =>
    rw [isContinuation_iff] at second
    omega
  | four lead second third fourth shortest =>
    rw [isContinuation_iff] at second
    omega

section Pieces

variable {printable : Nat → Bool} {c : Char} {p : Piece}

theorem flatMap_escaped_eq {t : Bytes} (h : ∀ b ∈ t, b ≠ quoteMark ∧ b ≠ backslash) :
    t.flatMap escaped = t := by
  have hid : ∀ b ∈ t, escaped b = [b] := fun b hb =>
    if_neg (not_or.mpr (h b hb))
  rw [List.flatMap, List.map_congr_left hid, ← List.flatMap, List.flatMap_singleton']

private theorem quoted_ofChar (h : printable c.toNat) :
    (Piece.ofChar c).quoted printable = (String.utf8EncodeChar c).flatMap escaped := by
  have hs := sequence_utf8EncodeChar c
  rw [Piece.ofChar, Piece.quoted]
  by_cases hspecial : c.toNat = quoteMark.toNat ∨ c.toNat = backslash.toNat
  · have hlt : c.toNat < 0x80 := by
      rcases hspecial with he | he <;> rw [he] <;> decide
    obtain ⟨b, hb, hcode⟩ := hs.eq_singleton hlt
    rw [← hcode, UInt8.toNat_inj, UInt8.toNat_inj] at hspecial
    have hesc : escaped b = [backslash, b] := if_pos hspecial
    simp [hb, hesc, ← hcode, UInt8.toNat_inj, hspecial]
  · have hother : ∀ b ∈ String.utf8EncodeChar c, b ≠ quoteMark ∧ b ≠ backslash := by
      intro b hb
      have special {m : UInt8} (hm : m.toNat < 0x80) (hne : c.toNat ≠ m.toNat) : b ≠ m := by
        rintro rfl
        exact hne (hs.eq_of_mem_ascii hb hm).2
      rw [not_or] at hspecial
      exact ⟨special (by decide) hspecial.1, special (by decide) hspecial.2⟩
    rw [flatMap_escaped_eq hother]
    simp [hspecial, h]

private theorem letterEscape?_ne {code : Nat} {c : Char} (h : letterEscape? code = some c) :
    byte c ≠ quoteMark ∧ byte c ≠ backslash := by
  have hletters : ∀ code < 14,
      (letterEscape? code).all fun c => byte c != quoteMark && byte c != backslash := by
    decide
  have hlt : code < 14 := by
    refine Nat.lt_of_not_le fun hle => ?_
    have hne (k : Nat) (hk : k < 14) : (code == k) = false := beq_false_of_ne (by omega)
    simp [letterEscape?, List.lookup_cons, hne] at h
  have hc := hletters code hlt
  rw [h] at hc
  simpa using hc

/-- What cannot be shown has an escape of another kind. -/
theorem exists_quoted_eq (hp : ShowsEscaped printable) (h : p.isShown printable = false) :
    ∃ e more, p.quoted printable = backslash :: e :: more ∧ e ≠ quoteMark ∧ e ≠ backslash := by
  cases p with
  | stray b => exact ⟨byte 'x', hex 2 b.toNat, rfl, by decide, by decide⟩
  | scalar code bytes =>
    have hcode : printable code = false := h
    have hspecial : ¬(code = quoteMark.toNat ∨ code = backslash.toNat) := by
      rintro (rfl | rfl)
      · exact Bool.false_ne_true (hcode.symm.trans hp.quoteMark)
      · exact Bool.false_ne_true (hcode.symm.trans hp.backslash)
    simp only [Piece.quoted, Bool.or_eq_true, decide_eq_true_eq, hspecial, hcode,
      Bool.false_eq_true, if_false]
    split
    · next c hc => exact ⟨byte c, [], rfl, letterEscape?_ne hc⟩
    split
    · exact ⟨byte 'x', hex 2 code, rfl, by decide, by decide⟩
    split
    · exact ⟨byte 'u', hex 4 code, rfl, by decide, by decide⟩
    · exact ⟨byte 'U', hex 8 code, rfl, by decide, by decide⟩

end Pieces

section Texts

variable {printable : Nat → Bool} {t : Bytes}

theorem printable_nil : Printable printable [] := ⟨[], rfl, by simp⟩

theorem Printable.cons {c : Char} (hc : printable c.toNat) (h : Printable printable t) :
    Printable printable (String.utf8EncodeChar c ++ t) := by
  obtain ⟨cs, rfl, hcs⟩ := h
  exact ⟨c :: cs, rfl, List.forall_mem_cons.mpr ⟨hc, hcs⟩⟩

/-- A text is printable up to its end, or up to a piece that cannot be shown. -/
theorem printable_or_hidden (printable : Nat → Bool) (t : Bytes) : Printable printable t ∨
    ∃ front rest p ps, Printable printable front ∧ t = front ++ rest ∧ pieces rest = p :: ps ∧
      p.isShown printable = false := by
  induction hn : t.length using Nat.strongRecOn generalizing t with
  | ind n ih =>
    subst hn
    rcases pieces_cases t with rfl | ⟨c, rest, rfl⟩ | ⟨b, rest, hstray⟩
    · exact .inl printable_nil
    · by_cases hc : printable c.toNat
      · have hlt : rest.length < (String.utf8EncodeChar c ++ rest).length := by
          have hpos := List.length_pos_iff.mpr (sequence_utf8EncodeChar c).ne_nil
          rw [List.length_append]
          omega
        rcases ih _ hlt rest rfl with hrest | ⟨front, rest', p, ps, hfront, rfl, hp, hshown⟩
        · exact .inl (hrest.cons hc)
        · exact .inr ⟨_, rest', p, ps, hfront.cons hc, (List.append_assoc _ _ _).symm, hp, hshown⟩
      · exact .inr ⟨[], _, _, _, printable_nil, rfl, pieces_char c rest, eq_false_of_ne_true hc⟩
    · exact .inr ⟨[], t, _, _, printable_nil, rfl, hstray, rfl⟩

theorem Printable.flatMap_quoted (h : Printable printable t) (rest : Bytes) :
    (pieces (t ++ rest)).flatMap (Piece.quoted printable) =
      t.flatMap escaped ++ (pieces rest).flatMap (Piece.quoted printable) := by
  obtain ⟨cs, rfl, hcs⟩ := h
  have hquoted : (cs.map Piece.ofChar).flatMap (Piece.quoted printable) =
      (cs.flatMap String.utf8EncodeChar).flatMap escaped := by
    rw [List.flatMap_map, List.flatMap_assoc]
    exact congrArg List.flatten (List.map_congr_left fun c hc => quoted_ofChar (hcs c hc))
  rw [pieces_chars, List.flatMap_append, hquoted]

theorem Printable.quote_eq (h : Printable printable t) :
    quoteBy printable t = quoteMark :: (t.flatMap escaped ++ [quoteMark]) := by
  have hq := h.flatMap_quoted []
  rw [pieces, List.flatMap_nil, List.append_nil, List.append_nil] at hq
  rw [quoteBy, hq]
  rfl

/-- The first escape of another kind in a text that is not printable. -/
theorem quote_of_not_printable (hp : ShowsEscaped printable) (h : ¬Printable printable t) :
    ∃ front rest e more, t = front ++ rest ∧
      quoteBy printable t = quoteMark :: (front.flatMap escaped ++ backslash :: e :: more) ∧
      e ≠ quoteMark ∧ e ≠ backslash := by
  obtain ⟨front, rest, p, ps, hfront, ht, hpieces, hshown⟩ :=
    (printable_or_hidden printable t).resolve_left h
  obtain ⟨e, more, hquoted, he⟩ := exists_quoted_eq hp hshown
  refine ⟨front, rest, e, more ++ (ps.flatMap (Piece.quoted printable) ++ [quoteMark]), ht, ?_, he⟩
  rw [quoteBy, ht, hfront.flatMap_quoted, hpieces, List.flatMap_cons, hquoted]
  simp only [List.cons_append, List.append_assoc]

/-- A text is printable if and only if it has no other escapes than those of the quote and the
backslash. -/
theorem printable_iff_quote_eq (hp : ShowsEscaped printable) : Printable printable t ↔
    quoteBy printable t = quoteMark :: (t.flatMap escaped ++ [quoteMark]) := by
  refine ⟨Printable.quote_eq, fun hq => ?_⟩
  by_contra h
  obtain ⟨front, rest, e, more, rfl, hquote, hne⟩ := quote_of_not_printable hp h
  rw [hquote, List.cons.injEq, List.flatMap_append, List.append_assoc,
    List.append_cancel_left_eq] at hq
  cases rest with
  | nil => simp [quoteMark, backslash] at hq
  | cons b rest =>
    rw [List.flatMap_cons, escaped] at hq
    split at hq
    · next hb =>
      simp only [List.cons_append, List.cons.injEq] at hq
      exact hb.elim (hne.1 <| hq.2.2.1.trans ·) (hne.2 <| hq.2.2.1.trans ·)
    · next hb =>
      simp only [List.cons_append, List.cons.injEq] at hq
      exact hb (.inr hq.2.1.symm)

end Texts

end StackC.Text
