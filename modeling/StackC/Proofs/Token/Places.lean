import StackC.Proofs.Scanning

/-! Where the tokens of a text stand, and where scanning it can fail. -/
namespace StackC.Token

/-- The token is the lexeme that begins at its offset, in a text that begins at `start`. -/
def CutFrom (start : Nat) (src : Bytes) (t : Token) : Prop :=
  ∃ before b rest more, src = before ++ b :: rest ∧ t.pos = (start + before.length : Nat) ∧
    t.lit = b :: more ∧ lexeme b rest = .ok (t.kind, more, t.val)

theorem CutFrom.bounds {start : Nat} {src : Bytes} {t : Token} (h : CutFrom start src t) :
    start ≤ t.pos ∧ t.pos < (start + src.length : Nat) := by
  obtain ⟨before, b, rest, more, rfl, hpos, -, -⟩ := h
  simp only [hpos, List.length_append, List.length_cons]
  omega

/-- What is cut from the end of a text is cut from the text. -/
theorem CutFrom.append {start : Nat} {src : Bytes} {t : Token} (front : Bytes)
    (h : CutFrom (start + front.length) src t) : CutFrom start (front ++ src) t := by
  obtain ⟨before, b, rest, more, rfl, hpos, hlit, hl⟩ := h
  refine ⟨front ++ before, b, rest, more, by simp, ?_, hlit, hl⟩
  rw [hpos, List.length_append, Nat.add_assoc]

theorem isPrefix_of_lexeme {b : UInt8} {rest more : Bytes} {kind : TokenKind} {val : Int}
    (h : lexeme b rest = .ok (kind, more, val)) : more <+: rest := by
  unfold lexeme at h
  split at h
  · simp only at h
    split at h
    · cases h
      exact List.takeWhile_prefix _
    · cases h
  split at h
  · cases h
    exact List.takeWhile_prefix _
  split at h
  · next hb =>
    cases h
    rw [Bool.and_eq_true, beq_iff_eq] at hb
    obtain ⟨tail, rfl⟩ := List.head?_eq_some_iff.mp hb.2
    exact ⟨tail, rfl⟩
  split at h
  · cases h
    exact List.nil_prefix
  · cases h

private theorem stage_of_lexeme {b : UInt8} {rest : Bytes} {cause : Cause}
    (h : lexeme b rest = .error cause) : cause.stage = .lex := by
  unfold lexeme at h
  split at h
  · simp only at h
    split at h <;> cases h
    rfl
  split at h
  · cases h
  split at h
  · cases h
  split at h <;> cases h
  rfl

private theorem places_of_scanFrom {start : Nat} {src : Bytes} {toks : List Token}
    (h : scanFrom start src = .ok toks) :
    ∃ body, toks = body ++ [eof (start + src.length : Nat)] ∧ (∀ t ∈ body, CutFrom start src t) ∧
      body.Pairwise (·.pos < ·.pos) := by
  fun_induction scanFrom start src generalizing toks with
  | case1 start =>
    cases h
    exact ⟨[], rfl, by simp, .nil⟩
  | case2 start b rest hb ih =>
    obtain ⟨body, rfl, hcut, hinc⟩ := ih h
    refine ⟨body, ?_, fun t ht => (hcut t ht).append [b], hinc⟩
    rw [List.length_cons, Nat.add_assoc, Nat.add_comm 1]
  | case3 => cases h
  | case4 start b rest hb kind more val hl ih =>
    obtain ⟨others, ho, h⟩ := Outcome.bind_eq_ok.mp h
    cases h
    obtain ⟨body, rfl, hcut, hinc⟩ := ih ho
    obtain ⟨tail, rfl⟩ := isPrefix_of_lexeme hl
    rw [List.drop_left] at hcut ⊢
    have hrest : ∀ t ∈ body, CutFrom start (b :: more ++ tail) t :=
      fun t ht => CutFrom.append (b :: more) (hcut t ht)
    refine ⟨{ kind, pos := start, lit := b :: more, val } :: body, ?_,
      List.forall_mem_cons.mpr ⟨?_, hrest⟩, List.pairwise_cons.mpr ⟨?_, hinc⟩⟩
    · have hend : start + more.length + 1 + tail.length = start + (b :: (more ++ tail)).length := by
        simp only [List.length_cons, List.length_append]
        omega
      rw [hend, List.cons_append]
    · exact ⟨[], b, more ++ tail, more, rfl, rfl, rfl, hl⟩
    · intro t ht
      have hlo := (hcut t ht).bounds.1
      simp only
      omega

structure Places (src : Bytes) (toks : List Token) : Prop where
  ends : toks = beforeEnd toks ++ [eof src.length]
  cut : ∀ t ∈ beforeEnd toks, CutFrom 0 src t
  increasing : toks.Pairwise (·.pos < ·.pos)

/-- Tokens stand inside the text, each behind the one before it, and the end mark stands behind
the text. -/
theorem places_of_scan {src : Bytes} {toks : List Token} (h : scan src = .ok toks) :
    Places src toks := by
  obtain ⟨body, rfl, hcut, hinc⟩ := places_of_scanFrom h
  obtain ⟨stop, hends, -⟩ := scan_eq_ok h
  have hbody := (List.append_inj' hends rfl).1
  refine ⟨?_, by rwa [← hbody], List.pairwise_append.mpr ⟨hinc, List.pairwise_singleton _ _, ?_⟩⟩
  · rw [← hbody, Nat.zero_add]
  · intro t ht u hu
    rw [List.mem_singleton] at hu
    subst hu
    exact (hcut t ht).bounds.2

theorem kind_of_mem_beforeEnd {toks : List Token} {t : Token} (h : t ∈ beforeEnd toks) :
    t.kind ≠ .eof := by
  simpa using List.all_eq_true.mp List.all_takeWhile t h

theorem beforeEnd_append_end {ts rest : List Token} {e : Token} (ht : ∀ t ∈ ts, t.kind ≠ .eof)
    (he : e.kind = .eof) : beforeEnd (ts ++ e :: rest) = ts := by
  rw [beforeEnd, List.takeWhile_append_of_pos fun t hm => by simpa using ht t hm,
    List.takeWhile_cons, he]
  simp

namespace Places

variable {src : Bytes} {toks : List Token} {t : Token}

private theorem mem_cases (h : Places src toks) (ht : t ∈ toks) :
    t ∈ beforeEnd toks ∨ t = eof src.length := by
  rw [h.ends, List.mem_append, List.mem_singleton] at ht
  exact ht

theorem bounds (h : Places src toks) (ht : t ∈ toks) : 0 ≤ t.pos ∧ t.pos ≤ src.length := by
  rcases h.mem_cases ht with ht | rfl
  · have hb := (h.cut t ht).bounds
    omega
  · simp [eof]

theorem find?_eof (h : Places src toks) :
    toks.find? (·.kind == .eof) = some (eof src.length) := by
  have hb : (beforeEnd toks).find? (·.kind == .eof) = none := by
    rw [List.find?_eq_none]
    intro t ht
    simpa using kind_of_mem_beforeEnd ht
  rw [h.ends, List.find?_append, hb]
  rfl

end Places

/-- Scanning fails at a byte of the text. -/
theorem error_of_scanFrom {start : Nat} {src : Bytes} {e : SourceError}
    (h : scanFrom start src = .error e) :
    e.cause.stage = .lex ∧ start ≤ e.offset ∧ e.offset < (start + src.length : Nat) := by
  fun_induction scanFrom start src with
  | case1 => cases h
  | case2 start b rest hb ih =>
    obtain ⟨hs, hlo, hhi⟩ := ih h
    rw [List.length_cons]
    exact ⟨hs, by omega, by omega⟩
  | case3 start b rest hb cause hl =>
    cases h
    rw [List.length_cons]
    exact ⟨stage_of_lexeme hl, by simp, by simp only; omega⟩
  | case4 start b rest hb kind more val hl ih =>
    cases ho : scanFrom (start + more.length + 1) (rest.drop more.length) with
    | ok toks =>
      rw [ho] at h
      cases h
    | error e' =>
      rw [ho] at h
      cases h
      obtain ⟨hs, hlo, hhi⟩ := ih ho
      have hlen := (isPrefix_of_lexeme hl).length_le
      rw [List.length_drop] at hhi
      rw [List.length_cons]
      exact ⟨hs, by omega, by omega⟩

end StackC.Token
