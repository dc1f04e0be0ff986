import StackC.Token.Scan
import StackC.Proofs.Outcome

/-! What every token of a scanned text satisfies. -/
namespace StackC.Token

/-- A token other than the end mark, spelled as its kind allows. -/
structure Scanned (t : Token) : Prop where
  notEnd : t.kind ≠ .eof
  spelling : t.kind = .ident → t.lit ≠ [] ∧ ∀ b ∈ t.lit, isIdentPart b

theorem scanned_of_lexeme {b : UInt8} {rest more : Bytes} {kind : TokenKind} {val : Int}
    (h : lexeme b rest = .ok (kind, more, val)) (pos : Int) :
    Scanned { kind, pos, lit := b :: more, val } := by
  unfold lexeme at h
  split at h
  · simp only at h
    split at h
    · cases h
      exact ⟨by simp, by simp⟩
    · cases h
  split at h
  · next hb =>
    cases h
    refine ⟨by simp only; split <;> simp, fun _ => ⟨by simp, ?_⟩⟩
    rw [List.forall_mem_cons]
    exact ⟨by simp [isIdentPart, hb], fun c hc => List.all_eq_true.mp List.all_takeWhile c hc⟩
  split at h
  · cases h
    exact ⟨by simp, by simp⟩
  split at h
  · cases h
    exact ⟨by simp, by simp⟩
  · cases h

private theorem scanFrom_eq_ok {pos : Nat} {src : Bytes} {toks : List Token}
    (h : scanFrom pos src = .ok toks) :
    ∃ body stop, toks = body ++ [eof stop] ∧ ∀ t ∈ body, Scanned t := by
  fun_induction scanFrom pos src generalizing toks with
  | case1 pos =>
    cases h
    exact ⟨[], pos, rfl, by simp⟩
  | case2 pos b rest hb ih => exact ih h
  | case3 => cases h
  | case4 pos b rest hb kind more val hl ih =>
    obtain ⟨others, ho, h⟩ := Outcome.bind_eq_ok.mp h
    cases h
    obtain ⟨body, stop, rfl, hs⟩ := ih ho
    exact ⟨_ :: body, stop, rfl, List.forall_mem_cons.mpr ⟨scanned_of_lexeme hl pos, hs⟩⟩

/-- A scanned text has its end mark behind all other tokens. -/
theorem scan_eq_ok {src : Bytes} {toks : List Token} (h : scan src = .ok toks) :
    ∃ stop, toks = beforeEnd toks ++ [eof stop] ∧ ∀ t ∈ beforeEnd toks, Scanned t := by
  obtain ⟨body, stop, rfl, hs⟩ := scanFrom_eq_ok h
  have hb : beforeEnd (body ++ [eof stop]) = body := by
    rw [beforeEnd, List.takeWhile_append_of_pos fun t ht => by simpa using (hs t ht).notEnd]
    simp [eof]
  rw [hb]
  exact ⟨stop, rfl, hs⟩

end StackC.Token
