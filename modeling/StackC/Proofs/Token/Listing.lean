import StackC.Proofs.Text.Lines
import StackC.Proofs.Text.Plain
import StackC.Proofs.Token.Places

/-! The listing of the tokens of a text shows all of them but their places. -/
namespace StackC.Token

/-- What a token is wherever it stands. -/
def spelling (t : Token) : TokenKind × Bytes × Int := (t.kind, t.lit, t.val)

def lexemeKinds : List TokenKind := [.ident, .num, .punct, .keyword]

/-- A token whose text can be read back: its literal stands in it as it is, and its value follows
from the literal. -/
structure Legible (t : Token) : Prop where
  kind : t.kind ∈ lexemeKinds
  plain : ∀ b ∈ t.lit, Text.isPlain b
  val : t.val = if t.kind = .num then (Text.digitsValue t.lit : Int) else 0

theorem isPlain_of_isIdentPart : ∀ b, isIdentPart b → Text.isPlain b :=
  forall_byte (by decide +kernel)

theorem isPlain_of_isDigit {b : UInt8} (h : Text.isDigit b) : Text.isPlain b :=
  isPlain_of_isIdentPart b (by simp [isIdentPart, h])

theorem isPlain_of_punctuator : ∀ b, pairStarts.contains b ∨ singles.contains b → Text.isPlain b :=
  forall_byte (by decide +kernel)

private theorem legible_of_lexeme {b : UInt8} {rest more : Bytes} {kind : TokenKind} {val : Int}
    (h : lexeme b rest = .ok (kind, more, val)) (pos : Int) :
    Legible { kind, pos, lit := b :: more, val } := by
  unfold lexeme at h
  split at h
  · next hb =>
    simp only at h
    split at h
    · cases h
      refine ⟨by simp [lexemeKinds], List.forall_mem_cons.mpr ⟨isPlain_of_isDigit hb, ?_⟩, rfl⟩
      exact fun c hc => isPlain_of_isDigit (List.all_eq_true.mp List.all_takeWhile c hc)
    · cases h
  split at h
  · next hb =>
    cases h
    refine ⟨by simp only; split <;> decide, List.forall_mem_cons.mpr ⟨?_, ?_⟩, ?_⟩
    · exact isPlain_of_isIdentPart b (by simp [isIdentPart, hb])
    · exact fun c hc => isPlain_of_isIdentPart c (List.all_eq_true.mp List.all_takeWhile c hc)
    · simp only
      split <;> rfl
  split at h
  · next hb =>
    cases h
    rw [Bool.and_eq_true] at hb
    refine ⟨by simp [lexemeKinds], List.forall_mem_cons.mpr ⟨?_, ?_⟩, rfl⟩
    · exact isPlain_of_punctuator b (.inl hb.1)
    · exact List.forall_mem_singleton.mpr (by decide)
  split at h
  · next hb =>
    cases h
    refine ⟨by simp [lexemeKinds], List.forall_mem_singleton.mpr ?_, rfl⟩
    exact isPlain_of_punctuator b (.inr hb)
  · cases h

theorem legible_of_scan {src : Bytes} {toks : List Token} (h : scan src = .ok toks) :
    ∀ t ∈ beforeEnd toks, Legible t := by
  intro t ht
  obtain ⟨before, b, rest, more, -, -, hlit, hl⟩ := (places_of_scan h).cut t ht
  have hleg := legible_of_lexeme hl t.pos
  rw [← hlit] at hleg
  exact hleg

theorem Legible.text_eq {t : Token} (h : Legible t) :
    t.text = (t.kind.text ++ ascii " ") ++ Text.quoteMark :: t.lit ++ [Text.quoteMark] := by
  have hk : t.kind ≠ .eof := fun he => absurd (he ▸ h.kind) (by decide)
  simp only [text, beq_iff_eq, hk, ↓reduceIte, Text.quote_plain h.plain,
    List.append_assoc, List.cons_append]

theorem Legible.newline_notMem {t : Token} (h : Legible t) : Text.newline ∉ t.text := by
  have hk : ∀ k ∈ lexemeKinds, Text.newline ∉ k.text ++ ascii " " := by decide
  have hlit : Text.newline ∉ t.lit := fun hn => absurd (h.plain _ hn) (by decide)
  have hne : Text.newline ≠ Text.quoteMark := by decide
  rw [h.text_eq, List.mem_append, List.mem_append, List.mem_cons, List.mem_singleton]
  simp [hk t.kind h.kind, hlit, hne]

/-- Tokens with the same text have the same spelling. -/
theorem Legible.spelling_eq {t u : Token} (ht : Legible t) (hu : Legible u) (h : t.text = u.text) :
    t.spelling = u.spelling := by
  rw [ht.text_eq, hu.text_eq] at h
  have hmark : ∀ k ∈ lexemeKinds, Text.quoteMark ∉ k.text ++ ascii " " := by decide
  have hinj : ∀ k ∈ lexemeKinds, ∀ k' ∈ lexemeKinds, k.text = k'.text → k = k' := by decide
  have hplain : Text.quoteMark ∉ t.lit := fun hq => (Text.ne_of_isPlain (ht.plain _ hq)).1 rfl
  -- The mark before the literal is the first one of the text.
  obtain ⟨hkind, -, hlit⟩ := (List.append_cons_inj_of_notMem (hmark _ ht.kind) hplain).mp
    (List.append_cancel_right h)
  have hk : t.kind = u.kind := hinj _ ht.kind _ hu.kind (List.append_cancel_right hkind)
  have hval : t.val = u.val := by rw [ht.val, hu.val, hk, hlit]
  simp only [spelling, hk, hlit, hval]

/-- Tokens that are listed alike are spelled alike, one by one. -/
theorem spelling_eq_of_texts {ts us : List Token} (ht : ∀ t ∈ ts, Legible t)
    (hu : ∀ u ∈ us, Legible u) (h : ts.map text = us.map text) :
    ts.map spelling = us.map spelling := by
  induction ts generalizing us with
  | nil =>
    rw [List.map_nil, eq_comm, List.map_eq_nil_iff] at h
    rw [h]
  | cons t ts ih =>
    obtain ⟨u, us, rfl, hhead, htail⟩ := List.map_eq_cons_iff.mp h.symm
    rw [List.forall_mem_cons] at ht hu
    rw [List.map_cons, List.map_cons, ht.1.spelling_eq hu.1 hhead.symm, ih ht.2 hu.2 htail.symm]

/-- Texts with the same listing have the same tokens at other places. -/
theorem spellings_of_listing {src src' : Bytes} {toks toks' : List Token}
    (h : scan src = .ok toks) (h' : scan src' = .ok toks') (hl : listing toks = listing toks') :
    toks.map spelling = toks'.map spelling := by
  have hleg := legible_of_scan h
  have hleg' := legible_of_scan h'
  have lined {ts : List Token} (hts : ∀ t ∈ ts, Legible t) :
      ∀ l ∈ ts.map text, Text.newline ∉ l :=
    List.forall_mem_map.mpr fun t ht => (hts t ht).newline_notMem
  have htexts : (beforeEnd toks).map text = (beforeEnd toks').map text := by
    refine Text.lines_inj (lined hleg) (lined hleg') ?_
    rw [List.flatMap_map, List.flatMap_map]
    exact hl
  rw [(places_of_scan h).ends, (places_of_scan h').ends, List.map_append, List.map_append,
    spelling_eq_of_texts hleg hleg' htexts]
  rfl

end StackC.Token
