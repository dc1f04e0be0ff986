import StackC.Proofs.Tree.Parsed

/-! Every local of a parsed program has a name that the scanner cuts out. -/
namespace StackC

namespace Derivation

/-- Every name that occurs is the spelling of an identifier. -/
theorem ident_of_derives {a : Phrase} {w : List Token} {o : List Occurrence} (h : Derives a w o) :
    ∀ x ∈ o, ∃ t ∈ w, t.kind = .ident ∧ t.lit = x.name := by
  induction h with
  | empty | lit | number | endMark | none => exact List.forall_mem_nil _
  | @name role t isName =>
    rw [List.forall_mem_singleton]
    exact ⟨t, List.mem_singleton_self t, isName, rfl⟩
  | rule h ih | left h ih | right h ih => exact ih
  | seq ha hb iha ihb | more ha hb iha ihb =>
    intro x hx
    rcases List.mem_append.mp hx with hx | hx
    · obtain ⟨t, ht, hk⟩ := iha x hx
      exact ⟨t, List.mem_append_left _ ht, hk⟩
    · obtain ⟨t, ht, hk⟩ := ihb x hx
      exact ⟨t, List.mem_append_right _ ht, hk⟩

/-- Every local was known before or occurs. -/
theorem mem_of_bindAll {known names : List Bytes} {occ : List Occurrence}
    (h : bindAll known occ = some names) : ∀ n ∈ names, n ∈ known ∨ ∃ x ∈ occ, x.name = n := by
  induction occ generalizing known with
  | nil =>
    cases h
    exact fun n hn => .inl hn
  | cons o occ ih =>
    rw [bindAll_cons, Option.bind_eq_some_iff] at h
    obtain ⟨known', ho, h⟩ := h
    have hb : ∀ n ∈ known', n ∈ known ∨ o.name = n := by
      unfold bind at ho
      grind
    intro n hn
    rcases ih h n hn with hk | ⟨x, hx, hxn⟩
    · exact (hb n hk).imp_right fun h => ⟨o, List.mem_cons_self, h⟩
    · exact .inr ⟨x, List.mem_cons_of_mem _ hx, hxn⟩

end Derivation

namespace Grammar

theorem named_of_readsBlock {s s' : State} {stmts : List Stmt} (h : ReadsStmt .block s stmts s')
    (hs : Scanned s) (hl : s.locals = []) : ∀ v ∈ s'.locals, Token.IsName v.name := by
  obtain ⟨w, o, hw, hd, hb⟩ := Derivation.spans_of_readsStmt h
  rw [Derivation.localNames, hl] at hb
  intro v hv
  have hv : v.name ∈ Derivation.localNames s' := List.mem_map_of_mem hv
  rcases Derivation.mem_of_bindAll hb _ hv with hk | ⟨x, hx, hxn⟩
  · cases hk
  · obtain ⟨t, ht, hk, hlit⟩ := Derivation.ident_of_derives hd x hx
    have hscan : t.Scanned := hs t (hw ▸ List.mem_append_left _ ht)
    rw [← hxn, ← hlit]
    exact hscan.spelling hk

private theorem named_of_readsFunction {s s' : State} {f : Function} (h : ReadsFunction s f s')
    (hs : Scanned s) : ∀ v ∈ f.locals, Token.IsName v.name := by
  cases h with
  | @intro s s₁ stars t name opening closing brace stmts isInt areStars isName opens closes begins
      inner =>
    have hs₁ := hs.pop.grows (.pushAll _ stars)
    have hs₂ : Scanned { s with locals := [] } := hs₁.pop.pop.pop.pop
    exact named_of_readsBlock inner hs₂ rfl

private theorem named_of_readsFunctions {known : List Function} {s : State} {p : Program}
    (h : ReadsFunctions known s p) (hs : Scanned s)
    (hk : ∀ f ∈ known, ∀ v ∈ f.locals, Token.IsName v.name) :
    ∀ f ∈ p.funcs, ∀ v ∈ f.locals, Token.IsName v.name := by
  induction h with
  | done ended => exact hk
  | @more known s s₁ f p first isNew rest ih =>
    obtain ⟨-, -, hg⟩ := proper_of_readsFunction first hs
    have hf := named_of_readsFunction first hs
    refine ih (fun t ht => hs t (hg.1.subset ht)) ?_
    rw [List.forall_mem_append, List.forall_mem_singleton]
    exact ⟨hk, hf⟩

theorem named_of_parse {src : Bytes} {toks : List Token} {req : Requirements} {p : Program}
    (hsrc : Token.scan src = .ok toks) (h : parse toks req = .ok p) :
    ∀ f ∈ p.funcs, ∀ v ∈ f.locals, Token.IsName v.name := by
  obtain ⟨stop, -, hs⟩ := Token.scan_eq_ok hsrc
  have hs : Scanned (initial toks req) := hs
  have hl : (initial toks req).locals = [] := rfl
  rw [parse_eq_ok_iff] at h
  generalize initial toks req = i at h hs hl
  cases h with
  | topLevel opens inner ended =>
    rw [List.forall_mem_singleton]
    exact named_of_readsBlock inner hs.pop hl
  | functions notBlock inner => exact named_of_readsFunctions inner hs (by simp)

end Grammar

end StackC
