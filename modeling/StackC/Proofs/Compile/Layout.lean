import StackC.Proofs.Compile.Located
import StackC.Proofs.Recast.Parse
import StackC.Proofs.Token.Listing

/-! Sources with the same tokens are compiled alike, wherever the tokens stand. -/
namespace StackC

namespace Recast

/-- Each offset becomes the one at its index in another list. -/
def between (ps qs : List Int) : Recast where
  pos p := if p = SourceError.noOffset then p else qs.getD (ps.idxOf p) p
  req := id
  pos_noOffset := if_pos rfl

theorem pos_between {ps qs : List Int} (hd : ps.Nodup) {k : Nat} {p q : Int} (hp : ps[k]? = some p)
    (hq : qs[k]? = some q) (hne : p ≠ SourceError.noOffset) : (between ps qs).pos p = q := by
  obtain ⟨hk, rfl⟩ := List.getElem?_eq_some_iff.mp hp
  have hi : ps.idxOf ps[k] = k := hd.idxOf_getElem k hk
  simp only [between, if_neg hne, hi, List.getD_eq_getElem?_getD, hq, Option.getD_some]

/-- The tokens of one text stand at the places of those of another. -/
def onto (toks toks' : List Token) : Recast := between (toks.map Token.pos) (toks'.map Token.pos)

variable {src : Bytes} {toks toks' : List Token}

theorem pos_onto (places : Token.Places src toks) {k : Nat} {t t' : Token} (ht : toks[k]? = some t)
    (ht' : toks'[k]? = some t') : (onto toks toks').pos t.pos = t'.pos := by
  have hd : (toks.map Token.pos).Nodup :=
    List.pairwise_map.mpr (places.increasing.imp fun h => Int.ne_of_lt h)
  have hne : t.pos ≠ SourceError.noOffset := by
    have hb := places.bounds (List.mem_of_getElem? ht)
    exact fun he => absurd (he ▸ hb.1) (by decide)
  have hp : (toks.map Token.pos)[k]? = some t.pos := by rw [List.getElem?_map, ht, Option.map_some]
  have hq : (toks'.map Token.pos)[k]? = some t'.pos := by
    rw [List.getElem?_map, ht', Option.map_some]
  exact pos_between hd hp hq hne

private theorem map_token_onto (places : Token.Places src toks)
    (hs : toks.map Token.spelling = toks'.map Token.spelling) :
    toks.map (onto toks toks').token = toks' := by
  apply List.ext_getElem?
  intro k
  have hk : (toks[k]?).map Token.spelling = (toks'[k]?).map Token.spelling := by
    rw [← List.getElem?_map, hs, List.getElem?_map]
  rw [List.getElem?_map]
  cases ht : toks[k]? with
  | none =>
    rw [ht, Option.map_none, eq_comm, Option.map_eq_none_iff] at hk
    rw [hk]
    rfl
  | some t =>
    rw [ht, Option.map_some, eq_comm, Option.map_eq_some_iff] at hk
    obtain ⟨t', ht', hsp⟩ := hk
    simp only [Token.spelling, Prod.mk.injEq] at hsp
    rw [ht', Option.map_some, Option.some.injEq, token, pos_onto places ht ht', ← hsp.1, ← hsp.2.1,
      ← hsp.2.2]

end Recast

theorem Lowering.Alike.map {A B : Type} {m : Recast} {x y : Except Failure A} (h : Alike m x y)
    (f : A → B) : Alike m (x.map f) (y.map f) := by
  cases h with
  | ok a => exact .ok (f a)
  | error e => exact .error e

private theorem endOffset_map {m : Recast} {toks : List Token} {t : Token}
    (h : toks.find? (·.kind == .eof) = some t) :
    Grammar.endOffset (toks.map m.token) = m.pos (Grammar.endOffset toks) := by
  have hm : (toks.map m.token).find? (·.kind == .eof) = some (m.token t) := by
    rw [List.find?_map]
    exact congrArg (Option.map m.token) h
  rw [Grammar.endOffset, Grammar.endOffset, hm, h]
  rfl

/-- Tokens at other places are compiled alike. -/
theorem alike_compile {m : Recast} {src src' : Bytes} {toks toks' : List Token}
    (hsrc : Token.scan src = .ok toks) (hsrc' : Token.scan src' = .ok toks')
    (htoks : toks.map m.token = toks') (hreq : m.req = id) {mode : Mode} (hmode : mode ≠ .tokens) :
    Lowering.Alike m (compile mode src).result (compile mode src').result := by
  have hrespects : m.Respects toks := fun _ _ _ _ _ _ _ => by rw [hreq]; rfl
  have twin := Grammar.twin_parse {} hrespects (endOffset_map (Token.places_of_scan hsrc).find?_eof)
  rw [htoks, hreq, id] at twin
  cases hp : Grammar.parse toks {} with
  | error halt =>
    rw [hp] at twin
    generalize hp' : Grammar.parse toks' {} = y at twin
    cases twin with
    | error =>
      rw [compile_of_halt hmode hsrc hp, compile_of_halt hmode hsrc' hp']
      exact .error (.source halt.error)
  | ok p =>
    rw [hp] at twin
    generalize hp' : Grammar.parse toks' {} = y at twin
    cases twin with
    | ok hq =>
      subst hq
      obtain ⟨d, hd, hast, hasm⟩ := compile_of_parse hsrc hp
      obtain ⟨d', hd', hast', hasm'⟩ := compile_of_parse hsrc' hp'
      cases mode with
      | tokens => exact absurd rfl hmode
      | ast =>
        rw [m.dump?_program, hd, Option.some.injEq] at hd'
        rw [hast, hast', hd']
        exact .ok _
      | asm =>
        have proper := Grammar.proper_of_parse hsrc hp
        have halike := Lowering.alike_mainPart (m := m) proper (by rw [hreq]; exact fun _ h => h)
        have hr : (m.program p).req = p.req := by rw [Recast.program, hreq]; rfl
        rw [hasm, hasm', Lowering.program_eq_mainPart, Lowering.program_eq_mainPart, hr]
        exact (halike.map _).map _

theorem compile_tokens_eq_ok {src out : Bytes} (h : (compile .tokens src).result = .ok out) :
    ∃ toks, Token.scan src = .ok toks ∧ out = Token.listing toks := by
  cases hsrc : Token.scan src with
  | error e => simp [compile, hsrc] at h
  | ok toks =>
    simp only [compile, hsrc, if_true, Except.ok.injEq] at h
    exact ⟨toks, rfl, h.symm⟩

/-- Two sources are compiled to the same text, or are refused with the same message, either at
tokens of the same number or both without a place. -/
def CompiledAlike (mode : Mode) (src src' : Bytes) : Prop :=
  (∃ text, (compile mode src).result = .ok text ∧ (compile mode src').result = .ok text) ∨
    ∃ (e e' : SourceError) (toks toks' : List Token),
      (compile mode src).result = .error (.source e) ∧
      (compile mode src').result = .error (.source e') ∧
      e.diagnostic.stage = e'.diagnostic.stage ∧ e.diagnostic.message = e'.diagnostic.message ∧
      Token.scan src = .ok toks ∧ Token.scan src' = .ok toks' ∧
      (e.offset = SourceError.noOffset ∧ e'.offset = SourceError.noOffset ∨
        ∃ (k : Nat) (t t' : Token), toks[k]? = some t ∧ toks'[k]? = some t' ∧
          e.offset = t.pos ∧ e'.offset = t'.pos)

/-- Sources whose tokens are listed alike are compiled alike. -/
theorem compiledAlike_of_listing {src src' out : Bytes}
    (h : (compile .tokens src).result = .ok out) (h' : (compile .tokens src').result = .ok out)
    (mode : Mode) : CompiledAlike mode src src' := by
  by_cases hmode : mode = .tokens
  · subst hmode
    exact .inl ⟨out, h, h'⟩
  obtain ⟨toks, hsrc, rfl⟩ := compile_tokens_eq_ok h
  obtain ⟨toks', hsrc', hlist⟩ := compile_tokens_eq_ok h'
  have places := Token.places_of_scan hsrc
  have hmap := Recast.map_token_onto places (Token.spellings_of_listing hsrc hsrc' hlist)
  have halike := alike_compile hsrc hsrc' hmap rfl hmode
  generalize hx : (compile mode src).result = x at halike
  generalize hy : (compile mode src').result = y at halike
  cases halike with
  | ok text => exact .inl ⟨text, hx, hy⟩
  | error f =>
    obtain ⟨e, rfl, hloc⟩ := located_of_compile hx
    refine .inr ⟨e, (Recast.onto toks toks').error e, toks, toks', hx, hy, rfl, rfl, hsrc, hsrc',
      ?_⟩
    rcases hloc.exists_token hsrc with hnone | ⟨t, ht, hpos⟩
    · refine .inl ⟨hnone, ?_⟩
      rw [Recast.error, hnone, Recast.pos_noOffset]
    · obtain ⟨k, hk⟩ := List.mem_iff_getElem?.mp ht
      have hk' : toks'[k]? = some ((Recast.onto toks toks').token t) := by
        rw [← hmap, List.getElem?_map, hk, hmap, Option.map_some]
      refine .inr ⟨k, t, _, hk, hk', hpos, ?_⟩
      rw [Recast.error, hpos]
      rfl

/-- The tokens of `numberTarget` without the space between them. -/
def tightTarget : Bytes := ascii "\x7b1=2;\x7d"

def tightTargetTokens : List Token :=
  [⟨.punct, 0, ascii "\x7b", 0⟩, ⟨.num, 1, ascii "1", 1⟩, ⟨.punct, 2, ascii "=", 0⟩,
    ⟨.num, 3, ascii "2", 2⟩, ⟨.punct, 4, ascii ";", 0⟩, ⟨.punct, 5, ascii "\x7d", 0⟩, .eof 6]

theorem compiledAlike_targets :
    (∃ out, (compile .tokens numberTarget).result = .ok out ∧
      (compile .tokens tightTarget).result = .ok out) ∧
      CompiledAlike .asm numberTarget tightTarget := by
  have hsrc : Token.scan numberTarget = .ok numberTargetTokens := by decide +kernel
  have hsrc' : Token.scan tightTarget = .ok tightTargetTokens := by decide +kernel
  have h : (compile .tokens numberTarget).result = .ok (Token.listing numberTargetTokens) := by
    simp [compile, hsrc]
  have h' : (compile .tokens tightTarget).result = .ok (Token.listing numberTargetTokens) := by
    have hl : Token.listing tightTargetTokens = Token.listing numberTargetTokens := by
      decide +kernel
    simp [compile, hsrc', hl]
  exact ⟨⟨_, h, h'⟩, compiledAlike_of_listing h h' .asm⟩

end StackC
