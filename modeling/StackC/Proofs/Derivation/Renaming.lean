import StackC.Proofs.Derivation.Course

/-! The grammar does not look at names. With names of their own, token lists that it derives meet
all conditions on names, so a walk passes them. -/
namespace StackC

theorem Token.is_eq_false_of_eof {t : Token} (h : t.kind = .eof) (lit : Bytes) :
    t.is lit = false := by
  simp [Token.is, h]

namespace Derivation
open Grammar

/-- The names get longer from left to right, within these bounds. -/
structure Rising (low high : Nat) (occ : List Occurrence) : Prop where
  bounds : ∀ x ∈ occ, low ≤ x.name.length ∧ x.name.length < high
  longer : occ.Pairwise (·.name.length < ·.name.length)

theorem Rising.nil (low : Nat) : Rising low low [] := ⟨by simp, .nil⟩

theorem Rising.append {low mid high : Nat} {o p : List Occurrence} (ho : Rising low mid o)
    (hp : Rising mid high p) (hl : low ≤ mid) (hh : mid ≤ high) : Rising low high (o ++ p) := by
  refine ⟨fun x hx => ?_, List.pairwise_append.mpr ⟨ho.longer, hp.longer, fun x hx y hy => ?_⟩⟩
  · rcases List.mem_append.mp hx with hx | hx
    · have hb := ho.bounds x hx
      omega
    · have hb := hp.bounds x hx
      omega
  · have hbx := ho.bounds x hx
    have hby := hp.bounds y hy
    omega

/-- Names that get longer satisfy all conditions on names. -/
theorem Rising.sideConditions {high : Nat} {occ : List Occurrence}
    (h : Rising (scratchName.length + 1) high occ) : SideConditions occ where
  declaredFirst x rest hs hx := by
    have hp := h.longer.sublist hs.sublist
    intro y hy _ he
    have hlt := List.rel_of_pairwise_cons hp ((List.takeWhile_prefix _).subset hy)
    rw [List.mem_singleton.mp he] at hlt
    exact Nat.lt_irrefl _ hlt
  unreserved x hx _ he := by
    have hb := (h.bounds x hx).1
    rw [he] at hb
    omega
  distinct := by
    refine (h.longer.filter _).map Occurrence.name fun x y hlt he => ?_
    rw [he] at hlt
    exact Nat.lt_irrefl _ hlt

/-- The names of what is derived can be replaced by names that get longer. -/
theorem exists_rising {a : Phrase} {w : List Token} {o : List Occurrence} (h : Derives a w o)
    (low : Nat) :
    ∃ w' o', Derives a w' o' ∧ List.Forall₂ Alike w' w ∧ Rising low (low + w.length) o' := by
  induction h generalizing low with
  | empty => exact ⟨[], [], .empty, .nil, .nil low⟩
  | @lit text t h => exact ⟨[t], [], .lit h, .cons (.refl t) .nil, by simp, .nil⟩
  | @name role t h =>
    let t' : Token := { t with lit := List.replicate low 120 }
    refine ⟨[t'], _, .name (t := t') h, .cons ⟨rfl, fun lit => ?_⟩ .nil, by simp [t'], by simp⟩
    rw [Token.is_eq_false_of_ident (t := t') h, Token.is_eq_false_of_ident h]
  | @number t h => exact ⟨[t], [], .number h, .cons (.refl t) .nil, by simp, .nil⟩
  | @endMark t h => exact ⟨[t], [], .endMark h, .cons (.refl t) .nil, by simp, .nil⟩
  | rule h ih =>
    obtain ⟨w', o', hd, hw, hr⟩ := ih low
    exact ⟨w', o', .rule hd, hw, hr⟩
  | @seq a b v w o p ha hb iha ihb =>
    obtain ⟨v', o', hd, hv, hr⟩ := iha low
    obtain ⟨w', p', hd', hw, hr'⟩ := ihb (low + v.length)
    refine ⟨v' ++ w', o' ++ p', .seq hd hd', List.rel_append hv hw, ?_⟩
    rw [List.length_append, ← Nat.add_assoc]
    exact hr.append hr' (by omega) (by omega)
  | left h ih =>
    obtain ⟨w', o', hd, hw, hr⟩ := ih low
    exact ⟨w', o', .left hd, hw, hr⟩
  | right h ih =>
    obtain ⟨w', o', hd, hw, hr⟩ := ih low
    exact ⟨w', o', .right hd, hw, hr⟩
  | none => exact ⟨[], [], .none, .nil, .nil low⟩
  | @more a v w o p ha hb iha ihb =>
    obtain ⟨v', o', hd, hv, hr⟩ := iha low
    obtain ⟨w', p', hd', hw, hr'⟩ := ihb (low + v.length)
    refine ⟨v' ++ w', o' ++ p', .more hd hd', List.rel_append hv hw, ?_⟩
    rw [List.length_append, ← Nat.add_assoc]
    exact hr.append hr' (by omega) (by omega)

theorem beside_of_alike {w w' : List Token} (u u' : List Token) (h : List.Forall₂ Alike w w') :
    Beside u u' (w ++ u) (w' ++ u') := by
  induction h with
  | nil => exact .here
  | cons alike rest ih => exact .cons alike ih

/-- A walk passes like tokens. -/
theorem Walks.congr {a : Phrase} {w w' : List Token} (h : Walks a w [])
    (hw : List.Forall₂ Alike w w') : Walks a w' [] := by
  have hb : Beside [] [] w w' := by
    simpa only [List.append_nil] using beside_of_alike [] [] hw
  obtain ⟨v, hv, hb⟩ := h.beside (fun _ => rfl) List.suffix_rfl hb
  rwa [hb.eq] at hv

/-- The end of the tokens stays where it is. -/
theorem Walks.stop {a : Phrase} {s s' : State} (h : Walks a s.tokens s'.tokens) :
    s'.stop = s.stop := by
  obtain ⟨w, hw⟩ := h.suffix
  rw [State.tokens, State.tokens, ← List.append_assoc] at hw
  have he := (List.append_inj' hw rfl).2
  simpa [Token.eof] using he

/-- Names that get longer can be bound from left to right. -/
theorem Rising.isSome_bindAll {high : Nat} {occ : List Occurrence}
    (h : Rising (scratchName.length + 1) high occ) : (bindAll [] occ).isSome := by
  have hc := h.sideConditions
  rw [isSome_bindAll_iff List.not_mem_nil]
  exact ⟨hc.declaredFirst, hc.unreserved, fun _ _ _ => List.not_mem_nil⟩

/-- A walk passes all that the phrase of a form derives, as long as the next token does not carry
on with the form. -/
theorem walks_of_derives {f : Form} {w : List Token} {o : List Occurrence} {s : State}
    (h : Derives (phrase f) w o) (hf : reach f < nextSlack s) :
    Walks (phrase f) (s.pushAll w).tokens s.tokens := by
  obtain ⟨w', o', hd, hw, hr⟩ := exists_rising h (scratchName.length + 1)
  obtain ⟨names, hn⟩ := Option.isSome_iff_exists.mp hr.isSome_bindAll
  let s₁ : State := { s.pushAll w' with locals := [] }
  let s₂ : State := { s with locals := names.map fun name => ⟨name, .int, 0⟩ }
  have hspan : Spans (phrase f) s₁ s₂ := by
    refine ⟨w', o', rfl, hd, ?_⟩
    simpa [localNames, s₁, s₂, Function.comp_def] using hn
  obtain ⟨xs, s₃, hread, hagree⟩ := complete f s₁ s₂ hspan hf
  have hwalk := walks_of_reads hread
  have ht : s₃.tokens = s.tokens := by
    rw [State.tokens, hwalk.stop, hagree.1]
    rfl
  rw [ht] at hwalk
  have hbeside : Beside s.tokens s.tokens s₁.tokens (s.pushAll w).tokens := by
    simpa [State.tokens, State.pushAll, s₁] using beside_of_alike _ _ hw
  obtain ⟨v, hv, hb⟩ := hwalk.beside (fun _ => rfl) List.suffix_rfl hbeside
  rwa [hb.eq] at hv

/-- A whole program is a part without an end mark and the end mark. -/
theorem derives_programPhrase {r : Rule} {w : List Token} {o : List Occurrence}
    (hr : r = .topLevel ∨ r = .functions) (h : Derives (.rule r) w o) :
    ∃ v e, w = v ++ [e] ∧ e.kind = .eof ∧ Derives (programPhrase (r == .topLevel)) v o := by
  have hseq : Derives (.seq (programPhrase (r == .topLevel)) .endMark) w o := by
    rcases hr with rfl | rfl
    · exact derives_seq_assoc.mp (derives_rule.mp h)
    · exact derives_rule.mp h
  obtain ⟨v, o₁, hv, _, _, he, rfl, rfl⟩ := derives_seq.mp hseq
  obtain ⟨e, hk, rfl, rfl⟩ := derives_endMark.mp he
  exact ⟨v, e, rfl, hk, by simpa using hv⟩

/-- The first token tells the two kinds of programs apart. -/
theorem rule_of_derives {r : Rule} {w : List Token} {o : List Occurrence}
    (hr : r = .topLevel ∨ r = .functions) (h : Derives (.rule r) w o) : r = startRule w := by
  cases w with
  | nil => exact absurd rfl (ne_nil_of_derives h rfl)
  | cons t w =>
    have hf := first_of_derives h
    rcases hr with rfl | rfl
    · exact (if_pos hf).symm
    · refine (if_neg ?_).symm
      simp only [Phrase.first, Rule.first, Bool.or_eq_true, beq_iff_eq] at hf
      rcases hf with hf | hf
      · simpa using Token.is_eq_false_of_is hf (by decide)
      · simp [Token.is_eq_false_of_eof hf]

/-- A walk passes every token list that the grammar derives. -/
theorem walks_of_derives_program {r : Rule} {w : List Token} {o : List Occurrence}
    (hr : r = .topLevel ∨ r = .functions) (h : Derives (.rule r) w o) : Walks (.rule r) w [] := by
  obtain ⟨w', o', hd, hw, hrise⟩ := exists_rising h (scratchName.length + 1)
  obtain ⟨v, e, rfl, hk, hv⟩ := derives_programPhrase hr hd
  let s : State := { ahead := v, stop := e.pos, req := {} }
  have hstart : startRule s.tokens = startRule (v ++ [e]) := by
    cases v with
    | nil => simp [startRule, s, State.tokens, Token.is_eq_false_of_eof hk,
        Token.is_eq_false_of_eof (t := .eof e.pos) rfl]
    | cons t v => rfl
  have hrule : r = startRule s.tokens := (rule_of_derives hr hd).trans hstart.symm
  have hb : s.starts (ascii "\x7b") = (r == .topLevel) := by
    rw [hrule, startRule, ← opens_lit]
    change (Phrase.lit "\x7b").opens s.tokens =
      ((if (Phrase.lit "\x7b").opens s.tokens then Rule.topLevel else .functions) == .topLevel)
    cases (Phrase.lit "\x7b").opens s.tokens <;> rfl
  obtain ⟨p, hp⟩ := readsProgram_of_derives (s := s) rfl (by rwa [hb]) hrise.sideConditions
  have hwalk := walks_of_readsProgram hp
  rw [← hrule] at hwalk
  have hend : Alike (.eof e.pos) e := by
    refine ⟨hk.symm, fun lit => ?_⟩
    rw [Token.is_eq_false_of_eof rfl, Token.is_eq_false_of_eof hk]
  have hv : List.Forall₂ Alike v v := List.forall₂_same.mpr fun t _ => .refl t
  exact (hwalk.congr (List.rel_append hv (.cons hend .nil))).congr hw

end Derivation
end StackC
