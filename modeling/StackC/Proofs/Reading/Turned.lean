import StackC.Proofs.Reading.Tail
import StackC.Proofs.Token.Listing

/-! Token lists in which comparisons in parentheses are turned around, and how such a comparison is
read. -/
namespace StackC.Derivation
open Grammar

/-- Tokens with the same spelling differ in their offsets only. -/
theorem exists_pos_of_spelling {t t' : Token} (h : t.spelling = t'.spelling) :
    ∃ pos, t' = { t with pos } := by
  simp only [Token.spelling, Prod.mk.injEq] at h
  exact ⟨t'.pos, by rw [h.1, h.2.1, h.2.2]⟩

theorem is_of_spelling {t t' : Token} (h : t.spelling = t'.spelling) (lit : Bytes) :
    t.is lit = t'.is lit := by
  obtain ⟨pos, rfl⟩ := exists_pos_of_spelling h
  rfl

theorem operator?_pos (n : Nat) (t : Token) (pos : Int) :
    operator? n { t with pos } = operator? n t := by
  match n with
  | 0 | 1 | 2 | 3 | _ + 4 => rfl

theorem operator?_of_spelling {t t' : Token} (h : t.spelling = t'.spelling) (n : Nat) :
    operator? n t = operator? n t' := by
  obtain ⟨pos, rfl⟩ := exists_pos_of_spelling h
  exact (operator?_pos n t pos).symm

/-- What is derived does not depend on offsets. -/
theorem derives_of_spelling {a : Phrase} {w w' : List Token} {o : List Occurrence}
    (h : Derives a w o) (hw : w.map Token.spelling = w'.map Token.spelling) : Derives a w' o := by
  have single {t : Token} {w' : List Token} (h : [t].map Token.spelling = w'.map Token.spelling) :
      ∃ pos, w' = [{ t with pos }] := by
    obtain ⟨t', w', rfl, ht, hw⟩ := List.map_eq_cons_iff.mp h.symm
    obtain ⟨pos, rfl⟩ := exists_pos_of_spelling ht.symm
    exact ⟨pos, by rw [List.map_eq_nil_iff.mp hw]⟩
  induction h generalizing w' with
  | empty => exact List.map_eq_nil_iff.mp hw.symm ▸ .empty
  | lit h =>
    obtain ⟨pos, rfl⟩ := single hw
    exact .lit h
  | @name role t h =>
    obtain ⟨pos, rfl⟩ := single hw
    exact .name (t := { t with pos }) h
  | number h =>
    obtain ⟨pos, rfl⟩ := single hw
    exact .number h
  | endMark h =>
    obtain ⟨pos, rfl⟩ := single hw
    exact .endMark h
  | rule h ih => exact .rule (ih hw)
  | seq ha hb iha ihb =>
    rw [List.map_append] at hw
    obtain ⟨v, v', rfl, hv, hv'⟩ := List.map_eq_append_iff.mp hw.symm
    exact .seq (iha hv.symm) (ihb hv'.symm)
  | left h ih => exact .left (ih hw)
  | right h ih => exact .right (ih hw)
  | none => exact List.map_eq_nil_iff.mp hw.symm ▸ .none
  | more ha h iha ih =>
    rw [List.map_append] at hw
    obtain ⟨v, v', rfl, hv, hv'⟩ := List.map_eq_append_iff.mp hw.symm
    exact .more (iha hv.symm) (ih hv'.symm)

/-- The phrase has no end mark. -/
def Phrase.isPart : Phrase → Bool
  | .endMark => false
  | .rule r => r != .topLevel && r != .functions
  | .seq a b | .alt a b => a.isPart && b.isPart
  | .many a => a.isPart
  | _ => true

theorem kind_ne_eof_of_derives {a : Phrase} {w : List Token} {o : List Occurrence}
    (h : Derives a w o) (ha : a.isPart) : ∀ t ∈ w, t.kind ≠ .eof := by
  induction h with
  | empty | none => simp
  | lit h =>
    rw [List.forall_mem_singleton]
    intro hk
    rw [Token.is_eq_false_of_eof hk] at h
    cases h
  | name h | number h => simp [h]
  | endMark => cases ha
  | @rule r w o h ih =>
    have hb : r.body.isPart := by
      cases r with
      | topLevel | functions => cases ha
      | _ => rfl
    exact ih hb
  | seq ha' hb iha ihb =>
    simp only [Phrase.isPart, Bool.and_eq_true] at ha
    simpa only [List.forall_mem_append] using ⟨iha ha.1, ihb ha.2⟩
  | left h ih =>
    simp only [Phrase.isPart, Bool.and_eq_true] at ha
    exact ih ha.1
  | right h ih =>
    simp only [Phrase.isPart, Bool.and_eq_true] at ha
    exact ih ha.2
  | more ha' h iha ih => simpa only [List.forall_mem_append] using ⟨iha ha, ih ha⟩

def comparison : Phrase := .seqs [.rule .add, levelOperator 2, .rule .add, .lit ")"]

/-- A comparison up to the parenthesis that closes it, and the same one with its operands in the
other order. -/
inductive Exchange : List Token → List Token → Prop
  | intro {a a' b b' : List Token} {g g' c c' : Token} {o o' : List Occurrence} {op : BinaryOp}
      {swap : Bool} (left : Derives (.rule .add) a o) (right : Derives (.rule .add) b o')
      (isOp : operator? 2 g = some (op, swap)) (isTurned : operator? 2 g' = some (op, !swap))
      (closes : c.is (ascii ")")) (sameLeft : a.map Token.spelling = a'.map Token.spelling)
      (sameRight : b.map Token.spelling = b'.map Token.spelling)
      (same : c.spelling = c'.spelling) :
      Exchange (a ++ g :: (b ++ [c])) (b' ++ g' :: (a' ++ [c']))

/-- The lists are spelled alike, but for comparisons in parentheses that are turned around. -/
inductive Turned : List Token → List Token → Prop
  | nil : Turned [] []
  | cons {t t' : Token} {v v' : List Token} (same : t.spelling = t'.spelling) (rest : Turned v v') :
      Turned (t :: v) (t' :: v')
  | turn {t t' : Token} {w w' v v' : List Token} (opens : t.is (ascii "("))
      (same : t.spelling = t'.spelling) (group : Exchange w w') (rest : Turned v v') :
      Turned (t :: (w ++ v)) (t' :: (w' ++ v'))

/-- The lists begin with a comparison and with the one that it is turned into. -/
def Facing (v v' : List Token) : Prop :=
  ∃ w w' r r', v = w ++ r ∧ v' = w' ++ r' ∧ Exchange w w' ∧ Turned r r'

theorem Exchange.length_eq {w w' : List Token} (h : Exchange w w') : w.length = w'.length := by
  cases h with
  | intro left right isOp isTurned closes sameLeft sameRight same =>
    have ha := congrArg List.length sameLeft
    have hb := congrArg List.length sameRight
    simp only [List.length_map, List.length_append, List.length_cons, List.length_nil] at ha hb ⊢
    omega

/-- Both sides are comparisons and the parenthesis behind them. -/
theorem Exchange.derives {w w' : List Token} (h : Exchange w w') :
    (∃ o, Derives comparison w o) ∧ ∃ o, Derives comparison w' o := by
  cases h with
  | @intro a a' b b' g g' c c' o o' op swap left right isOp isTurned closes sameLeft sameRight
      same =>
    obtain ⟨pos, rfl⟩ := exists_pos_of_spelling same
    have hg := (derives_levelOperator (n := 2) (by decide)).mpr
      ⟨g, Option.isSome_of_eq_some isOp, rfl, rfl⟩
    have hg' := (derives_levelOperator (n := 2) (by decide)).mpr
      ⟨g', Option.isSome_of_eq_some isTurned, rfl, rfl⟩
    have left' := derives_of_spelling left sameLeft
    have right' := derives_of_spelling right sameRight
    exact ⟨⟨_, .seq left (.seq hg (.seq right (.lit closes)))⟩,
      ⟨_, .seq right' (.seq hg' (.seq left' (.lit closes)))⟩⟩

theorem beforeEnd_append {w v : List Token} (h : ∀ t ∈ w, t.kind ≠ .eof) :
    Token.beforeEnd (w ++ v) = w ++ Token.beforeEnd v :=
  List.takeWhile_append_of_pos fun t ht => by simpa using h t ht

namespace Turned

variable {v v' : List Token}

theorem length_eq (h : Turned v v') : v.length = v'.length := by
  induction h with
  | nil => rfl
  | cons same rest ih => rw [List.length_cons, List.length_cons, ih]
  | turn opens same group rest ih => simp [group.length_eq, ih]

/-- Tokens that are spelled alike before lists that are turned. -/
theorem append {w w' : List Token} (hw : w.map Token.spelling = w'.map Token.spelling)
    (h : Turned v v') : Turned (w ++ v) (w' ++ v') := by
  induction w generalizing w' with
  | nil =>
    rw [List.map_nil, eq_comm, List.map_eq_nil_iff] at hw
    rwa [hw]
  | cons t w ih =>
    obtain ⟨t', w', rfl, ht, hw⟩ := List.map_eq_cons_iff.mp hw.symm
    exact .cons ht.symm (ih hw.symm)

/-- Tokens that are spelled alike are turned nowhere. -/
theorem of_spelling (h : v.map Token.spelling = v'.map Token.spelling) : Turned v v' := by
  simpa using append h .nil

/-- End marks stand at the same places. -/
theorem beforeEnd (h : Turned v v') : Turned (Token.beforeEnd v) (Token.beforeEnd v') := by
  induction h with
  | nil => exact .nil
  | @cons t t' v v' same rest ih =>
    obtain ⟨pos, rfl⟩ := exists_pos_of_spelling same
    rw [Token.beforeEnd, Token.beforeEnd, List.takeWhile_cons, List.takeWhile_cons]
    split
    · exact .cons rfl ih
    · exact .nil
  | @turn t t' w w' v v' opens same group rest ih =>
    obtain ⟨pos, rfl⟩ := exists_pos_of_spelling same
    obtain ⟨⟨o, hd⟩, ⟨o', hd'⟩⟩ := group.derives
    have hw := kind_ne_eof_of_derives (.seq (.lit opens) hd) rfl
    have hw' := kind_ne_eof_of_derives (.seq (.lit (t := { t with pos }) opens) hd') rfl
    have hl : Token.beforeEnd (t :: (w ++ v)) = t :: (w ++ Token.beforeEnd v) :=
      beforeEnd_append hw
    have hr : Token.beforeEnd ({ t with pos } :: (w' ++ v')) =
        { t with pos } :: (w' ++ Token.beforeEnd v') :=
      beforeEnd_append hw'
    rw [hl, hr]
    exact .turn opens rfl group ih

/-- The first tokens are spelled alike. Behind them the lists are turned again, or they begin with a
comparison that is. -/
theorem cons_cases {t : Token} {u : List Token} (h : Turned (t :: v) u) :
    ∃ pos v', u = { t with pos } :: v' ∧ (Turned v v' ∨ t.is (ascii "(") ∧ Facing v v') := by
  cases h with
  | cons same rest =>
    obtain ⟨pos, rfl⟩ := exists_pos_of_spelling same
    exact ⟨pos, _, rfl, .inl rest⟩
  | turn opens same group rest =>
    obtain ⟨pos, rfl⟩ := exists_pos_of_spelling same
    exact ⟨pos, _, rfl, .inr ⟨opens, _, _, _, _, rfl, rfl, group, rest⟩⟩

end Turned

/-- A comparison begins with a token of an expression. -/
theorem Facing.beginsExpr {t : Token} {v v' : List Token} (h : Facing (t :: v) v') :
    beginsExpr t := by
  obtain ⟨w, w', r, r', hw, -, hx, -⟩ := h
  obtain ⟨⟨o, hd⟩, -⟩ := hx.derives
  cases w with
  | nil => exact absurd rfl (ne_nil_of_derives hd rfl)
  | cons t' w =>
    cases hw
    simpa [Phrase.first, Phrase.nullable, Rule.first, comparison, Phrase.seqs]
      using first_of_derives hd

section Comparison

variable {s s₁ : State} {w u : List Token} {o : List Occurrence}

/-- A form takes the tokens that its phrase derives, as long as the next one does not carry on with
it. -/
theorem ahead_of_reads {f : Form} {xs : List Expr} (h : Reads f s xs s₁) (hs : s.ahead = w ++ u)
    (hw : Derives (phrase f) w o) (hf : reach f < nextSlack { s with ahead := u }) :
    s₁.ahead = u := by
  have hd := walks_of_derives hw hf
  have hp : State.pushAll { s with ahead := u } w = s := by rw [State.pushAll, ← hs]
  rw [hp] at hd
  exact List.append_inj_left' ((walks_of_reads h).unique hd) rfl

variable {a b : List Token} {g c : Token} {o' : List Occurrence} {op : BinaryOp} {swap : Bool}
  {x l r : Expr}

/-- A chain is at its end if no operator follows. -/
theorem eq_of_noOperator {n : Nat} {xs : List Expr} (h : Reads (.chain n l) s xs s₁)
    (hn : s.noOperator n) : xs = [l] ∧ s₁ = s := by
  cases h with
  | endChain => exact ⟨rfl, rfl⟩
  | chain isOp =>
    have ho : operator? n _ = none := hn
    rw [isOp] at ho
    cases ho

/-- The closing parenthesis of a group is no operator. -/
theorem noOperator_of_closing (h : s.starts (ascii ")")) {n : Nat} (hn : n < 6) :
    s.noOperator n := by
  have hs : nextSlack s = 7 := nextSlack_of_starts h
  exact noOperator_of_slack (by omega)

theorem operands_of_levels (ha : Derives (.rule .add) a o) (hb : Derives (.rule .add) b o')
    (hg : operator? 2 g = some (op, swap)) (hc : c.is (ascii ")"))
    (hs : s.ahead = a ++ g :: (b ++ c :: u)) (h : Reads (.binary 4) s [x] s₁) :
    ∃ l r s₂ s₃, Reads (.binary 2) s [l] (State.push s₂ g) ∧ s₂.ahead = b ++ c :: u ∧
      Reads (.binary 2) s₂ [r] s₃ ∧ s₃.ahead = c :: u ∧ x = operation swap g.pos op l r ∧
      s₁ = { s₃ with req := s₃.req.require op } := by
  cases h with
  | level left rest =>
  cases left with
  | @level s s₂ s₃ n l l' left rest' =>
  have hn : nextSlack { s with ahead := g :: (b ++ c :: u) } = 3 :=
    nextSlack_of_operator? (s := { s with ahead := b ++ c :: u }) (Option.isSome_of_eq_some hg)
  have h₂ : s₂.ahead = g :: (b ++ c :: u) :=
    ahead_of_reads left hs ha (by rw [hn]; decide)
  cases rest' with
  | endChain noOperator =>
    rw [State.noOperator, h₂, List.head?_cons, Option.bind_some, hg] at noOperator
    cases noOperator
  | @chain s₂ s₃ s₄ t n op' swap' l r x isOp right rest' =>
    rw [State.push_ahead, List.cons.injEq] at h₂
    obtain ⟨rfl, h₂⟩ := h₂
    cases hg.symm.trans isOp
    have hn : nextSlack { s₂ with ahead := c :: u } = 7 := nextSlack_cons hc u
    have h₃ : s₃.ahead = c :: u := ahead_of_reads right h₂ hb (by rw [hn]; decide)
    have ends : s₃.starts (ascii ")") := by rw [State.starts, h₃]; exact hc
    obtain ⟨hx, rfl⟩ := eq_of_noOperator rest' (noOperator_of_closing ends (by decide))
    cases hx
    obtain ⟨hx, rfl⟩ := eq_of_noOperator rest (noOperator_of_closing ends (by decide))
    cases hx
    exact ⟨l, r, s₂, s₃, left, h₂, right, h₃, rfl, rfl⟩

/-- A comparison in parentheses is read as its two operands. -/
theorem operands_of_reads (ha : Derives (.rule .add) a o) (hb : Derives (.rule .add) b o')
    (hg : operator? 2 g = some (op, swap)) (hc : c.is (ascii ")"))
    (hs : s.ahead = a ++ g :: (b ++ c :: u)) (h : Reads .assign s [x] s₁) :
    ∃ l r s₂ s₃, Reads (.binary 2) s [l] (State.push s₂ g) ∧ s₂.ahead = b ++ c :: u ∧
      Reads (.binary 2) s₂ [r] s₃ ∧ s₃.ahead = c :: u ∧ x = operation swap g.pos op l r ∧
      s₁ = { s₃ with req := s₃.req.require op } := by
  cases h with
  | value inner => exact operands_of_levels ha hb hg hc hs inner
  | @assign s s₁ s₂ t l r left eq right =>
    obtain ⟨_, _, _, s₃, -, -, -, h₃, -, hs₃⟩ := operands_of_levels ha hb hg hc hs left
    have ht := (congrArg State.ahead hs₃).trans h₃
    rw [State.push_ahead, List.cons.injEq] at ht
    rw [ht.1, Token.is_eq_false_of_is hc (by decide)] at eq
    cases eq

/-- Two operands are read as a comparison if a parenthesis closes it. -/
theorem reads_of_operands (hl : Reads (.binary 2) s [l] (s₁.push g))
    (hg : operator? 2 g = some (op, swap)) {s₂ : State} (hr : Reads (.binary 2) s₁ [r] s₂)
    (hc : s₂.starts (ascii ")")) :
    Reads .assign s [operation swap g.pos op l r] { s₂ with req := s₂.req.require op } := by
  have stops (n : Nat) (hn : n < 6) : State.noOperator { s₂ with req := s₂.req.require op } n :=
    noOperator_of_closing hc hn
  have hn : nextSlack { s₂ with req := s₂.req.require op } = 7 := nextSlack_of_starts hc
  exact .value (.level (.level hl (.chain hg hr (.endChain (stops 2 (by decide)))))
    (.endChain (stops 3 (by decide)))) (starts_eq_false (by rw [hn]; decide))

end Comparison

end StackC.Derivation
