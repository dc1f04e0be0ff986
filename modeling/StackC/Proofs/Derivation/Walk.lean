import StackC.Proofs.Derivation.Sound

/-! A walk along the grammar that the next token alone decides. It takes at most one course through
a token list, and where it is stuck, what it has passed can still be completed. -/
namespace StackC.Derivation
open Grammar

/-- The right-hand side of a rule with the two operands that begin with a name put together, so
that the next token tells its alternatives apart. -/
def Rule.factored : Rule → Phrase
  | .primary =>
    .alt (.seqs [.lit "(", .rule .expr, .lit ")"]) <|
    .alt (.seq (.name .used) (.opt (.seqs [.lit "(", .opt argumentPhrase, .lit ")"]))) .number
  | r => r.body

namespace Phrase

def isToken : Phrase → Bool
  | lit _ | name _ | number | endMark => true
  | _ => false

def opens (a : Phrase) (v : List Token) : Bool := v.head?.any fun t => a.first t

@[simp] theorem opens_cons (a : Phrase) (t : Token) (v : List Token) :
    a.opens (t :: v) = a.first t := rfl

theorem opens_seq (a b : Phrase) (v : List Token) :
    (seq a b).opens v = (a.opens v || (a.nullable && b.opens v)) := by
  cases v <;> simp [opens, first]

theorem opens_seq_of {a b : Phrase} {v : List Token} (h : a.opens v) : (seq a b).opens v := by
  rw [opens_seq, h, Bool.true_or]

theorem closed_seq {a b : Phrase} {v : List Token} (h : a.opens v = false)
    (hn : a.nullable = false) : (seq a b).opens v = false := by
  rw [opens_seq, h, hn, Bool.false_and, Bool.or_false]

theorem opens_alt (a b : Phrase) (v : List Token) :
    (alt a b).opens v = (a.opens v || b.opens v) := by
  cases v <;> simp [opens, first]

theorem opens_many (a : Phrase) (v : List Token) : (many a).opens v = a.opens v := by
  cases v <;> simp [opens, first]

/-- The alternative that the next token picks, the last one if it picks no other. -/
def pick (v : List Token) : Phrase → Phrase
  | alt a b => if a.opens v then a else b.pick v
  | a => a

end Phrase

/-- The walk along a phrase leads from one list of tokens ahead to another. -/
inductive Walks : Phrase → List Token → List Token → Prop
  | empty {v : List Token} : Walks .empty v v
  | token {a : Phrase} {t : Token} {v : List Token} (single : a.isToken) (fits : a.first t) :
      Walks a (t :: v) v
  | rule {r : Rule} {v v' : List Token} (body : Walks r.factored v v') : Walks (.rule r) v v'
  | seq {a b : Phrase} {v v₁ v₂ : List Token} (first : Walks a v v₁) (rest : Walks b v₁ v₂) :
      Walks (.seq a b) v v₂
  | left {a b : Phrase} {v v' : List Token} (opens : a.opens v) (part : Walks a v v') :
      Walks (.alt a b) v v'
  | right {a b : Phrase} {v v' : List Token} (closed : a.opens v = false) (part : Walks b v v') :
      Walks (.alt a b) v v'
  | none {a : Phrase} {v : List Token} (closed : a.opens v = false) : Walks (.many a) v v
  | more {a : Phrase} {v v₁ v₂ : List Token} (opens : a.opens v) (first : Walks a v v₁)
      (rest : Walks (.many a) v₁ v₂) : Walks (.many a) v v₂

/-- The walk along a phrase cannot go on where these tokens are ahead. -/
inductive Stuck : Phrase → List Token → List Token → Prop
  | token {a : Phrase} {v : List Token} (single : a.isToken) (misfit : a.opens v = false) :
      Stuck a v v
  | rule {r : Rule} {v u : List Token} (body : Stuck r.factored v u) : Stuck (.rule r) v u
  | first {a b : Phrase} {v u : List Token} (part : Stuck a v u) : Stuck (.seq a b) v u
  | rest {a b : Phrase} {v v₁ u : List Token} (first : Walks a v v₁) (part : Stuck b v₁ u) :
      Stuck (.seq a b) v u
  | left {a b : Phrase} {v u : List Token} (opens : a.opens v) (part : Stuck a v u) :
      Stuck (.alt a b) v u
  | right {a b : Phrase} {v u : List Token} (closed : a.opens v = false) (part : Stuck b v u) :
      Stuck (.alt a b) v u
  | item {a : Phrase} {v u : List Token} (opens : a.opens v) (part : Stuck a v u) :
      Stuck (.many a) v u
  | later {a : Phrase} {v v₁ u : List Token} (opens : a.opens v) (first : Walks a v v₁)
      (part : Stuck (.many a) v₁ u) : Stuck (.many a) v u

variable {a b : Phrase} {r : Rule} {v v₁ v₂ u : List Token}

section Parts

theorem Walks.body (h : Walks (.rule r) v v₁) : Walks r.factored v v₁ := by
  cases h with
  | token single => cases single
  | rule body => exact body

theorem Walks.exists_seq (h : Walks (.seq a b) v v₂) : ∃ v₁, Walks a v v₁ ∧ Walks b v₁ v₂ := by
  cases h with
  | token single => cases single
  | seq first rest => exact ⟨_, first, rest⟩

theorem Stuck.body (h : Stuck (.rule r) v u) : Stuck r.factored v u := by
  cases h with
  | token single => cases single
  | rule body => exact body

theorem Stuck.first_or_rest (h : Stuck (.seq a b) v u) :
    Stuck a v u ∨ ∃ v₁, Walks a v v₁ ∧ Stuck b v₁ u := by
  cases h with
  | token single => cases single
  | first part => exact .inl part
  | rest first part => exact .inr ⟨_, first, part⟩

theorem Walks.of_pick (h : Walks (a.pick v) v v₁) : Walks a v v₁ := by
  induction a with
  | alt a b iha ihb =>
    rw [Phrase.pick] at h
    split at h
    · next ho => exact .left ho h
    · next ho => exact .right (Bool.eq_false_iff.mpr ho) (ihb h)
  | _ => exact h

theorem Stuck.of_pick (h : Stuck (a.pick v) v u) : Stuck a v u := by
  induction a with
  | alt a b iha ihb =>
    rw [Phrase.pick] at h
    split at h
    · next ho => exact .left ho h
    · next ho => exact .right (Bool.eq_false_iff.mpr ho) (ihb h)
  | _ => exact h

end Parts

section Course

/-- The tokens ahead decide the whole course of a walk. -/
theorem Walks.unique (h : Walks a v v₁) (h' : Walks a v v₂) : v₁ = v₂ := by
  -- Two walks could part only at a choice, and what opens there tells its sides apart.
  induction h generalizing v₂ with
  | empty =>
    cases h' with
    | token single => cases single
    | empty => rfl
  | token single =>
    cases h' with
    | token => rfl
    | _ => cases single
  | rule body ih =>
    cases h' with
    | token single => cases single
    | rule body' => exact ih body'
  | seq first rest ih₁ ih₂ =>
    cases h' with
    | token single => cases single
    | seq first' rest' =>
      cases ih₁ first'
      exact ih₂ rest'
  | left opens part ih =>
    cases h' with
    | token single => cases single
    | left _ part' => exact ih part'
    | right closed => exact absurd (opens.symm.trans closed) (by simp)
  | right closed part ih =>
    cases h' with
    | token single => cases single
    | left opens => exact absurd (opens.symm.trans closed) (by simp)
    | right _ part' => exact ih part'
  | none closed =>
    cases h' with
    | token single => cases single
    | none => rfl
    | more opens => exact absurd (opens.symm.trans closed) (by simp)
  | more opens first rest ih₁ ih₂ =>
    cases h' with
    | token single => cases single
    | none closed => exact absurd (opens.symm.trans closed) (by simp)
    | more _ first' rest' =>
      cases ih₁ first'
      exact ih₂ rest'

/-- A walk that leads through is not stuck. -/
theorem Walks.not_stuck (h : Walks a v v₁) : ¬ Stuck a v u := by
  intro h'
  induction h generalizing u with
  | empty =>
    cases h' with
    | token single => cases single
  | token single fits =>
    cases h' with
    | token _ misfit => exact absurd (fits.symm.trans misfit) (by simp)
    | _ => cases single
  | rule body ih =>
    cases h' with
    | token single => cases single
    | rule body' => exact ih body'
  | seq first rest ih₁ ih₂ =>
    cases h' with
    | token single => cases single
    | first part => exact ih₁ part
    | rest first' part =>
      cases first.unique first'
      exact ih₂ part
  | left opens part ih =>
    cases h' with
    | token single => cases single
    | left _ part' => exact ih part'
    | right closed => exact absurd (opens.symm.trans closed) (by simp)
  | right closed part ih =>
    cases h' with
    | token single => cases single
    | left opens => exact absurd (opens.symm.trans closed) (by simp)
    | right _ part' => exact ih part'
  | none closed =>
    cases h' with
    | token single => cases single
    | item opens => exact absurd (opens.symm.trans closed) (by simp)
    | later opens => exact absurd (opens.symm.trans closed) (by simp)
  | more opens first rest ih₁ ih₂ =>
    cases h' with
    | token single => cases single
    | item _ part => exact ih₁ part
    | later _ first' part =>
      cases first.unique first'
      exact ih₂ part

end Course

section Closed

theorem Rule.nullable_factored (r : Rule) : r.factored.nullable = false := by
  cases r <;> rfl

theorem Rule.first_of_factored {t : Token} (r : Rule) (h : r.factored.first t) : r.first t := by
  cases r with
  | primary =>
    simp [factored, Phrase.seqs, Phrase.first, Phrase.nullable] at h
    simp [Rule.first]
    grind
  | _ => exact Rule.first_of_body _ h

theorem Rule.closed_factored {r : Rule} (h : (Phrase.rule r).opens v = false) :
    r.factored.opens v = false := by
  cases v with
  | nil => rfl
  | cons t v =>
    exact Bool.eq_false_iff.mpr fun ho => Bool.eq_false_iff.mp h (r.first_of_factored ho)

/-- A phrase that the next token does not open is passed only by going nowhere. -/
theorem Walks.eq_of_closed (h : Walks a v v₁) (hc : a.opens v = false) :
    v₁ = v ∧ a.nullable := by
  induction h with
  | empty => exact ⟨rfl, rfl⟩
  | token single fits => exact absurd (fits.symm.trans hc) (by simp)
  | @rule r v v' body ih =>
    have hn := (ih (Rule.closed_factored hc)).2
    rw [r.nullable_factored] at hn
    cases hn
  | seq first rest ih₁ ih₂ =>
    rw [Phrase.opens_seq, Bool.or_eq_false_iff, Bool.and_eq_false_iff] at hc
    obtain ⟨rfl, hn⟩ := ih₁ hc.1
    obtain ⟨rfl, hm⟩ := ih₂ (hc.2.resolve_left (by simp [hn]))
    exact ⟨rfl, by simp [Phrase.nullable, hn, hm]⟩
  | left opens part ih =>
    rw [Phrase.opens_alt, opens] at hc
    cases hc
  | right closed part ih =>
    rw [Phrase.opens_alt, Bool.or_eq_false_iff] at hc
    obtain ⟨rfl, hn⟩ := ih hc.2
    exact ⟨rfl, by simp [Phrase.nullable, hn]⟩
  | none => exact ⟨rfl, rfl⟩
  | more opens first rest ih₁ ih₂ =>
    rw [Phrase.opens_many, opens] at hc
    cases hc

/-- A phrase that is passed by going on is opened by the next token. -/
theorem Walks.opens (h : Walks a v v₁) (hn : a.nullable = false) : a.opens v := by
  by_contra hc
  have hm := (h.eq_of_closed (Bool.eq_false_iff.mpr hc)).2
  rw [hn] at hm
  cases hm

/-- A walk along a phrase that the next token does not open is stuck at once, if at all. -/
theorem Stuck.eq_of_closed (h : Stuck a v u) (hc : a.opens v = false) : u = v := by
  induction h with
  | token => rfl
  | rule body ih => exact ih (Rule.closed_factored hc)
  | first part ih =>
    rw [Phrase.opens_seq, Bool.or_eq_false_iff] at hc
    exact ih hc.1
  | rest first part ih =>
    rw [Phrase.opens_seq, Bool.or_eq_false_iff, Bool.and_eq_false_iff] at hc
    obtain ⟨rfl, hn⟩ := first.eq_of_closed hc.1
    exact ih (hc.2.resolve_left (by simp [hn]))
  | left opens part ih =>
    rw [Phrase.opens_alt, opens] at hc
    cases hc
  | right closed part ih =>
    rw [Phrase.opens_alt, Bool.or_eq_false_iff] at hc
    exact ih hc.2
  | item opens | later opens =>
    rw [Phrase.opens_many, opens] at hc
    cases hc

/-- An optional phrase before a token that does not come next. -/
theorem Stuck.opt_seq (h : Stuck a v u) (hb : b.isToken) (hc : b.opens v = false) :
    Stuck (.seq (.opt a) b) v u := by
  cases ho : a.opens v with
  | true => exact .first (.left ho h)
  | false =>
    cases h.eq_of_closed ho
    exact .rest (.right ho .empty) (.token hb hc)

/-- A phrase before a token may be left out, unless the token does not come next. -/
theorem Stuck.opt_of_seq (h : Stuck (.seq a b) v u) (hn : a.nullable = false) (hb : b.isToken)
    (hc : b.opens v = false) : Stuck (.seq (.opt a) b) v u := by
  rcases h.first_or_rest with part | ⟨v₁, first, part⟩
  · exact part.opt_seq hb hc
  · exact .rest (.left (first.opens hn) first) part

/-- More may follow what is stuck. -/
theorem Stuck.append {c : Phrase} (h : Stuck (.seq a b) v u) : Stuck (.seq a (.seq b c)) v u := by
  rcases h.first_or_rest with part | ⟨v₁, first, part⟩
  · exact .first part
  · exact .rest first (.first part)

/-- Repetitions of a phrase before a token that does not come next. -/
theorem Stuck.many_seq (h : Stuck a v u) (hb : b.isToken) (hc : b.opens v = false) :
    Stuck (.seq (.many a) b) v u := by
  cases ho : a.opens v with
  | true => exact .first (.item ho h)
  | false =>
    cases h.eq_of_closed ho
    exact .rest (.none ho) (.token hb hc)

/-- One repetition before others. -/
theorem Stuck.many_seq_later (ho : a.opens v) (first : Walks a v v₁)
    (h : Stuck (.seq (.many a) b) v₁ u) : Stuck (.seq (.many a) b) v u := by
  rcases h.first_or_rest with part | ⟨v₂, others, part⟩
  · exact .first (.later ho first part)
  · exact .rest (.more ho first others) part

theorem Walks.many_seq (ho : a.opens v) (first : Walks a v v₁)
    (h : Walks (.seq (.many a) b) v₁ v₂) : Walks (.seq (.many a) b) v v₂ := by
  obtain ⟨v₃, others, rest⟩ := h.exists_seq
  exact .seq (.more ho first others) rest

end Closed

section Sound

theorem derives_of_factored {w : List Token} {o : List Occurrence} (h : Derives r.factored w o) :
    ∃ o', Derives (.rule r) w o' := by
  cases r with
  | primary =>
    rcases derives_alt.mp h with h | h
    · exact ⟨o, .rule (.left h)⟩
    rcases derives_alt.mp h with h | h
    · obtain ⟨_, _, hn, w, o, ho, rfl, rfl⟩ := derives_seq.mp h
      obtain ⟨t, ht, rfl, rfl⟩ := derives_name.mp hn
      rcases derives_opt.mp ho with ho | ⟨rfl, rfl⟩
      · exact ⟨_, .rule (.right (.left (.seq (.name ht) ho)))⟩
      · exact ⟨_, .rule (.right (.right (.left (.name ht))))⟩
    · exact ⟨o, .rule (.right (.right (.right h)))⟩
  | _ => exact ⟨o, .rule h⟩

private theorem derives_of_first {t : Token} (single : a.isToken) (fits : a.first t) :
    ∃ o, Derives a [t] o := by
  cases a with
  | lit text => exact ⟨_, .lit fits⟩
  | name role => exact ⟨_, .name (eq_of_beq fits)⟩
  | number => exact ⟨_, .number (eq_of_beq fits)⟩
  | endMark => exact ⟨_, .endMark (eq_of_beq fits)⟩
  | _ => cases single

/-- What a walk passes is derived. -/
theorem Walks.derives (h : Walks a v v₁) : ∃ w o, v = w ++ v₁ ∧ Derives a w o := by
  induction h with
  | empty => exact ⟨[], [], rfl, .empty⟩
  | @token a t v single fits =>
    obtain ⟨o, ho⟩ := derives_of_first single fits
    exact ⟨[t], o, rfl, ho⟩
  | rule body ih =>
    obtain ⟨w, o, hw, h⟩ := ih
    obtain ⟨o', h⟩ := derives_of_factored h
    exact ⟨w, o', hw, h⟩
  | seq first rest ih₁ ih₂ =>
    obtain ⟨w₁, o₁, rfl, h₁⟩ := ih₁
    obtain ⟨w₂, o₂, rfl, h₂⟩ := ih₂
    exact ⟨_, _, (List.append_assoc ..).symm, .seq h₁ h₂⟩
  | left opens part ih =>
    obtain ⟨w, o, hw, h⟩ := ih
    exact ⟨w, o, hw, .left h⟩
  | right closed part ih =>
    obtain ⟨w, o, hw, h⟩ := ih
    exact ⟨w, o, hw, .right h⟩
  | none => exact ⟨[], [], rfl, .none⟩
  | more opens first rest ih₁ ih₂ =>
    obtain ⟨w₁, o₁, rfl, h₁⟩ := ih₁
    obtain ⟨w₂, o₂, rfl, h₂⟩ := ih₂
    exact ⟨_, _, (List.append_assoc ..).symm, .more h₁ h₂⟩

end Sound

section Viable

/-- Every rule derives something. -/
theorem exists_derives_rule (r : Rule) : ∃ w o, Derives (.rule r) w o := by
  have lit (text : String) : Derives (.lit text) [⟨.punct, 0, ascii text, 0⟩] [] :=
    .lit (by simp [Token.is])
  have name (role : Role) : Derives (.name role) [⟨.ident, 0, [], 0⟩] [⟨role, []⟩] := .name rfl
  have primary := Derives.rule (r := .primary)
    (.right (.right (.right (.number (t := ⟨.num, 0, [], 0⟩) rfl))))
  have unary := Derives.rule (r := .unary) (.right primary)
  have mul := Derives.rule (r := .mul) (.seq unary .none)
  have add := Derives.rule (r := .add) (.seq mul .none)
  have relational := Derives.rule (r := .relational) (.seq add .none)
  have equality := Derives.rule (r := .equality) (.seq relational .none)
  have assign := Derives.rule (r := .assign) (.seq equality (.right .empty))
  have exprStmt := Derives.rule (r := .exprStmt) (.seq (.right .empty) (lit ";"))
  have declarator := Derives.rule (r := .declarator)
    (.seq .none (.seq (name .declared) (.right .empty)))
  have block := Derives.rule (r := .block) (.seq .none (lit "\x7d"))
  have stop := Derives.endMark (t := .eof 0) rfl
  cases r with
  | topLevel => exact ⟨_, _, .rule (.seq (lit "\x7b") (.seq block stop))⟩
  | functions => exact ⟨_, _, .rule (.seq .none stop)⟩
  | function =>
    exact ⟨_, _, .rule (.seq (lit "int") (.seq .none (.seq (name .function) (.seq (lit "(")
      (.seq (lit ")") (.seq (lit "\x7b") block))))))⟩
  | block => exact ⟨_, _, block⟩
  | declaration => exact ⟨_, _, .rule (.seq (lit "int") (.seq declarator (.seq .none (lit ";"))))⟩
  | declarator => exact ⟨_, _, declarator⟩
  | stmt => exact ⟨_, _, .rule (.right (.right (.right (.right (.right exprStmt)))))⟩
  | exprStmt => exact ⟨_, _, exprStmt⟩
  | expr => exact ⟨_, _, .rule assign⟩
  | assign => exact ⟨_, _, assign⟩
  | equality => exact ⟨_, _, equality⟩
  | relational => exact ⟨_, _, relational⟩
  | add => exact ⟨_, _, add⟩
  | mul => exact ⟨_, _, mul⟩
  | unary => exact ⟨_, _, unary⟩
  | primary => exact ⟨_, _, primary⟩

/-- So does every phrase. -/
theorem exists_derives (a : Phrase) : ∃ w o, Derives a w o := by
  induction a with
  | empty => exact ⟨_, _, .empty⟩
  | lit text => exact ⟨_, _, .lit (t := ⟨.punct, 0, ascii text, 0⟩) (by simp [Token.is])⟩
  | name role => exact ⟨_, _, .name (t := ⟨.ident, 0, [], 0⟩) rfl⟩
  | number => exact ⟨_, _, .number (t := ⟨.num, 0, [], 0⟩) rfl⟩
  | endMark => exact ⟨_, _, .endMark (t := .eof 0) rfl⟩
  | rule r => exact exists_derives_rule r
  | seq a b iha ihb =>
    obtain ⟨w, o, ha⟩ := iha
    obtain ⟨w', o', hb⟩ := ihb
    exact ⟨_, _, .seq ha hb⟩
  | alt a b iha ihb =>
    obtain ⟨w, o, ha⟩ := iha
    exact ⟨w, o, .left ha⟩
  | many a ih => exact ⟨_, _, .none⟩

/-- What a walk has passed before it is stuck can be completed. -/
theorem Stuck.viable (h : Stuck a v u) : ∃ w z o, v = w ++ u ∧ Derives a (w ++ z) o := by
  induction h with
  | @token a v =>
    obtain ⟨z, o, hz⟩ := exists_derives a
    exact ⟨[], z, o, rfl, hz⟩
  | rule body ih =>
    obtain ⟨w, z, o, hv, h⟩ := ih
    obtain ⟨o', h⟩ := derives_of_factored h
    exact ⟨w, z, o', hv, h⟩
  | @first a b v u part ih =>
    obtain ⟨w, z, o, hv, h⟩ := ih
    obtain ⟨z', o', h'⟩ := exists_derives b
    exact ⟨w, z ++ z', _, hv, by simpa only [List.append_assoc] using h.seq h'⟩
  | rest first part ih =>
    obtain ⟨w, o, rfl, h⟩ := first.derives
    obtain ⟨w', z, o', rfl, h'⟩ := ih
    exact ⟨w ++ w', z, _, (List.append_assoc ..).symm,
      by simpa only [List.append_assoc] using h.seq h'⟩
  | left opens part ih =>
    obtain ⟨w, z, o, hv, h⟩ := ih
    exact ⟨w, z, o, hv, .left h⟩
  | right closed part ih =>
    obtain ⟨w, z, o, hv, h⟩ := ih
    exact ⟨w, z, o, hv, .right h⟩
  | item opens part ih =>
    obtain ⟨w, z, o, hv, h⟩ := ih
    exact ⟨w, z, _, hv, by simpa only [List.append_nil] using h.more .none⟩
  | later opens first part ih =>
    obtain ⟨w, o, rfl, h⟩ := first.derives
    obtain ⟨w', z, o', rfl, h'⟩ := ih
    exact ⟨w ++ w', z, _, (List.append_assoc ..).symm,
      by simpa only [List.append_assoc] using h.more h'⟩

end Viable

section Beside

/-- The tokens cannot be told apart by a grammar: they differ at most in a name, a value or an
offset. -/
def Alike (t t' : Token) : Prop := t.kind = t'.kind ∧ ∀ lit, t.is lit = t'.is lit

theorem Alike.refl (t : Token) : Alike t t := ⟨rfl, fun _ => rfl⟩

theorem Alike.first {t t' : Token} (h : Alike t t') (a : Phrase) : a.first t = a.first t' := by
  induction a with
  | rule r =>
    cases r <;> simp only [Phrase.first, Rule.first, beginsStmt, beginsExpr, List.any_cons,
      List.any_nil, h.1, h.2]
  | _ => simp_all only [Phrase.first, h.1, h.2]

/-- The token lists are alike up to where these two lists are ahead. -/
inductive Beside (u u' : List Token) : List Token → List Token → Prop
  | here : Beside u u' u u'
  | cons {t t' : Token} {v v' : List Token} (alike : Alike t t') (rest : Beside u u' v v') :
      Beside u u' (t :: v) (t' :: v')

variable {u' v' : List Token}

theorem Beside.length_le (h : Beside u u' v v') : u.length ≤ v.length := by
  induction h with
  | here => exact Nat.le_refl _
  | cons alike rest ih => exact Nat.le_succ_of_le ih

theorem Beside.eq (h : Beside u u' u v') : v' = u' := by
  cases h with
  | here => rfl
  | cons alike rest => exact absurd rest.length_le (by simp)

/-- Where the two lists begin with like tokens, so do all before. -/
theorem Beside.opens (h : Beside u u' v v') (hu : ∀ a : Phrase, a.opens u = a.opens u')
    (a : Phrase) : a.opens v = a.opens v' := by
  cases h with
  | here => exact hu a
  | cons alike rest => exact alike.first a

theorem Walks.suffix (h : Walks a v v₁) : v₁ <:+ v := by
  obtain ⟨w, o, rfl, -⟩ := h.derives
  exact List.suffix_append w v₁

theorem Stuck.suffix (h : Stuck a v u) : u <:+ v := by
  obtain ⟨w, z, o, rfl, -⟩ := h.viable
  exact List.suffix_append w u

/-- A walk goes on in the same way along like tokens. -/
theorem Walks.beside (h : Walks a v v₁) (hu : ∀ a : Phrase, a.opens u = a.opens u')
    (hs : u <:+ v₁) (hb : Beside u u' v v') : ∃ v₁', Walks a v' v₁' ∧ Beside u u' v₁ v₁' := by
  induction h generalizing v' with
  | empty => exact ⟨v', .empty, hb⟩
  | token single fits =>
    cases hb with
    | here => exact absurd hs.length_le (by simp)
    | cons alike rest => exact ⟨_, .token single (alike.first _ ▸ fits), rest⟩
  | rule body ih =>
    obtain ⟨v₁', hw, hb⟩ := ih hs hb
    exact ⟨v₁', .rule hw, hb⟩
  | seq first rest ih₁ ih₂ =>
    obtain ⟨v₁', hw₁, hb₁⟩ := ih₁ (hs.trans rest.suffix) hb
    obtain ⟨v₂', hw₂, hb₂⟩ := ih₂ hs hb₁
    exact ⟨v₂', .seq hw₁ hw₂, hb₂⟩
  | left opens part ih =>
    obtain ⟨v₁', hw, hb₁⟩ := ih hs hb
    exact ⟨v₁', .left (hb.opens hu _ ▸ opens) hw, hb₁⟩
  | right closed part ih =>
    obtain ⟨v₁', hw, hb₁⟩ := ih hs hb
    exact ⟨v₁', .right (hb.opens hu _ ▸ closed) hw, hb₁⟩
  | none closed => exact ⟨v', .none (hb.opens hu _ ▸ closed), hb⟩
  | more opens first rest ih₁ ih₂ =>
    obtain ⟨v₁', hw₁, hb₁⟩ := ih₁ (hs.trans rest.suffix) hb
    obtain ⟨v₂', hw₂, hb₂⟩ := ih₂ hs hb₁
    exact ⟨v₂', .more (hb.opens hu _ ▸ opens) hw₁ hw₂, hb₂⟩

/-- So it is stuck where like tokens are ahead. -/
theorem Stuck.beside (h : Stuck a v u) (hu : ∀ a : Phrase, a.opens u = a.opens u')
    (hb : Beside u u' v v') : Stuck a v' u' := by
  induction h generalizing v' with
  | token single misfit =>
    cases hb.eq
    exact .token single (hu _ ▸ misfit)
  | rule body ih => exact .rule (ih hu hb)
  | first part ih => exact .first (ih hu hb)
  | rest first part ih =>
    obtain ⟨v₁', hw, hb₁⟩ := first.beside hu part.suffix hb
    exact .rest hw (ih hu hb₁)
  | left opens part ih => exact .left (hb.opens hu _ ▸ opens) (ih hu hb)
  | right closed part ih => exact .right (hb.opens hu _ ▸ closed) (ih hu hb)
  | item opens part ih => exact .item (hb.opens hu _ ▸ opens) (ih hu hb)
  | later opens first part ih =>
    obtain ⟨v₁', hw, hb₁⟩ := first.beside hu part.suffix hb
    exact .later (hb.opens hu _ ▸ opens) hw (ih hu hb₁)

end Beside

end StackC.Derivation
