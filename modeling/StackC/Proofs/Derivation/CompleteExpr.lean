import StackC.Proofs.Derivation.Sound

/-! An expression that the grammar derives is read, as long as its names can be bound from left to
right and no token behind it carries on with it. -/
namespace StackC.Derivation
open Grammar

/-- How loosely punctuation ties what follows to an expression before it. -/
def slack (lit : Bytes) : Nat :=
  if lit = ascii "(" then 0
  else if [ascii "*", ascii "/"].contains lit then 1
  else if [ascii "+", ascii "-"].contains lit then 2
  else if [ascii "<", ascii "<=", ascii ">", ascii ">="].contains lit then 3
  else if [ascii "==", ascii "!="].contains lit then 4
  else if lit = ascii "=" then 5
  else if lit = ascii "," then 6
  else 7

/-- How loosely the next token ties what follows to an expression before it. -/
def nextSlack (s : State) : Nat :=
  match s.ahead with
  | [] => 7
  | t :: _ => if t.kind = .punct ∨ t.kind = .keyword then slack t.lit else 7

/-- The loosest token that would carry on with a form. -/
def reach : Form → Nat
  | .primary | .unary | .arguments => 0
  | .binary n => n
  | .chain n _ => n + 1
  | .assign => 5
  | .argumentList => 6

theorem nextSlack_of_starts {s : State} {lit : Bytes} (h : s.starts lit) :
    nextSlack s = slack lit := by
  rcases s.ended_or_push with he | ⟨t, s, rfl⟩
  · simp [State.starts, he] at h
  · simp only [State.starts_push, Token.is, Bool.and_eq_true, Bool.or_eq_true, beq_iff_eq] at h
    simp only [nextSlack, State.push_ahead, if_pos h.1, h.2]

theorem starts_eq_false {s : State} {lit : Bytes} (h : nextSlack s ≠ slack lit) :
    s.starts lit = false := by
  rw [← Bool.not_eq_true]
  exact fun hs => h (nextSlack_of_starts hs)

theorem nextSlack_of_operator? {s : State} {t : Token} {n : Nat} (h : (operator? n t).isSome) :
    nextSlack (s.push t) = n + 1 := by
  have of_is {text : String} (ht : t.is (ascii text)) :
      nextSlack (s.push t) = slack (ascii text) := nextSlack_of_starts ht
  match n with
  | 0 | 1 | 2 | 3 =>
    simp only [operator?] at h
    repeat' split at h
    all_goals first | exact of_is ‹_› | cases h
  | n + 4 => cases h

theorem noOperator_of_slack {s : State} {n : Nat} (h : nextSlack s ≠ n + 1) : s.noOperator n := by
  rcases s.ended_or_push with he | ⟨t, s, rfl⟩
  · simp [State.noOperator, he]
  · change operator? n t = none
    rw [← Option.not_isSome_iff_eq_none]
    exact fun ho => h (nextSlack_of_operator? ho)

/-- The states have the same tokens ahead and the same names of locals. -/
def Agree (s s' : State) : Prop := s.ahead = s'.ahead ∧ localNames s = localNames s'

theorem Agree.refl (s : State) : Agree s s := ⟨rfl, rfl⟩

theorem Agree.nextSlack {s s' : State} (h : Agree s s') : nextSlack s = nextSlack s' := by
  rw [Derivation.nextSlack, Derivation.nextSlack, h.1]

namespace Spans

variable {a b : Phrase} {r : Rule} {s s₁ s₂ : State} {text : String}

theorem congr (h : Spans a s s₂) (hs : Agree s₁ s) : Spans a s₁ s₂ := by
  obtain ⟨w, o, hw, hd, hb⟩ := h
  exact ⟨w, o, hs.1.trans hw, hd, by rw [hs.2, hb]⟩

theorem agree (h : Spans .empty s s₁) : Agree s s₁ := by
  obtain ⟨w, o, hw, hd, hb⟩ := h
  obtain ⟨rfl, rfl⟩ := derives_empty.mp hd
  exact ⟨hw, Option.some.inj hb⟩

theorem body (h : Spans (.rule r) s s₁) : Spans r.body s s₁ := by
  obtain ⟨w, o, hw, hd, hb⟩ := h
  exact ⟨w, o, hw, derives_rule.mp hd, hb⟩

theorem left_or_right (h : Spans (.alt a b) s s₁) : Spans a s s₁ ∨ Spans b s s₁ := by
  obtain ⟨w, o, hw, hd, hb⟩ := h
  rcases derives_alt.mp hd with hd | hd
  · exact .inl ⟨w, o, hw, hd, hb⟩
  · exact .inr ⟨w, o, hw, hd, hb⟩

/-- One token, and nothing else. -/
theorem exists_push {t : Token} {o : List Occurrence} (hw : s.ahead = [t] ++ s₁.ahead)
    (hb : bindAll (localNames s) o = some (localNames s₁)) :
    ∃ s₂ : State, s = s₂.push t ∧ s₂.ahead = s₁.ahead ∧
      bindAll (localNames s₂) o = some (localNames s₁) := by
  rcases s.ended_or_push with he | ⟨t', s, rfl⟩
  · simp [he] at hw
  · simp only [State.push_ahead, List.cons_append, List.nil_append, List.cons.injEq] at hw
    obtain ⟨rfl, hw⟩ := hw
    exact ⟨s, rfl, hw, hb⟩

theorem exists_lit (h : Spans (.lit text) s s₁) :
    ∃ t s₂, s = State.push s₂ t ∧ t.is (ascii text) ∧ Agree s₂ s₁ := by
  obtain ⟨w, o, hw, hd, hb⟩ := h
  obtain ⟨t, ht, rfl, rfl⟩ := derives_lit.mp hd
  obtain ⟨s₂, rfl, ha, hb⟩ := exists_push hw hb
  exact ⟨t, s₂, rfl, ht, ha, Option.some.inj hb⟩

private theorem exists_number (h : Spans .number s s₁) :
    ∃ t s₂, s = State.push s₂ t ∧ t.kind = .num ∧ Agree s₂ s₁ := by
  obtain ⟨w, o, hw, hd, hb⟩ := h
  obtain ⟨t, ht, rfl, rfl⟩ := derives_number.mp hd
  obtain ⟨s₂, rfl, ha, hb⟩ := exists_push hw hb
  exact ⟨t, s₂, rfl, ht, ha, Option.some.inj hb⟩

theorem exists_name {role : Role} (h : Spans (.name role) s s₁) :
    ∃ t s₂, s = State.push s₂ t ∧ t.kind = .ident ∧ s₂.ahead = s₁.ahead ∧
      bind (localNames s₂) ⟨role, t.lit⟩ = some (localNames s₁) := by
  obtain ⟨w, o, hw, hd, hb⟩ := h
  obtain ⟨t, ht, rfl, rfl⟩ := derives_name.mp hd
  obtain ⟨s₂, rfl, ha, hb⟩ := exists_push hw hb
  rw [bindAll_cons, Option.bind_eq_some_iff] at hb
  obtain ⟨names, hn, hb⟩ := hb
  exact ⟨t, s₂, rfl, ht, ha, hn.trans hb⟩

/-- A punctuator or keyword before a phrase. -/
theorem exists_lit_seq (h : Spans (.seq (.lit text) b) s s₂) :
    ∃ t s₁, s = State.push s₁ t ∧ t.is (ascii text) ∧ Spans b s₁ s₂ := by
  obtain ⟨s₁, ha, hb⟩ := h.exists_seq
  obtain ⟨t, s₃, rfl, ht, hs⟩ := ha.exists_lit
  exact ⟨t, s₃, rfl, ht, hb.congr hs⟩

theorem none_or_more (h : Spans (.many a) s s₂) :
    Agree s s₂ ∨ ∃ s₁, Spans a s s₁ ∧ Spans (.many a) s₁ s₂ := by
  obtain ⟨w, o, hw, hd, hb⟩ := h
  rcases derives_many.mp hd with ⟨rfl, rfl⟩ | ⟨v, o₁, hv, v', o₂, hv', rfl, rfl⟩
  · exact .inl ⟨hw, Option.some.inj hb⟩
  · exact .inr (exists_seq ⟨_, _, hw, .seq hv hv', hb⟩)

/-- What is not empty begins with one of its first tokens. -/
theorem exists_first (h : Spans a s s₁) (hn : a.nullable = false) :
    ∃ t s₂, s = State.push s₂ t ∧ a.first t := by
  obtain ⟨w, o, hw, hd, -⟩ := h
  cases w with
  | nil => exact absurd rfl (ne_nil_of_derives hd hn)
  | cons t w =>
    rcases s.ended_or_push with he | ⟨t', s, rfl⟩
    · simp [he] at hw
    · simp only [State.push_ahead, List.cons_append, List.cons.injEq] at hw
      obtain ⟨rfl, hw⟩ := hw
      exact ⟨t', s, rfl, first_of_derives hd⟩

theorem length_lt (h : Spans a s s₁) (hn : a.nullable = false) :
    s₁.ahead.length < s.ahead.length := by
  obtain ⟨w, o, hw, hd, -⟩ := h
  have hl := List.length_pos_of_ne_nil (ne_nil_of_derives hd hn)
  rw [hw, List.length_append]
  omega

theorem exists_levelOperator {n : Nat} (hn : n < levels)
    (h : Spans (Derivation.levelOperator n) s s₁) :
    ∃ t s₂ op swap, s = State.push s₂ t ∧ operator? n t = some (op, swap) ∧ Agree s₂ s₁ := by
  obtain ⟨w, o, hw, hd, hb⟩ := h
  obtain ⟨t, ht, rfl, rfl⟩ := (derives_levelOperator hn).mp hd
  obtain ⟨⟨op, swap⟩, ho⟩ := Option.isSome_iff_exists.mp ht
  obtain ⟨s₂, rfl, ha, hb⟩ := exists_push hw hb
  exact ⟨t, s₂, op, swap, rfl, ho, ha, Option.some.inj hb⟩

private theorem exists_unaryOperator (h : Spans (.oneOf "+" ["-", "*", "&"]) s s₁) :
    ∃ t s₂, s = State.push s₂ t ∧ (t.is (ascii "+") ∨ (unary? t).isSome) ∧ Agree s₂ s₁ := by
  obtain ⟨w, o, hw, hd, hb⟩ := h
  obtain ⟨t, ht, rfl, rfl⟩ := derives_unaryOperator.mp hd
  obtain ⟨s₂, rfl, ha, hb⟩ := exists_push hw hb
  exact ⟨t, s₂, rfl, ht, ha, Option.some.inj hb⟩

/-- A level goes on with its operators, or what follows it ties looser. -/
theorem lt_nextSlack {n : Nat} (h : Spans (.many (.seq (Derivation.levelOperator n) b)) s s₂)
    (hn : n < levels) (hf : n + 1 < nextSlack s₂) : n < nextSlack s := by
  rcases h.none_or_more with hs | ⟨s₁, hx, hm⟩
  · rw [hs.nextSlack]
    omega
  · obtain ⟨s₃, ho, -⟩ := hx.exists_seq
    obtain ⟨t, s₄, op, swap, rfl, ht, -⟩ := ho.exists_levelOperator hn
    rw [nextSlack_of_operator? (Option.isSome_of_eq_some ht)]
    omega

theorem nextSlack_lit (h : Spans (.lit text) s s₁) : nextSlack s = slack (ascii text) := by
  obtain ⟨t, s₂, rfl, ht, -⟩ := h.exists_lit
  exact nextSlack_of_starts ht

end Spans

/-- A token that an expression begins with stands for nothing else. -/
theorem is_eq_false_of_beginsExpr {t : Token} {lit : Bytes} (h : beginsExpr t)
    (hl : lit ∉ [ascii "(", ascii "+", ascii "-", ascii "*", ascii "&"]) : t.is lit = false := by
  simp only [beginsExpr, Bool.or_eq_true, beq_iff_eq, List.any_eq_true] at h
  rcases h with (h | h) | ⟨l, hm, h⟩
  · exact Token.is_eq_false_of_ident h lit
  · exact Token.is_eq_false_of_num h lit
  · exact Token.is_eq_false_of_is h (fun he => hl (he ▸ hm))

theorem noUnary_of_first {s : State} {t : Token} (h : Rule.primary.first t) :
    (s.push t).noUnary := by
  have hn {lit : Bytes} (hl : lit ≠ ascii "(") : t.is lit = false := by
    simp only [Rule.first, Bool.or_eq_true, beq_iff_eq] at h
    rcases h with (h | h) | h
    · exact Token.is_eq_false_of_is h hl.symm
    · exact Token.is_eq_false_of_ident h lit
    · exact Token.is_eq_false_of_num h lit
  refine ⟨hn (by decide), ?_⟩
  change unary? t = none
  rw [unary?, hn (by decide), hn (by decide), hn (by decide)]
  rfl

/-- A name that is bound as a variable can be read as one. -/
theorem resolve_of_bind {locals : List Local} {t : Token} {names : List Bytes}
    (h : bind (locals.map Local.name) ⟨.used, t.lit⟩ = some names) :
    ∃ i locals' fresh, resolve locals t = .ok (i, locals', fresh) ∧
      locals'.map Local.name = names := by
  unfold resolve
  cases hf : findLocal? locals t.lit with
  | some i =>
    have hm : t.lit ∈ locals.map Local.name := by
      by_contra hn
      rw [findLocal?_eq_none.mpr hn] at hf
      cases hf
    simp only [bind, hm, if_true, Option.some.injEq] at h
    exact ⟨i, locals, none, rfl, h⟩
  | none =>
    have hm := findLocal?_eq_none.mp hf
    simp only [bind, hm, if_false] at h
    split at h
    · cases h
    · next hs =>
      refine ⟨locals.length, declare locals t.lit .int t.pos, some locals.length, ?_, ?_⟩
      · simp [hs]
      · simpa [declare] using h

theorem Reads.single {f : Form} {s s' : State} {xs : List Expr} (h : Reads f s xs s')
    (hf : f ≠ .arguments ∧ f ≠ .argumentList) : ∃ x, xs = [x] := by
  cases h with
  | noArguments | arguments => exact absurd rfl hf.1
  | lastArgument | moreArguments => exact absurd rfl hf.2
  | _ => exact ⟨_, rfl⟩

/-- A form is read from all that its phrase derives, as long as the next token does not carry on
with it. -/
def Complete (f : Form) (s : State) : Prop :=
  ∀ s', Spans (phrase f) s s' → reach f < nextSlack s' → ∃ xs s₁, Reads f s xs s₁ ∧ Agree s₁ s'

namespace Complete

variable {f : Form} {a b : Phrase} {s s₂ : State} {text : String}

theorem exists_seq (hc : Complete f s) (ha : ∀ {s₁}, Spans a s s₁ → Spans (phrase f) s s₁)
    (h : Spans (.seq a b) s s₂) (hf : ∀ s₁, Spans b s₁ s₂ → reach f < nextSlack s₁) :
    ∃ xs s₁, Reads f s xs s₁ ∧ Spans b s₁ s₂ := by
  obtain ⟨s₁, h, hb⟩ := h.exists_seq
  obtain ⟨xs, s₃, hr, hs⟩ := hc s₁ (ha h) (hf s₁ hb)
  exact ⟨xs, s₃, hr, hb.congr hs⟩

theorem exists_lit (hc : Complete f s) (ha : ∀ {s₁}, Spans a s s₁ → Spans (phrase f) s s₁)
    (h : Spans (.seq a (.lit text)) s s₂) (hf : reach f < slack (ascii text)) :
    ∃ xs s₁ t, Reads f s xs (s₁.push t) ∧ t.is (ascii text) ∧ Agree s₁ s₂ := by
  obtain ⟨xs, s₁, hr, h⟩ := hc.exists_seq ha h fun s₁ h => h.nextSlack_lit ▸ hf
  obtain ⟨t, s₃, rfl, ht, hs⟩ := h.exists_lit
  exact ⟨xs, s₃, t, hr, ht, hs⟩

theorem exists_lit_seq (hc : Complete f s) (ha : ∀ {s₁}, Spans a s s₁ → Spans (phrase f) s s₁)
    (h : Spans (.seq a (.seq (.lit text) b)) s s₂) (hf : reach f < slack (ascii text)) :
    ∃ xs s₁ t, Reads f s xs (s₁.push t) ∧ t.is (ascii text) ∧ Spans b s₁ s₂ := by
  obtain ⟨xs, s₁, hr, h⟩ := hc.exists_seq ha h fun s₁ h => by
    obtain ⟨t, s₁, rfl, ht, -⟩ := h.exists_lit_seq
    rwa [nextSlack_of_starts (s := s₁.push t) ht]
  obtain ⟨t, s₃, rfl, ht, hs⟩ := h.exists_lit_seq
  exact ⟨xs, s₃, t, hr, ht, hs⟩

end Complete

section Steps

variable {s : State} (shorter : ∀ g s', s'.ahead.length < s.ahead.length → Complete g s')
include shorter

private theorem complete_primary : Complete .primary s := by
  intro s' h hf
  rcases h.body.left_or_right with h | h
  · obtain ⟨t, s, rfl, ht, h⟩ := h.exists_lit_seq
    have inner := shorter .assign { s with fresh := none } (by simp)
    obtain ⟨xs, s₁, t₁, hr, ht₁, hs⟩ := inner.exists_lit Spans.body h (by decide)
    obtain ⟨x, rfl⟩ := Reads.single hr (by simp)
    exact ⟨_, _, .paren ht hr ht₁, hs⟩
  rcases h.left_or_right with h | h
  · obtain ⟨s₁, hn, hc⟩ := h.exists_seq
    obtain ⟨t, s, rfl, ht, ha, hb⟩ := hn.exists_name
    obtain ⟨t₁, s, rfl, ht₁, h⟩ := (hc.congr ⟨ha, Option.some.inj hb⟩).exists_lit_seq
    have inner := shorter .arguments { s with fresh := none }
      (by simp only [State.push_ahead, List.length_cons]; omega)
    obtain ⟨xs, s₂, hr, hs⟩ := inner s' h hf
    exact ⟨_, _, .call ht ht₁ hr, hs⟩
  rcases h.left_or_right with h | h
  · obtain ⟨t, s, rfl, ht, ha, hb⟩ := h.exists_name
    obtain ⟨i, locals, fresh, hr, hl⟩ := resolve_of_bind hb
    have hn : nextSlack s = nextSlack s' := by rw [nextSlack, nextSlack, ha]
    have hp : s.starts (ascii "(") = false := starts_eq_false (by rw [hn]; exact Nat.ne_of_gt hf)
    exact ⟨_, _, .name ht hp hr, ha, hl⟩
  · obtain ⟨t, s, rfl, ht, hs⟩ := h.exists_number
    exact ⟨_, _, .number ht, hs⟩

private theorem complete_chain (n : Nat) (l : Expr) : Complete (.chain n l) s := by
  intro s' h hf
  have stay (hs : Agree s s') : ∃ xs s₁, Reads (.chain n l) s xs s₁ ∧ Agree s₁ s' := by
    refine ⟨[l], s, .endChain (noOperator_of_slack ?_), hs⟩
    rw [hs.nextSlack]
    exact Nat.ne_of_gt hf
  rw [phrase] at h
  split at h
  case isFalse hn => exact stay h.agree
  case isTrue hn =>
    rcases h.none_or_more with hs | ⟨s₁, hx, hm⟩
    · exact stay hs
    obtain ⟨s₂, ho, hy⟩ := hx.exists_seq
    obtain ⟨t, s, op, swap, rfl, ht, hs⟩ := ho.exists_levelOperator hn
    have hy := hy.congr hs
    have operand := shorter (.binary n) s (by simp)
    obtain ⟨xs, s₃, hr, hs₃⟩ := operand s₁ hy (hm.lt_nextSlack hn hf)
    obtain ⟨r, rfl⟩ := Reads.single hr (by simp)
    have hl := hy.length_lt rfl
    have others := shorter (.chain n (operation swap t.pos op l r))
      { s₃ with req := s₃.req.require op } (by rw [← hs₃.1] at hl; simp; omega)
    obtain ⟨ys, s₄, hr', hs₄⟩ := others s' (by rw [phrase, if_pos hn]; exact hm.congr hs₃) hf
    obtain ⟨y, rfl⟩ := Reads.single hr' (by simp)
    exact ⟨_, _, .chain ht hr hr', hs₄⟩

private theorem complete_unary (tighter : Complete .primary s) : Complete .unary s := by
  intro s' h hf
  rcases h.body.left_or_right with h | h
  · obtain ⟨s₁, ho, hx⟩ := h.exists_seq
    obtain ⟨t, s, rfl, ht, hs⟩ := ho.exists_unaryOperator
    have operand := shorter .unary s (by simp)
    obtain ⟨xs, s₂, hr, hs₂⟩ := operand s' (hx.congr hs) hf
    obtain ⟨x, rfl⟩ := Reads.single hr (by simp)
    by_cases hp : t.is (ascii "+")
    · exact ⟨_, _, .plus hp hr, hs₂⟩
    · obtain ⟨node, hn⟩ := Option.isSome_iff_exists.mp (ht.resolve_left hp)
      refine ⟨_, _, .unary (by simpa using hp) hn hr, hs₂.1, ?_⟩
      exact (map_name_inferDeref _ _ _).trans hs₂.2
  · obtain ⟨xs, s₁, hr, hs⟩ := tighter s' h hf
    obtain ⟨x, rfl⟩ := Reads.single hr (by simp)
    obtain ⟨t, s, rfl, ht⟩ := h.exists_first rfl
    exact ⟨_, _, .operand (noUnary_of_first ht) hr, hs⟩

private theorem complete_binary_succ (n : Nat) (tighter : Complete (.binary n) s) :
    Complete (.binary (n + 1)) s := by
  intro s' h hf
  by_cases hn : n < levels
  · have h := h.body
    rw [body_levelRule hn] at h
    obtain ⟨s₁, hx, hm⟩ := h.exists_seq
    obtain ⟨xs, s₂, hr, hs⟩ := tighter s₁ hx (hm.lt_nextSlack hn hf)
    obtain ⟨l, rfl⟩ := Reads.single hr (by simp)
    have hl := hx.length_lt rfl
    have others := shorter (.chain n l) s₂ (by rwa [hs.1])
    obtain ⟨ys, s₃, hr', hs₃⟩ := others s' (by rw [phrase, if_pos hn]; exact hm.congr hs) hf
    obtain ⟨y, rfl⟩ := Reads.single hr' (by simp)
    exact ⟨_, _, .level hr hr', hs₃⟩
  · rw [phrase, levelRule_succ hn] at h
    obtain ⟨xs, s₁, hr, hs⟩ := tighter s' h (Nat.lt_of_succ_lt hf)
    obtain ⟨x, rfl⟩ := Reads.single hr (by simp)
    have hf : n + 1 < nextSlack s₁ := hs.nextSlack ▸ hf
    exact ⟨_, _, .level hr (.endChain (noOperator_of_slack (Nat.ne_of_gt hf))), hs⟩

private theorem complete_assign (tighter : Complete (.binary levels) s) : Complete .assign s := by
  intro s' h hf
  obtain ⟨s₁, hx, ho⟩ := h.body.exists_seq
  rcases ho.left_or_right with ho | ho
  · obtain ⟨xs, s₂, t, hr, ht, hy⟩ := tighter.exists_lit_seq id (hx.seq ho) (by decide)
    obtain ⟨l, rfl⟩ := Reads.single hr (by simp)
    have hl := (spans_of_reads hr).length_lt rfl
    have right := shorter (.binary levels) s₂ (Nat.lt_of_succ_lt hl)
    obtain ⟨ys, s₃, hr', hs⟩ := right s' hy (Nat.lt_of_succ_lt hf)
    obtain ⟨r, rfl⟩ := Reads.single hr' (by simp)
    exact ⟨_, _, .assign hr ht hr', hs.1, (map_name_inferAssign _ _ _ _).trans hs.2⟩
  · obtain ⟨xs, s₂, hr, hs⟩ := tighter s' (hx.seqEmpty ho) (Nat.lt_of_succ_lt hf)
    obtain ⟨x, rfl⟩ := Reads.single hr (by simp)
    have he : s₂.starts (ascii "=") = false :=
      starts_eq_false (by rw [hs.nextSlack]; exact Nat.ne_of_gt hf)
    exact ⟨_, _, .value hr he, hs⟩

theorem complete_argumentList (tighter : Complete .assign s) : Complete .argumentList s := by
  intro s' h hf
  obtain ⟨s₁, hx, hm⟩ := h.exists_seq
  rcases hm.none_or_more with hs | ⟨s₂, ho, hm⟩
  · have hf₁ : 6 < nextSlack s₁ := hs.nextSlack ▸ hf
    obtain ⟨xs, s₂, hr, hs₂⟩ := tighter s₁ hx (Nat.lt_of_succ_lt hf₁)
    obtain ⟨x, rfl⟩ := Reads.single hr (by simp)
    have hc : s₂.starts (ascii ",") = false :=
      starts_eq_false (by rw [hs₂.nextSlack]; exact Nat.ne_of_gt hf₁)
    exact ⟨_, _, .lastArgument hr hc, hs₂.1.trans hs.1, hs₂.2.trans hs.2⟩
  · obtain ⟨xs, s₃, t, hr, ht, hy⟩ := tighter.exists_lit_seq id (hx.seq ho) (by decide)
    obtain ⟨x, rfl⟩ := Reads.single hr (by simp)
    have hl := (spans_of_reads hr).length_lt rfl
    have others := shorter .argumentList s₃ (Nat.lt_of_succ_lt hl)
    obtain ⟨ys, s₄, hr', hs⟩ := others s' (hy.seq hm) hf
    exact ⟨_, _, .moreArguments hr ht hr', hs⟩

end Steps

private theorem complete_arguments {s : State} (tighter : Complete .argumentList s) :
    Complete .arguments s := by
  intro s' h _
  obtain ⟨s₁, ho, hc⟩ := h.exists_seq
  rcases ho.left_or_right with hx | hx
  · obtain ⟨xs, s₂, t, hr, ht, hs⟩ := tighter.exists_lit id (hx.seq hc) (by decide)
    obtain ⟨s₃, ha, -⟩ := hx.exists_seq
    obtain ⟨t₁, s, rfl, ht₁⟩ := ha.exists_first rfl
    exact ⟨_, _, .arguments (is_eq_false_of_beginsExpr ht₁ (by decide)) hr ht, hs⟩
  · obtain ⟨t, s, rfl, ht, hs⟩ := (hc.congr hx.agree).exists_lit
    exact ⟨_, _, .noArguments ht, hs⟩

private theorem complete_binary_zero {s : State} (tighter : Complete .unary s) :
    Complete (.binary 0) s := by
  intro s' h hf
  obtain ⟨xs, s₁, hr, hs⟩ := tighter s' h hf
  obtain ⟨x, rfl⟩ := Reads.single hr (by simp)
  exact ⟨_, _, .tightest hr, hs⟩

theorem complete (f : Form) (s : State) : Complete f s := by
  refine ranked_induction Form.rank (fun f s shorter tighter => ?_) f s
  cases f with
  | primary => exact complete_primary shorter
  | arguments => exact complete_arguments (tighter .argumentList (by decide))
  | argumentList => exact complete_argumentList shorter (tighter .assign (by decide))
  | unary => exact complete_unary shorter (tighter .primary (by decide))
  | binary n =>
    cases n with
    | zero => exact complete_binary_zero (tighter .unary (by decide))
    | succ n => exact complete_binary_succ shorter n (tighter (.binary n) (by simp [Form.rank]))
  | chain n l => exact complete_chain shorter n l
  | assign => exact complete_assign shorter (tighter (.binary levels) (by decide))

end StackC.Derivation
