import StackC.Proofs.Derivation.Course

/-! Where the parse of an expression stops with a message about the grammar, the walk along the
grammar is stuck. -/
namespace StackC

/-- The message is about what may come next, and not about names. -/
def Cause.isSyntax : Cause → Bool
  | expected _ | expectedIdentifier | expectedExpression | expectedFunction | extraToken => true
  | _ => false

namespace Derivation
open Grammar

/-- If the error is one of syntax, the walk along the phrase is stuck at its offset. -/
def Blocked (a : Phrase) (v : List Token) (e : SourceError) : Prop :=
  e.cause.isSyntax → ∃ t u, Stuck a v (t :: u) ∧ t.pos = e.offset

section Steps

variable {a b : Phrase} {s : State} {v v' : List Token} {e : SourceError} {halt : Halt}
  {text : String}

theorem Blocked.imp (h : Blocked a v e) (hi : ∀ {u}, Stuck a v u → Stuck b v' u) :
    Blocked b v' e := by
  intro hc
  obtain ⟨t, u, hs, ht⟩ := h hc
  exact ⟨t, u, hi hs, ht⟩

theorem Blocked.rest (hw : Walks a v v') (h : Blocked b v' e) : Blocked (.seq a b) v e :=
  h.imp (.rest hw)

theorem Blocked.first (h : Blocked a v e) : Blocked (.seq a b) v e := h.imp .first

theorem Blocked.rule {r : Rule} (h : Blocked r.factored v e) : Blocked (.rule r) v e := h.imp .rule

/-- What stops at the next token is stuck there. -/
theorem blocked_of_halt {α : Type} {cause : Cause}
    (h : (s.halt cause : Except Halt α) = .error halt) (hs : Stuck a s.tokens s.tokens) :
    Blocked a s.tokens halt.error := by
  cases h
  intro _
  rcases s.ended_or_push with he | ⟨t, s, rfl⟩
  · rw [State.tokens, he] at hs ⊢
    exact ⟨_, _, hs, by simp [State.pos, he, Token.eof]⟩
  · exact ⟨t, s.tokens, hs, rfl⟩

theorem blocked_of_haltAt {α : Type} {cause : Cause} {pos : Int}
    (h : (s.haltAt pos cause : Except Halt α) = .error halt) (hc : cause.isSyntax = false) :
    Blocked a v halt.error := by
  cases h
  intro hs
  exact absurd (hs.symm.trans hc) (by simp)

theorem blocked_expect (h : expect (ascii text) s = .error halt) :
    Blocked (.lit text) s.tokens halt.error := by
  rw [expect] at h
  split at h
  · cases h
  · next hacc =>
    exact blocked_of_halt h (.token rfl (opens_lit.trans (accept?_eq_none.mp hacc)))

theorem blocked_upTo {α : Type} {p : Progress s α} (h : p.upTo (ascii text) = .error halt) :
    Blocked (.lit text) p.state.tokens halt.error := by
  rw [Progress.upTo] at h
  rcases Outcome.bind_eq_error.mp h with h | ⟨q, -, h⟩
  · exact blocked_expect h
  · cases h

theorem blocked_identifier {role : Role} (h : identifier s = .error halt) :
    Blocked (.name role) s.tokens halt.error := by
  rw [identifier] at h
  split at h
  · cases h
  · next hn =>
    refine blocked_of_halt h (.token rfl ?_)
    rcases s.ended_or_push with he | ⟨t, s, rfl⟩
    · rw [State.tokens, he]
      rfl
    · simpa [Option.filter, State.tokens, Phrase.first] using hn

end Steps

/-- Where the parser of a form stops, the walk along its phrase is stuck. -/
def Blocks (f : Form) (s : State) : Prop :=
  ∀ halt, f.run s = .error halt → Blocked (phrase f) s.tokens halt.error

theorem walks_of_run {f : Form} {s s' : State} {xs : List Expr} (h : f.run s = .ok (xs, s')) :
    Walks (phrase f) s.tokens s'.tokens :=
  walks_of_reads (f.sound s xs s' h)

/-- An expression and the token that has to follow it. -/
theorem blocked_exprUpTo {s : State} {halt : Halt} {text : String} (ih : Blocks .assign s)
    (h : (do (← assign s).upTo (ascii text)) = .error halt) :
    Blocked (.seq (.rule .expr) (.lit text)) s.tokens halt.error := by
  rcases Outcome.bind_eq_error.mp h with h | ⟨p, hp, h⟩
  · exact (ih halt (by rw [Form.run, h]; rfl)).imp fun hs => .first (.rule hs)
  · exact .rest (.rule (walks_of_reads (reads_of_assign hp))) (blocked_upTo h)

section Expressions

variable {s : State} (shorter : ∀ g s', s'.ahead.length < s.ahead.length → Blocks g s')

theorem stuck_primary {v : List Token} (h : (Phrase.rule .primary).opens v = false) :
    Stuck (.rule .primary) v v := by
  have hf := Rule.closed_factored h
  rw [Rule.factored, Phrase.opens_alt, Phrase.opens_alt, Bool.or_eq_false_iff,
    Bool.or_eq_false_iff] at hf
  exact .rule (.right hf.1 (.right hf.2.1 (.token rfl hf.2.2)))

include shorter in
private theorem blocks_primary : Blocks .primary s := by
  intro halt h
  rw [Form.run, Outcome.map_eq_error] at h
  rcases s.ended_or_push with he | ⟨t, s, rfl⟩
  · rw [Grammar.primary, next?_ended he] at h
    refine blocked_of_halt h (stuck_primary ?_)
    rw [State.tokens, he]
    rfl
  rw [Grammar.primary] at h
  simp only [next?_push] at h
  split at h
  case isTrue ho =>
    have inner := shorter .assign { s with fresh := none } (by simp)
    rw [← bind_assoc] at h
    rcases Outcome.bind_eq_error.mp h with h | ⟨p, -, h⟩
    · have hb := blocked_exprUpTo inner h
      exact .rule ((Blocked.rest (.lit ho) hb).imp (.left (opens_of_is ho)))
    · cases h
  case isFalse ho =>
    have hp : (Phrase.seqs [.lit "(", .rule .expr, .lit ")"]).opens (s.push t).tokens = false :=
      closed_of_starts (s := s.push t) (by simpa using ho)
    split at h
    case h_1 hk =>
      split at h
      case h_1 t₁ s₂ h₂ hacc =>
        obtain ⟨hs, hp₁⟩ := accept?_eq_some hacc
        obtain ⟨s₄, rfl, rfl⟩ := State.eq_push_of_fresh hs
        rcases Outcome.bind_eq_error.mp h with h | ⟨p, -, h⟩
        · have inner := shorter .arguments { s₄ with fresh := none }
            (by simp only [State.push_ahead, List.length_cons]; omega) halt
            (by rw [Form.run, h]; rfl)
          refine .rule (inner.imp fun hs => .right hp (.left (opens_name hk) (.rest
            (.token rfl (beq_iff_eq.mpr hk)) (.left (opens_of_is hp₁) (.rest (.lit hp₁) hs)))))
        · cases h
      case h_2 hacc =>
        split at h
        · next cause hr =>
          refine blocked_of_haltAt h ?_
          rw [resolve] at hr
          split at hr
          · cases hr
          · split at hr
            · cases hr
              rfl
            · cases hr
        · cases h
    case h_2 hk => cases h
    case h_3 hi hn =>
      refine blocked_of_halt h (stuck_primary ?_)
      change Rule.first t .primary = false
      simp only [Rule.first, Bool.or_eq_false_iff, beq_eq_false_iff_ne]
      exact ⟨⟨by simpa using ho, hi⟩, hn⟩

include shorter in
private theorem blocks_chain (n : Nat) (l : Expr) : Blocks (.chain n l) s := by
  intro halt h
  rw [Form.run, Outcome.map_eq_error] at h
  rcases s.ended_or_push with he | ⟨t, s, rfl⟩
  · rw [chain, next?_ended he] at h
    cases h
  rw [chain] at h
  simp only [next?_push] at h
  split at h
  case h_1 hn => cases h
  case h_2 op swap ho =>
    have hlev := lt_levels_of_operator? ho
    have hopen : (Phrase.seq (levelOperator n) (.rule (levelRule n))).opens (s.push t).tokens :=
      Phrase.opens_seq_of (first_levelOperator ho)
    rw [phrase, if_pos hlev]
    rcases Outcome.bind_eq_error.mp h with h | ⟨⟨r, s₂, h₂⟩, hr, h⟩
    · have operand := shorter (.binary n) s (by simp) halt (by rw [Form.run, h]; rfl)
      exact (Blocked.rest (.levelOperator ho) operand).imp (.item hopen)
    · have hw : Walks (.rule (levelRule n)) s.tokens s₂.tokens :=
        walks_of_run (f := .binary n) (by rw [Form.run, hr]; rfl)
      rcases Outcome.bind_eq_error.mp h with h | ⟨p, -, h⟩
      · have others := shorter (.chain n (operation swap t.pos op l r))
          { s₂ with req := s₂.req.require op } (by simp; omega) halt
          (by rw [Form.run, operation, h]; rfl)
        rw [phrase, if_pos hlev] at others
        exact others.imp (.later hopen (.seq (.levelOperator ho) hw))
      · cases h

include shorter in
private theorem blocks_unary (tighter : Blocks .primary s) : Blocks .unary s := by
  intro halt h
  rw [Form.run, Outcome.map_eq_error] at h
  have operand (hn : s.noUnary) (h : primary s = .error halt) :
      Blocked (.rule .unary) s.tokens halt.error :=
    .rule ((tighter halt (by rw [Form.run, h]; rfl)).imp
      (.right (Phrase.closed_seq (closed_unaryOperator hn) rfl)))
  -- An operator of either kind stands before an operand.
  have operator {s₁ : State} {t : Token} (hs : s = s₁.push t)
      (hf : (Phrase.oneOf "+" ["-", "*", "&"]).first t) (hx : unary s₁ = .error halt) :
      Blocked (.rule .unary) s.tokens halt.error := by
    subst hs
    have hb := shorter .unary s₁ (by simp) halt (by rw [Form.run, hx]; rfl)
    exact .rule ((Blocked.rest (.oneOf hf) hb).imp (.left (Phrase.opens_seq_of hf)))
  rcases s.ended_or_push with he | ⟨t, s, rfl⟩
  · rw [unary, next?_ended he] at h
    exact operand (by simp [State.noUnary, State.starts, he]) h
  rw [unary] at h
  simp only [next?_push] at h
  split at h
  case isTrue hp =>
    rcases Outcome.bind_eq_error.mp h with h | ⟨p, -, h⟩
    · exact operator rfl (first_of_derives (derives_unaryOperator.mpr ⟨t, .inl hp, rfl, rfl⟩)) h
    · cases h
  case isFalse hp =>
    split at h
    case h_1 node hn =>
      rcases Outcome.bind_eq_error.mp h with h | ⟨p, -, h⟩
      · exact operator rfl (first_unaryOperator hn) h
      · cases h
    case h_2 hn => exact operand ⟨by simpa using hp, hn⟩ h

include shorter in
private theorem blocks_binary_succ (n : Nat) (tighter : Blocks (.binary n) s) :
    Blocks (.binary (n + 1)) s := by
  intro halt h
  rw [Form.run, Outcome.map_eq_error] at h
  rw [binary] at h
  have first (h : binary n s = .error halt) : Blocked (.rule (levelRule n)) s.tokens halt.error :=
    tighter halt (by rw [Form.run, h]; rfl)
  have rest {l : Expr} {s₁ : State} (h₁ : s₁.ahead.length < s.ahead.length)
      (h : chain n l s₁ = .error halt) : Blocked (phrase (.chain n l)) s₁.tokens halt.error :=
    shorter (.chain n l) s₁ h₁ halt (by rw [Form.run, h]; rfl)
  by_cases hn : n < levels
  · refine .rule ?_
    rw [factored_levelRule, body_levelRule hn]
    rcases Outcome.bind_eq_error.mp h with h | ⟨⟨l, s₁, h₁⟩, hl, h⟩
    · exact (first h).first
    · rcases Outcome.bind_eq_error.mp h with h | ⟨p, -, h⟩
      · have hb := rest h₁ h
        rw [phrase, if_pos hn] at hb
        exact hb.rest (walks_of_run (f := .binary n) (by rw [Form.run, hl]; rfl))
      · cases h
  · rw [phrase, levelRule_succ hn]
    rcases Outcome.bind_eq_error.mp h with h | ⟨⟨l, s₁, h₁⟩, hl, h⟩
    · exact first h
    · rcases Outcome.bind_eq_error.mp h with h | ⟨p, -, h⟩
      · have hb := rest h₁ h
        rw [phrase, if_neg hn] at hb
        intro hc
        obtain ⟨t, u, hs, -⟩ := hb hc
        exact absurd hs Walks.empty.not_stuck
      · cases h

include shorter in
private theorem blocks_assign (tighter : Blocks (.binary levels) s) : Blocks .assign s := by
  intro halt h
  rw [Form.run, Outcome.map_eq_error] at h
  rw [assign] at h
  rcases Outcome.bind_eq_error.mp h with h | ⟨⟨l, s₁, h₁⟩, hl, h⟩
  · exact .rule (tighter halt (by rw [Form.run, h]; rfl)).first
  · have hw : Walks (.rule .equality) s.tokens s₁.tokens :=
      walks_of_run (f := .binary levels) (by rw [Form.run, hl]; rfl)
    simp only at h
    split at h
    case h_1 hacc => cases h
    case h_2 t s₂ h₂ hacc =>
      obtain ⟨rfl, he⟩ := accept?_eq_some hacc
      rcases Outcome.bind_eq_error.mp h with h | ⟨p, -, h⟩
      · have hb := shorter (.binary levels) s₂ (by omega) halt (by rw [Form.run, h]; rfl)
        exact .rule (.rest hw ((Blocked.rest (.lit he) hb).imp (.left (opens_of_is he))))
      · cases h

include shorter in
private theorem blocks_argumentList (tighter : Blocks .assign s) : Blocks .argumentList s := by
  intro halt h
  rw [Form.run, Outcome.map_eq_error] at h
  rw [argumentList] at h
  rcases Outcome.bind_eq_error.mp h with h | ⟨⟨x, s₁, h₁⟩, hx, h⟩
  · exact (tighter halt (by rw [Form.run, h]; rfl)).first
  · have hw : Walks (.rule .assign) s.tokens s₁.tokens :=
      walks_of_run (f := .assign) (by rw [Form.run, hx]; rfl)
    simp only at h
    split at h
    case h_1 t s₂ h₂ hacc =>
      obtain ⟨rfl, hc⟩ := accept?_eq_some hacc
      rcases Outcome.bind_eq_error.mp h with h | ⟨p, -, h⟩
      · have hb := shorter .argumentList s₂ (by omega) halt (by rw [Form.run, h]; rfl)
        refine hb.imp fun hs => ?_
        rcases hs.first_or_rest with second | ⟨v, second, others⟩
        · exact .rest hw (.item (opens_of_is hc) (.rest (.lit hc) second))
        · exact .rest hw (.later (opens_of_is hc) (.seq (.lit hc) second) others)
      · cases h
    case h_2 hacc => cases h

private theorem blocks_arguments (tighter : Blocks .argumentList s) : Blocks .arguments s := by
  intro halt h
  rw [Form.run, Outcome.map_eq_error] at h
  rw [arguments] at h
  split at h
  case h_1 => cases h
  case h_2 hacc =>
    have hc : (Phrase.lit ")").opens s.tokens = false := opens_lit.trans (accept?_eq_none.mp hacc)
    rcases Outcome.bind_eq_error.mp h with h | ⟨⟨xs, s₁, h₁⟩, hx, h⟩
    · exact (tighter halt (by rw [Form.run, h]; rfl)).imp fun hs => hs.opt_seq rfl hc
    · have hw : Walks argumentPhrase s.tokens s₁.tokens :=
        walks_of_run (f := .argumentList) (by rw [Form.run, hx]; rfl)
      exact .rest (.left (hw.opens rfl) hw) (blocked_upTo h)

private theorem blocks_binary_zero (tighter : Blocks .unary s) : Blocks (.binary 0) s := by
  intro halt h
  rw [Form.run, Outcome.map_eq_error, binary] at h
  exact tighter halt (by rw [Form.run, h]; rfl)

end Expressions

/-- Where an expression cannot be parsed for its syntax, the walk is stuck. -/
theorem blocks (f : Form) (s : State) : Blocks f s := by
  refine ranked_induction Form.rank (fun f s shorter tighter => ?_) f s
  cases f with
  | primary => exact blocks_primary shorter
  | arguments => exact blocks_arguments (tighter .argumentList (by decide))
  | argumentList => exact blocks_argumentList shorter (tighter .assign (by decide))
  | unary => exact blocks_unary shorter (tighter .primary (by decide))
  | binary n =>
    cases n with
    | zero => exact blocks_binary_zero (tighter .unary (by decide))
    | succ n => exact blocks_binary_succ shorter n (tighter (.binary n) (by simp [Form.rank]))
  | chain n l => exact blocks_chain shorter n l
  | assign => exact blocks_assign shorter (tighter (.binary levels) (by decide))

theorem blocked_assign {s : State} {halt : Halt} (h : assign s = .error halt) :
    Blocked (.rule .assign) s.tokens halt.error :=
  blocks .assign s halt (by rw [Form.run, h]; rfl)

end Derivation
end StackC
