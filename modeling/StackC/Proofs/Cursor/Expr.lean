import StackC.Proofs.Cursor.Basic
import StackC.Proofs.Derivation.Sound
import StackC.Proofs.Reading.InRange
import StackC.Proofs.Reading.Locals

/-! A parse of an expression by index stays before the first end mark and uses only what is there.
With enough calls for the tokens ahead, it ends like the parse from those tokens. -/
namespace StackC

open Grammar

/-- A step that is taken is the first half of what follows it. -/
theorem Walk.bind_ok {α β : Type} {x : Walk α} {c c' : Cursor} {v : α}
    (h : x c = some (.ok (v, c'))) (k : α → Walk β) : (x >>= k) c = k v c' := by
  change ((x c : ExceptT Cursor.Stop Option (α × Cursor)) >>= fun p => k p.1 p.2) = k v c'
  rw [h]
  rfl

namespace Cursor

/-- The cursor is where the state is, before an end mark that stands behind what is ahead. Inside a
function it knows the same locals. -/
structure Tracks (toks : List Token) (inside : Bool) (c : Cursor) (s : State) : Prop where
  ahead : ∃ e rest, toks.drop c.index = s.ahead ++ e :: rest ∧ e.kind = .eof ∧ e.pos = s.stop
  unmarked : ∀ t ∈ s.ahead, t.kind ≠ .eof
  scope : inside → c.scope = some s.locals
  created : c.created = s.fresh
  req : c.req = s.req

/-- Both end with the same error, or with related results. -/
inductive Agrees {A α : Type} (R : α → Cursor → A → Prop) :
    ExceptT Stop Option (α × Cursor) → Except Halt A → Prop
  | ok {x : α} {c : Cursor} {a : A} (h : R x c a) : Agrees R (some (.ok (x, c))) (.ok a)
  | error (h : Halt) : Agrees R (some (.error (.halt h))) (.error h)

/-- A step gives the same value and leads to the same place. -/
structure Lands {α : Type} (toks : List Token) (inside : Bool) {s : State} (x : α) (c : Cursor)
    (p : Progress s α) : Prop where
  value : x = p.value
  tracks : Tracks toks inside c p.state

structure Rests {α : Type} (toks : List Token) (inside : Bool) {s : State} (x : α) (c : Cursor)
    (p : Pause s α) : Prop where
  value : x = p.value
  tracks : Tracks toks inside c p.state

variable {toks : List Token} {inside : Bool} {c : Cursor} {s : State} {t : Token} {lit : Bytes}

theorem Agrees.bind {A B α β : Type} {R : α → Cursor → A → Prop} {R' : β → Cursor → B → Prop}
    {x : Walk α} {y : Except Halt A} {k : α → Walk β} {l : A → Except Halt B}
    (h : Agrees R (x c) y) (hk : ∀ v c' a, y = .ok a → R v c' a → Agrees R' (k v c') (l a)) :
    Agrees R' ((x >>= k) c) (y >>= l) := by
  change Agrees R' ((x c : ExceptT Stop Option (α × Cursor)) >>= fun p => k p.1 p.2) (y >>= l)
  generalize x c = r at h
  cases h with
  | ok h => exact hk _ _ _ rfl h
  | error h => exact .error h

/-- What follows a step needs to be looked at for the same value and the same place only. -/
theorem Agrees.step {B α β : Type} {R' : β → Cursor → B → Prop} {x : Walk α}
    {y : Except Halt (Progress s α)} {k : α → Walk β} {l : Progress s α → Except Halt B}
    (h : Agrees (Lands toks inside) (x c) y)
    (hk : ∀ v s₁ h₁ c₁, y = .ok ⟨v, s₁, h₁⟩ → Tracks toks inside c₁ s₁ →
      Agrees R' (k v c₁) (l ⟨v, s₁, h₁⟩)) : Agrees R' ((x >>= k) c) (y >>= l) := by
  refine h.bind ?_
  rintro v c₁ ⟨_, s₁, h₁⟩ hy ⟨rfl, hc₁⟩
  exact hk _ s₁ h₁ c₁ hy hc₁

/-- A result that is only taken over. -/
theorem Agrees.imp {A B α : Type} {R : α → Cursor → A → Prop} {R' : α → Cursor → B → Prop}
    {r : ExceptT Stop Option (α × Cursor)} {y : Except Halt A} {f : A → B} (h : Agrees R r y)
    (hf : ∀ v c' a, R v c' a → R' v c' (f a)) : Agrees R' r (y >>= fun a => pure (f a)) := by
  cases h with
  | ok h => exact .ok (hf _ _ _ h)
  | error h => exact .error h

namespace Tracks

theorem peek_ended (h : Tracks toks inside c s) (he : s.ahead = []) :
    ∃ e, Walk.peek toks c = some (.ok (e, c)) ∧ e.kind = .eof ∧ e.pos = s.pos := by
  obtain ⟨e, rest, hd, hk, hp⟩ := h.ahead
  have hi : toks[c.index]? = some e := by rw [← List.head?_drop, hd, he]; rfl
  refine ⟨e, ?_, hk, ?_⟩
  · rw [Walk.peek, hi]
    rfl
  · rw [hp, State.pos, he]

theorem peek_push (h : Tracks toks inside c (s.push t)) :
    Walk.peek toks c = some (.ok (t, c)) := by
  obtain ⟨e, rest, hd, -, -⟩ := h.ahead
  have hi : toks[c.index]? = some t := by rw [← List.head?_drop, hd]; rfl
  rw [Walk.peek, hi]
  rfl

theorem exists_peek (h : Tracks toks inside c s) :
    ∃ t, Walk.peek toks c = some (.ok (t, c)) ∧ t.pos = s.pos := by
  rcases s.ended_or_push with he | ⟨t, s, rfl⟩
  · obtain ⟨e, hp, -, hpos⟩ := h.peek_ended he
    exact ⟨e, hp, hpos⟩
  · exact ⟨t, h.peek_push, rfl⟩

theorem notEnd (h : Tracks toks inside c (s.push t)) : t.kind ≠ .eof :=
  h.unmarked t List.mem_cons_self

/-- The token ahead is passed. -/
theorem next_push (h : Tracks toks inside c (s.push t)) :
    Walk.next toks c = some (.ok (t, { c with index := c.index + 1 })) ∧
      Tracks toks inside { c with index := c.index + 1 } s := by
  refine ⟨?_, ?_⟩
  · rw [Walk.next, Walk.bind_ok h.peek_push]
    have hk : (t.kind != .eof) = true := by simpa using h.notEnd
    simp only [hk, if_true]
    rfl
  · obtain ⟨e, rest, hd, he⟩ := h.ahead
    refine ⟨⟨e, rest, ?_, he⟩, fun u hu => h.unmarked u (List.mem_cons_of_mem t hu), h.scope,
      h.created, h.req⟩
    rw [← List.tail_drop, hd]
    rfl

theorem is_eq_false_of_end (h : t.kind = .eof) (lit : Bytes) : t.is lit = false := by
  simp [Token.is, h]

theorem consume_ended (h : Tracks toks inside c s) (he : s.ahead = []) (lit : Bytes) :
    Walk.consume toks lit c = some (.ok (false, c)) := by
  obtain ⟨e, hp, hk, -⟩ := h.peek_ended he
  rw [Walk.consume, Walk.bind_ok hp, is_eq_false_of_end hk lit]
  rfl

theorem consume_push (h : Tracks toks inside c (s.push t)) (lit : Bytes) :
    Walk.consume toks lit c =
      if t.is lit then some (.ok (true, { c with index := c.index + 1 }))
      else some (.ok (false, c)) := by
  rw [Walk.consume, Walk.bind_ok h.peek_push]
  split
  · rw [Walk.bind_ok h.next_push.1]
    rfl
  · rfl

/-- A token is skipped where it is accepted. -/
theorem consume_cases (h : Tracks toks inside c s) (lit : Bytes) :
    (accept? lit s = none ∧ Walk.consume toks lit c = some (.ok (false, c))) ∨
      ∃ t s₁ h₁ c₁, s = s₁.push t ∧ accept? lit s = some ⟨t, s₁, h₁⟩ ∧
        Walk.consume toks lit c = some (.ok (true, c₁)) ∧ Tracks toks inside c₁ s₁ := by
  rcases s.ended_or_push with he | ⟨t, s, rfl⟩
  · exact .inl ⟨accept?_ended he, h.consume_ended he lit⟩
  · rw [h.consume_push, accept?_push]
    by_cases ht : t.is lit
    · rw [if_pos ht, if_pos ht]
      exact .inr ⟨t, s, s.length_lt_push t, _, rfl, rfl, rfl, h.next_push.2⟩
    · rw [if_neg ht, if_neg ht]
      exact .inl ⟨rfl, rfl⟩

theorem expect_push (h : Tracks toks inside c (s.push t)) (ht : t.is lit) :
    Walk.expect toks lit c = some (.ok (t, { c with index := c.index + 1 })) := by
  rw [Walk.expect, Walk.bind_ok h.peek_push, if_pos ht, h.next_push.1]

/-- An error at the next token. -/
theorem agrees_halt {A α : Type} {R : α → Cursor → A → Prop} (h : Tracks toks inside c s)
    (ht : t.pos = s.pos) (cause : Cause) : Agrees R (Walk.fail t.pos cause c) (s.halt cause) := by
  rw [Walk.fail, State.halt, State.haltAt, h.req, ht]
  exact .error _

theorem agrees_haltAt {A α : Type} {R : α → Cursor → A → Prop} (h : Tracks toks inside c s)
    (pos : Int) (cause : Cause) : Agrees R (Walk.fail pos cause c) (s.haltAt pos cause) := by
  rw [Walk.fail, State.haltAt, h.req]
  exact .error _

end Tracks

/-- The token that must be next is passed, or both stop at what is there. -/
theorem agrees_expect (h : Tracks toks inside c s) (lit : Bytes) :
    Agrees (fun t c' p => Lands toks inside t c' p ∧ c'.scope = c.scope)
      (Walk.expect toks lit c) (expect lit s) := by
  have stops {t : Token} (hp : Walk.peek toks c = some (.ok (t, c))) (ht : t.is lit = false)
      (hpos : t.pos = s.pos) (ha : accept? lit s = none) :
      Agrees (fun t c' p => Lands toks inside t c' p ∧ c'.scope = c.scope)
        (Walk.expect toks lit c) (expect lit s) := by
    rw [Walk.expect, Walk.bind_ok hp, ht, expect, ha]
    exact h.agrees_halt hpos _
  rcases s.ended_or_push with he | ⟨t, s, rfl⟩
  · obtain ⟨e, hp, hk, hpos⟩ := h.peek_ended he
    exact stops hp (Tracks.is_eq_false_of_end hk lit) hpos (accept?_ended he)
  · cases ht : t.is lit with
    | false => exact stops h.peek_push ht rfl (by rw [accept?_push, ht]; rfl)
    | true =>
      rw [h.expect_push ht, Grammar.expect_push ht]
      exact .ok ⟨⟨rfl, h.next_push.2⟩, rfl⟩

/-- The token that must be next, and what follows it. -/
theorem Agrees.expect {B β : Type} {R : β → Cursor → B → Prop} {k : Token → Walk β}
    {l : Progress s Token → Except Halt B} (h : Tracks toks inside c s) (lit : Bytes)
    (hk : ∀ t s₁ h₁ c₁, c₁.scope = c.scope → Tracks toks inside c₁ s₁ →
      Agrees R (k t c₁) (l ⟨t, s₁, h₁⟩)) :
    Agrees R ((Walk.expect toks lit >>= k) c) (expect lit s >>= l) := by
  refine (agrees_expect h lit).bind ?_
  rintro t c₁ ⟨_, s₁, h₁⟩ - ⟨⟨rfl, hc₁⟩, hs⟩
  exact hk _ s₁ h₁ c₁ hs hc₁

theorem agrees_identifier (h : Tracks toks inside c s) :
    Agrees (Lands toks inside) (Walk.identifier toks c) (identifier s) := by
  rcases s.ended_or_push with he | ⟨t, s, rfl⟩
  · obtain ⟨e, hp, hk, hpos⟩ := h.peek_ended he
    rw [Walk.identifier, Walk.bind_ok hp, hk, identifier, next?_ended he]
    exact h.agrees_halt hpos _
  · rw [Walk.identifier, Walk.bind_ok h.peek_push]
    by_cases hk : t.kind = .ident
    · rw [hk, identifier_push hk]
      simp only [beq_self_eq_true, if_true]
      rw [h.next_push.1]
      exact .ok ⟨rfl, h.next_push.2⟩
    · have hb : (t.kind == .ident) = false := by simpa using hk
      simp only [identifier, next?_push, Option.filter, hb]
      exact h.agrees_halt rfl _

/-- The token that must end a step, and what follows it. -/
theorem agrees_upTo {α β B : Type} {R : β → Cursor → B → Prop} {k : Token → Walk β}
    {l : Progress s α → Except Halt B} {p : Progress s α} (h : Tracks toks inside c p.state)
    (close : Bytes)
    (hk : ∀ t s₁ h₁ c₁, Tracks toks inside c₁ s₁ → Agrees R (k t c₁) (l ⟨p.value, s₁, h₁⟩)) :
    Agrees R ((Walk.expect toks close >>= k) c) (p.upTo close >>= l) := by
  unfold Progress.upTo
  rw [bind_assoc]
  exact Agrees.expect h close fun t s₁ h₁ c₁ _ hc₁ => hk t s₁ _ c₁ hc₁

/-! Expressions -/

/-- A form is read in the same way by index, with calls that go `d` deep. -/
def Followed (toks : List Token) (d : Nat) (f : Form) (s : State) : Prop :=
  ∀ c, Tracks toks true c s →
    match f with
    | .primary => Agrees (Lands toks true) (Walk.primary toks d c) (primary s)
    | .arguments => s.fresh = none → ∀ name, Agrees
        (fun x c (p : Progress s (List Expr)) => x = .call name.pos name.lit p.value ∧
          Tracks toks true c { p.state with fresh := none }) (Walk.call toks d name c) (arguments s)
    | .argumentList => Agrees (Lands toks true) (Walk.argumentList toks d c) (argumentList s)
    | .unary => Agrees (Lands toks true) (Walk.unary toks d c) (unary s)
    | .binary n => Agrees (Lands toks true) (Walk.binary toks d n c) (binary n s)
    | .chain n l => Agrees (Rests toks true) (Walk.chain toks d n l c) (chain n l s)
    | .assign => Agrees (Lands toks true) (Walk.assign toks d c) (assign s)

/-- A new operand forgets which local came last. -/
theorem Tracks.forget (h : Tracks toks inside c s) :
    Tracks toks inside { c with created := none } { s with fresh := none } :=
  ⟨h.ahead, h.unmarked, h.scope, rfl, h.req⟩

theorem Tracks.locals_eq (h : Tracks toks true c s) :
    Walk.locals c = some (.ok (s.locals, c)) := by
  rw [Walk.locals, h.scope rfl]
  rfl

theorem Tracks.setLocals (h : Tracks toks inside c s) (vars : List Local) :
    Tracks toks true { c with scope := some vars } { s with locals := vars } :=
  ⟨h.ahead, h.unmarked, fun _ => rfl, h.created, h.req⟩

theorem Tracks.cell_eq (h : Tracks toks true c s) {i : Nat} (hi : i < s.locals.length) :
    Walk.cell i c = some (.ok (s.locals[i], c)) := by
  rw [Walk.cell, Walk.bind_ok h.locals_eq]
  have hg : getLocal? s.locals (i : Int) = some s.locals[i] := List.getElem?_eq_getElem hi
  rw [hg]
  rfl

/-- A name that is no call. -/
theorem agrees_resolve {s₀ : State} (h : Tracks toks true c s) (hf : s.fresh = none) (t : Token)
    (h₁ : s.ahead.length < s₀.ahead.length) :
    Agrees (Lands toks true) (Walk.resolve t c) (match resolve s.locals t with
      | .error cause => s.haltAt t.pos cause
      | .ok (i, locals, fresh) =>
        .ok (⟨.var t.pos i, { s with locals, fresh }, h₁⟩ : Progress s₀ Expr)) := by
  rw [resolve, Walk.resolve, Walk.bind_ok h.locals_eq]
  cases hl : findLocal? s.locals t.lit with
  | some i => exact .ok ⟨rfl, h.ahead, h.unmarked, h.scope, h.created.trans hf, h.req⟩
  | none =>
    simp only
    by_cases hn : t.lit == scratchName
    · simp only [hn, if_true]
      exact h.agrees_haltAt t.pos _
    · have hd := h.setLocals (declare s.locals t.lit .int t.pos)
      have hlt : s.locals.length < (declare s.locals t.lit .int t.pos).length := by simp [declare]
      simp only [hn, Bool.false_eq_true, if_false]
      rw [Walk.bind_ok rfl, Walk.bind_ok (hd.cell_eq hlt)]
      exact .ok ⟨rfl, hd.ahead, hd.unmarked, hd.scope, rfl, hd.req⟩

/-- The same locals in other words. -/
theorem Tracks.withLocals (h : Tracks toks true c s) {vars : List Local} (hv : vars = s.locals) :
    Tracks toks true c { s with locals := vars } := by
  subst hv
  exact h

/-- The operand of a star is looked up if a local is new, and is there. -/
theorem exists_inferDeref (h : Tracks toks true c s) {e : Expr}
    (he : InRange s.locals.length e.nodes) :
    ∃ c', Walk.inferDeref e c = some (.ok ((), c')) ∧
      Tracks toks true c' { s with locals := inferDeref s.locals s.fresh e } := by
  obtain ⟨k, q, p, hf, rfl, hs⟩ | ⟨hn, hs⟩ := inferDeref_cases s.locals s.fresh e
  · obtain ⟨j, hj, hlt⟩ := he p k (by simp [Expr.nodes])
    cases Int.ofNat.inj hj
    rw [hs]
    refine ⟨_, ?_, h.setLocals (retype s.locals k (.stars 1))⟩
    rw [Walk.inferDeref, Walk.bind_ok rfl, h.created, hf]
    simp only
    rw [Walk.bind_ok (h.cell_eq hlt), if_pos trivial, Walk.bind_ok h.locals_eq, ← hf, ← h.created]
    rfl
  · refine ⟨c, ?_, h.withLocals hs⟩
    unfold Walk.inferDeref
    split
    · next q p i =>
      obtain ⟨j, rfl, hlt⟩ := he p i (by simp [Expr.nodes])
      rw [Walk.bind_ok rfl, h.created]
      cases hf : s.fresh with
      | none => rfl
      | some k =>
        have hne : (j : Int) ≠ k := fun hjk => hn k q p hf (by rw [hjk])
        simp only
        rw [Walk.bind_ok (h.cell_eq hlt), if_neg hne]
        rfl
    · rfl

/-- The target of an assignment is looked up if it is new, and is there. What is assigned has a
type. -/
theorem exists_inferAssign (h : Tracks toks true c s) (fresh : Option Nat) {l r : Expr}
    (hl : InRange s.locals.length l.nodes) (hr : InRange s.locals.length r.nodes) :
    ∃ c', Walk.inferAssign fresh l r c = some (.ok ((), c')) ∧
      Tracks toks true c' { s with locals := inferAssign s.locals fresh l r } := by
  obtain ⟨type, ht⟩ := r.exists_type? fun p i hi => hr.exists_local hi
  have typed : Walk.typeOf r c = some (.ok (type, c)) := by
    rw [Walk.typeOf, Walk.bind_ok h.locals_eq, ht]
    rfl
  obtain ⟨k, p, type', rfl, rfl, ht', hp, hs⟩ | ⟨hn, hs⟩ := inferAssign_cases s.locals fresh l r
  · obtain ⟨j, hj, hlt⟩ := hl p k (by simp [Expr.nodes])
    cases Int.ofNat.inj hj
    cases ht.symm.trans ht'
    rw [hs]
    refine ⟨_, ?_, h.setLocals (retype s.locals k type)⟩
    rw [Walk.inferAssign, Walk.bind_ok (h.cell_eq hlt), if_pos rfl, Walk.bind_ok typed, if_pos hp,
      Walk.bind_ok h.locals_eq]
    rfl
  · refine ⟨c, ?_, h.withLocals hs⟩
    unfold Walk.inferAssign
    split
    · next p i k =>
      obtain ⟨j, rfl, hlt⟩ := hl p i (by simp [Expr.nodes])
      rw [Walk.bind_ok (h.cell_eq hlt)]
      split
      · next hjk =>
        have hp : type.isPointer = false := hn k p type rfl (by rw [hjk]) ht
        rw [Walk.bind_ok typed, hp]
        rfl
      · rfl
    · rfl

private theorem operator?_end (h : t.kind = .eof) (n : Nat) : operator? n t = none := by
  rcases n with _ | _ | _ | _ | n <;> simp [operator?, Tracks.is_eq_false_of_end h]

private theorem unary?_end (h : t.kind = .eof) : unary? t = none := by
  simp [unary?, Tracks.is_eq_false_of_end h]

section Expr

variable {d : Nat}
  (shorter : ∀ g s', g.rank < 10 → s'.ahead.length < s.ahead.length → Followed toks d g s')
include shorter

private theorem followed_primary : Followed toks (d + 1) .primary s := by
  intro c hc
  simp only
  rw [Walk.primary, Walk.bind_ok rfl]
  have hc₀ := hc.forget
  rcases s.ended_or_push with he | ⟨t, s, rfl⟩
  · obtain ⟨e, hp, hk, hpos⟩ := hc₀.peek_ended he
    rw [Walk.bind_ok hp, primary, next?_ended he, Tracks.is_eq_false_of_end hk, hk]
    exact hc₀.agrees_halt hpos _
  replace hc₀ : Tracks toks true { c with created := none }
      (State.push { s with fresh := none } t) := hc₀
  obtain ⟨hn, hc₁⟩ := hc₀.next_push
  have hlt : s.ahead.length < (s.push t).ahead.length := s.length_lt_push t
  rw [Walk.bind_ok hc₀.peek_push, primary]
  simp only [next?_push]
  cases ho : t.is (ascii "(") with
  | true =>
    simp only [if_true]
    rw [Walk.parenExpr, Walk.bind_ok (hc₀.expect_push ho)]
    refine Agrees.step (shorter .assign { s with fresh := none } (by decide) hlt _ hc₁) ?_
    intro x s₁ h₁ c₂ _ hc₂
    exact agrees_upTo (p := ⟨x, s₁, h₁⟩) hc₂ _ fun _ s₂ h₂ c₃ hc₃ => .ok ⟨rfl, hc₃⟩
  | false =>
    simp only [Bool.false_eq_true, if_false]
    cases hk : t.kind with
    | ident =>
      simp only
      rw [Walk.bind_ok hn]
      rcases hc₁.consume_cases (ascii "(") with ⟨ha, hb⟩ | ⟨t₁, s₁, h₁, c₁, hs, ha, hb, hc₂⟩
      · rw [Walk.bind_ok hb, ha]
        exact agrees_resolve hc₁ rfl t hlt
      · rw [Walk.bind_ok hb, ha]
        have hf : s₁.fresh = none := (congrArg State.fresh hs).symm
        refine (shorter .arguments s₁ (by decide) (Nat.lt_trans h₁ hlt) c₁ hc₂ hf t).imp ?_
        rintro x c₂ p ⟨rfl, hc₃⟩
        exact ⟨rfl, hc₃⟩
    | num =>
      simp only
      rw [Walk.bind_ok hn]
      exact .ok ⟨rfl, hc₁⟩
    | _ => exact hc.forget.agrees_halt rfl _

private theorem followed_chain (n : Nat) (l : Expr) : Followed toks (d + 1) (.chain n l) s := by
  intro c hc
  simp only
  rw [Walk.chain, chain]
  rcases s.ended_or_push with he | ⟨t, s, rfl⟩
  · obtain ⟨e, hp, hk, -⟩ := hc.peek_ended he
    rw [Walk.bind_ok hp, next?_ended he, operator?_end hk]
    exact .ok ⟨rfl, hc⟩
  obtain ⟨hn, hc₁⟩ := hc.next_push
  rw [Walk.bind_ok hc.peek_push]
  simp only [next?_push]
  cases ho : operator? n t with
  | none => exact .ok ⟨rfl, hc⟩
  | some o =>
    obtain ⟨op, swap⟩ := o
    have hl : n < 4 := Derivation.lt_levels_of_operator? ho
    have hr : n + 2 < 10 := by omega
    simp only
    rw [Walk.bind_ok hn]
    refine Agrees.step (shorter (.binary n) s hr (s.length_lt_push t) _ hc₁) ?_
    intro r s₁ h₁ c₂ _ hc₂
    have hlt : s₁.ahead.length < (s.push t).ahead.length := Nat.lt_trans h₁ (s.length_lt_push t)
    have hc₃ : Tracks toks true { c₂ with req := c₂.req.require op }
        { s₁ with req := s₁.req.require op } :=
      ⟨hc₂.ahead, hc₂.unmarked, hc₂.scope, hc₂.created, congrArg (·.require op) hc₂.req⟩
    rw [Walk.bind_ok rfl]
    have later (x : Expr) : Followed toks d (.chain n x) { s₁ with req := s₁.req.require op } :=
      shorter (.chain n x) _ (Nat.succ_pos 9) hlt
    refine (later _ _ hc₃).imp ?_
    rintro x c₄ p ⟨rfl, hc₄⟩
    exact ⟨rfl, hc₄⟩

theorem followed_unary (tighter : Followed toks d .primary s) : Followed toks (d + 1) .unary s := by
  intro c hc
  simp only
  rw [Walk.unary, unary]
  rcases s.ended_or_push with he | ⟨t, s, rfl⟩
  · obtain ⟨e, hp, hk, -⟩ := hc.peek_ended he
    rw [Walk.bind_ok hp, next?_ended he, Tracks.is_eq_false_of_end hk, unary?_end hk]
    exact tighter c hc
  obtain ⟨hn, hc₁⟩ := hc.next_push
  have hlt : s.ahead.length < (s.push t).ahead.length := s.length_lt_push t
  rw [Walk.bind_ok hc.peek_push]
  simp only [next?_push]
  cases hp : t.is (ascii "+") with
  | true =>
    simp only [if_true]
    rw [Walk.bind_ok hn]
    refine (shorter .unary s (by decide) hlt _ hc₁).imp ?_
    rintro x c₂ p ⟨rfl, hc₂⟩
    exact ⟨rfl, hc₂⟩
  | false =>
    simp only [Bool.false_eq_true, if_false]
    cases hu : unary? t with
    | none => exact tighter c hc
    | some node =>
      simp only
      rw [Walk.bind_ok hn]
      refine Agrees.step (shorter .unary s (by decide) hlt _ hc₁) ?_
      intro x s₁ h₁ c₂ hy hc₂
      have hr := Form.sound .unary s [x] s₁ (by rw [Form.run, hy]; rfl)
      have hx := inRange_of_reads hr trivial
      rw [Expr.allNodes_singleton] at hx
      obtain ⟨c₃, hi, hc₃⟩ := exists_inferDeref hc₂ (hx.unary hu t.pos)
      rw [Walk.bind_ok hi]
      exact .ok ⟨rfl, hc₃⟩

private theorem followed_binary_succ (n : Nat) (tighter : Followed toks d (.binary n) s) :
    Followed toks (d + 1) (.binary (n + 1)) s := by
  intro c hc
  simp only
  rw [Walk.binary, binary]
  refine Agrees.step (tighter c hc) fun l s₁ h₁ c₁ _ hc₁ => ?_
  refine (shorter (.chain n l) s₁ (Nat.succ_pos 9) h₁ c₁ hc₁).imp ?_
  rintro x c₂ p ⟨rfl, hc₂⟩
  exact ⟨rfl, hc₂⟩

private theorem followed_assign (tighter : Followed toks d (.binary levels) s) :
    Followed toks (d + 1) .assign s := by
  intro c hc
  simp only
  rw [Walk.assign, assign]
  refine Agrees.step (tighter c hc) fun l s₁ h₁ c₁ hl hc₁ => ?_
  rw [Walk.bind_ok rfl]
  rcases hc₁.consume_cases (ascii "=") with ⟨ha, hb⟩ | ⟨t, s₂, h₂, c₂, rfl, ha, hb, hc₂⟩
  · obtain ⟨t, hp, -⟩ := hc₁.exists_peek
    rw [Walk.bind_ok hp, Walk.bind_ok hb]
    simp only [ha]
    exact .ok ⟨rfl, hc₁⟩
  · rw [Walk.bind_ok hc₁.peek_push, Walk.bind_ok hb]
    simp only [ha]
    refine Agrees.step (shorter (.binary levels) s₂ (by decide) (Nat.lt_trans h₂ h₁) c₂ hc₂) ?_
    intro r s₃ h₃ c₃ hr hc₃
    have hl := Form.sound (.binary levels) s [l] (s₂.push t) (by rw [Form.run, hl]; rfl)
    have hr := Form.sound (.binary levels) s₂ [r] s₃ (by rw [Form.run, hr]; rfl)
    have hlw := inRange_of_reads hl trivial
    have hrw := inRange_of_reads hr trivial
    rw [Expr.allNodes_singleton] at hlw hrw
    obtain ⟨c₄, hi, hc₄⟩ :=
      exists_inferAssign hc₃ s₂.fresh (hlw.mono (grows_of_reads hr).2.1) hrw
    rw [hc₁.created, State.push_fresh, Walk.bind_ok hi]
    exact .ok ⟨rfl, hc₄⟩

private theorem followed_argumentList (tighter : Followed toks d .assign s) :
    Followed toks (d + 1) .argumentList s := by
  intro c hc
  simp only
  rw [Walk.argumentList, argumentList]
  refine Agrees.step (tighter c hc) fun x s₁ h₁ c₁ _ hc₁ => ?_
  rcases hc₁.consume_cases (ascii ",") with ⟨ha, hb⟩ | ⟨t, s₂, h₂, c₂, rfl, ha, hb, hc₂⟩
  · rw [Walk.bind_ok hb]
    simp only [ha]
    exact .ok ⟨rfl, hc₁⟩
  · rw [Walk.bind_ok hb]
    simp only [ha]
    refine Agrees.step (shorter .argumentList s₂ (by decide) (Nat.lt_trans h₂ h₁) c₂ hc₂) ?_
    exact fun xs s₃ h₃ c₃ _ hc₃ => .ok ⟨rfl, hc₃⟩

omit shorter in
private theorem followed_arguments (tighter : Followed toks d .argumentList s) :
    Followed toks (d + 1) .arguments s := by
  intro c hc hf name
  rw [Walk.call, arguments]
  rcases hc.consume_cases (ascii ")") with ⟨ha, hb⟩ | ⟨t, s₁, h₁, c₁, rfl, ha, hb, hc₁⟩
  · rw [Walk.bind_ok hb, ha]
    refine Agrees.step (tighter c hc) fun xs s₁ h₁ c₁ _ hc₁ => ?_
    rw [← bind_pure (Progress.upTo _ _)]
    exact agrees_upTo (p := ⟨xs, s₁, h₁⟩) hc₁ _ fun _ s₂ h₂ c₂ hc₂ => .ok ⟨rfl, hc₂.forget⟩
  · rw [Walk.bind_ok hb, ha]
    exact .ok ⟨rfl, hc₁.ahead, hc₁.unmarked, hc₁.scope, hc₁.created.trans hf, hc₁.req⟩

omit shorter in
private theorem followed_binary_zero (tighter : Followed toks d .unary s) :
    Followed toks (d + 1) (.binary 0) s := by
  intro c hc
  simp only
  rw [Walk.binary, binary]
  exact tighter c hc

end Expr

/-- A token makes up for all the calls that can be made before it is passed. -/
theorem followed (toks : List Token) (d : Nat) (f : Form) (s : State)
    (h : 10 * s.ahead.length + f.rank < d) : Followed toks d f s := by
  induction d generalizing f s with
  | zero => omega
  | succ d ih =>
    have shorter (g : Form) (s' : State) (hg : g.rank < 10)
        (hs : s'.ahead.length < s.ahead.length) : Followed toks d g s' :=
      ih g s' (by omega)
    have tighter (g : Form) (hg : g.rank < f.rank) : Followed toks d g s := ih g s (by omega)
    cases f with
    | primary => exact followed_primary shorter
    | arguments => exact followed_arguments (tighter .argumentList (by decide))
    | argumentList => exact followed_argumentList shorter (tighter .assign (by decide))
    | unary => exact followed_unary shorter (tighter .primary (by decide))
    | binary n =>
      cases n with
      | zero => exact followed_binary_zero (tighter .unary (by decide))
      | succ n => exact followed_binary_succ shorter n (tighter (.binary n) (Nat.lt_succ_self _))
    | chain n l => exact followed_chain shorter n l
    | assign => exact followed_assign shorter (tighter (.binary levels) (by decide))

end Cursor
end StackC
