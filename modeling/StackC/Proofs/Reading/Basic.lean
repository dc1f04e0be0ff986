import StackC.Grammar.Program
import StackC.Proofs.Outcome

/-! Parser states from their last token backwards, and what the small steps of a parse do to
them. -/
namespace StackC

theorem Token.is_eq_false_of_ident {t : Token} (h : t.kind = .ident) (lit : Bytes) :
    t.is lit = false := by
  simp [Token.is, h]

theorem Token.is_eq_false_of_num {t : Token} (h : t.kind = .num) (lit : Bytes) :
    t.is lit = false := by
  simp [Token.is, h]

/-- A token has one spelling. -/
theorem Token.is_eq_false_of_is {t : Token} {a b : Bytes} (h : t.is a) (hne : a ≠ b) :
    t.is b = false := by
  simp only [Token.is, Bool.and_eq_true, beq_iff_eq] at h
  simp [Token.is, h.2, hne]

namespace Grammar

namespace State

def push (s : State) (t : Token) : State := { s with ahead := t :: s.ahead }

def pushAll (s : State) (ts : List Token) : State := { s with ahead := ts ++ s.ahead }

/-- The next token is this punctuator or keyword. -/
def starts (s : State) (lit : Bytes) : Bool := s.ahead.head?.any (·.is lit)

variable (s : State) (t : Token)

@[simp] theorem push_ahead : (s.push t).ahead = t :: s.ahead := rfl

@[simp] theorem push_stop : (s.push t).stop = s.stop := rfl

@[simp] theorem push_locals : (s.push t).locals = s.locals := rfl

@[simp] theorem push_fresh : (s.push t).fresh = s.fresh := rfl

@[simp] theorem push_req : (s.push t).req = s.req := rfl

@[simp] theorem push_pos : (s.push t).pos = t.pos := rfl

theorem length_lt_push : s.ahead.length < (s.push t).ahead.length := Nat.lt_succ_self _

theorem length_le_pushAll (ts : List Token) : s.ahead.length ≤ (s.pushAll ts).ahead.length := by
  simp [pushAll]

@[simp] theorem starts_push (lit : Bytes) : (s.push t).starts lit = t.is lit := rfl

/-- What is fresh does not change which token is next. -/
theorem eq_push_of_fresh {s s₁ : State} {t : Token} {fresh : Option Nat}
    (h : { s with fresh } = s₁.push t) : ∃ s₂ : State, s = s₂.push t ∧ s₁ = { s₂ with fresh } := by
  refine ⟨{ s₁ with fresh := s.fresh }, ?_, ?_⟩ <;> cases s <;> cases s₁ <;> simp_all [push]

/-- Nor do the locals. -/
theorem eq_push_of_locals {s s₁ : State} {t : Token} {locals : List Local}
    (h : { s with locals } = s₁.push t) :
    ∃ s₂ : State, s = s₂.push t ∧ s₁ = { s₂ with locals } := by
  refine ⟨{ s₁ with locals := s.locals }, ?_, ?_⟩ <;> cases s <;> cases s₁ <;> simp_all [push]

/-- Either nothing is ahead, or there is a next token. -/
theorem ended_or_push : s.ahead = [] ∨ ∃ t s', s = push s' t := by
  cases h : s.ahead with
  | nil => exact .inl rfl
  | cons t rest => exact .inr ⟨t, { s with ahead := rest }, by cases s; simp_all [push]⟩

end State

/-- A property of every form at every state, given that it follows from the property at all shorter
states and of all forms of smaller rank at the same state. -/
theorem ranked_induction {F : Type} (rank : F → Nat) {P : F → State → Prop}
    (step : ∀ f s, (∀ g s', s'.ahead.length < s.ahead.length → P g s') →
      (∀ g, rank g < rank f → P g s) → P f s) (f : F) (s : State) : P f s := by
  induction hn : s.ahead.length using Nat.strongRecOn generalizing f s with
  | _ n ihn =>
    induction hr : rank f using Nat.strongRecOn generalizing f with
    | _ r ihr =>
      subst hn hr
      exact step f s (fun g s' h => ihn _ h g s' rfl) (fun g h => ihr _ h g rfl)

variable {s s' : State} {t : Token} {lit : Bytes}

attribute [simp] Progress.pause Progress.after Pause.after Pause.before

theorem next?_ended (h : s.ahead = []) : next? s = none := by
  unfold next?
  split
  · simp_all
  · rfl

@[simp] theorem next?_push : next? (s.push t) = some ⟨t, s, s.length_lt_push t⟩ := rfl

theorem accept?_ended (h : s.ahead = []) : accept? lit s = none := by
  simp [accept?, next?_ended h]

@[simp] theorem accept?_push :
    accept? lit (s.push t) = if t.is lit then some ⟨t, s, s.length_lt_push t⟩ else none := by
  simp [accept?, Option.filter]

@[simp] theorem accept?_cons {rest : List Token} {stop : Int} {locals : List Local}
    {fresh : Option Nat} {req : Requirements} :
    accept? lit ⟨t :: rest, stop, locals, fresh, req⟩ =
      if t.is lit then some ⟨t, ⟨rest, stop, locals, fresh, req⟩, Nat.lt_succ_self _⟩
      else none := by
  simp [accept?, next?, Option.filter]

theorem accept?_eq_none : accept? lit s = none ↔ s.starts lit = false := by
  rcases s.ended_or_push with h | ⟨t, s, rfl⟩
  · simp [accept?_ended h, State.starts, h]
  · simp

theorem accept?_eq_some {h₁ : s'.ahead.length < s.ahead.length}
    (h : accept? lit s = some ⟨t, s', h₁⟩) : s = s'.push t ∧ t.is lit := by
  rcases s.ended_or_push with he | ⟨t, s, rfl⟩
  · simp [accept?_ended he] at h
  · rw [accept?_push] at h
    split at h
    · cases h
      exact ⟨rfl, by assumption⟩
    · cases h

@[simp] theorem expect_push (h : t.is lit) :
    expect lit (s.push t) = .ok ⟨t, s, s.length_lt_push t⟩ := by
  simp [expect, h]

/-- What must be next is next. -/
theorem expect_eq_ok {h₁ : s'.ahead.length < s.ahead.length}
    (h : expect lit s = .ok ⟨t, s', h₁⟩) : s = s'.push t ∧ t.is lit := by
  unfold expect at h
  split at h
  · next q hq =>
    cases h
    exact accept?_eq_some hq
  · cases h

/-- A step that has to end in a token gives its value once that token is read. -/
theorem upTo_eq_ok {α : Type} {p q : Progress s α} (h : p.upTo lit = .ok q) :
    ∃ t, p.state = q.state.push t ∧ t.is lit ∧ q.value = p.value := by
  obtain ⟨⟨t, s₁, h₁⟩, hr, hq⟩ := Outcome.bind_eq_ok.mp h
  obtain ⟨hs, ht⟩ := expect_eq_ok hr
  simp only [Outcome.pure_eq, Except.ok.injEq] at hq
  subst hq
  exact ⟨t, hs, ht, rfl⟩

theorem upTo_push {α : Type} {x : α} {h : (s'.push t).ahead.length < s.ahead.length}
    (ht : t.is lit) :
    (⟨x, s'.push t, h⟩ : Progress s α).upTo lit =
      .ok ⟨x, s', Nat.lt_trans (s'.length_lt_push t) h⟩ := by
  simp [Progress.upTo, expect_push ht]

theorem identifier_push (h : t.kind = .ident) :
    identifier (s.push t) = .ok ⟨t, s, s.length_lt_push t⟩ := by
  simp [identifier, Option.filter, h]

theorem identifier_eq_ok {h₁ : s'.ahead.length < s.ahead.length}
    (h : identifier s = .ok ⟨t, s', h₁⟩) : s = s'.push t ∧ t.kind = .ident := by
  rcases s.ended_or_push with he | ⟨t, s, rfl⟩
  · simp [identifier, next?_ended he, State.halt, State.haltAt] at h
  · by_cases hk : t.kind = .ident
    · rw [identifier_push hk] at h
      cases h
      exact ⟨rfl, hk⟩
    · simp [identifier, Option.filter, hk, State.halt, State.haltAt] at h

/-- A run of stars is read as far as it goes. -/
theorem pointers_pushAll {stars : List Token} (h : ∀ t ∈ stars, t.is (ascii "*"))
    (ht : t.is (ascii "*") = false) :
    pointers ((s.push t).pushAll stars) =
      ⟨.stars stars.length, s.push t, (s.push t).length_le_pushAll stars⟩ := by
  simp [pointers, State.pushAll, List.takeWhile_append_of_pos h, List.dropWhile_append_of_pos h,
    ht, State.push]

theorem exists_pushAll (s : State) : ∃ stars : List Token, (∀ t ∈ stars, t.is (ascii "*")) ∧
    s = (pointers s).state.pushAll stars ∧ (pointers s).value = .stars stars.length := by
  refine ⟨s.ahead.takeWhile (·.is (ascii "*")), ?_, ?_, rfl⟩
  · exact List.all_eq_true.mp List.all_takeWhile
  · simp [pointers, State.pushAll]

section Pairs

variable {α : Type} {x : α} {xs : List α}

theorem single_eq_ok {r : Except Halt (Progress s α)}
    (h : (r.map fun p => ([p.value], p.state)) = .ok ([x], s')) : ∃ h₁, r = .ok ⟨x, s', h₁⟩ := by
  obtain ⟨⟨y, s₁, h₁⟩, rfl, hp⟩ := Outcome.map_eq_ok.mp h
  cases hp
  exact ⟨h₁, rfl⟩

theorem list_eq_ok {r : Except Halt (Progress s (List α))}
    (h : (r.map fun p => (p.value, p.state)) = .ok (xs, s')) : ∃ h₁, r = .ok ⟨xs, s', h₁⟩ := by
  obtain ⟨⟨y, s₁, h₁⟩, rfl, hp⟩ := Outcome.map_eq_ok.mp h
  cases hp
  exact ⟨h₁, rfl⟩

theorem pause_eq_ok {r : Except Halt (Pause s α)}
    (h : (r.map fun p => ([p.value], p.state)) = .ok ([x], s')) : ∃ h₁, r = .ok ⟨x, s', h₁⟩ := by
  obtain ⟨⟨y, s₁, h₁⟩, rfl, hp⟩ := Outcome.map_eq_ok.mp h
  cases hp
  exact ⟨h₁, rfl⟩

end Pairs

end Grammar
end StackC
