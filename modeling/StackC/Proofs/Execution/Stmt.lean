import StackC.Proofs.Execution.Expr

/-! The code of statements does what they say. -/
namespace StackC

namespace Lowering

open Asm

/-- The state in which an ending leaves the machine: with the code that follows, or with the
returned value before the code behind the exit. -/
def endState (out next : List Instr) (stack : List Int) (calls : List (List Instr))
    (memory : Memory) (shown : List Int) : Ending → State
  | .next _ => ⟨next, stack, calls, memory, shown⟩
  | .returned v _ => ⟨out, v :: stack, calls, memory, shown⟩

/-- From the start the machine arrives where an ending leads. Values that were tested may be left
on the stack. -/
def Arrives (M : Machine) (code : List Instr) (locals : List Local) (out start next : List Instr)
    (σ : Store) (e : Ending) : Prop :=
  ∀ stack calls memory shown, Agrees M locals σ memory →
    ∃ stack' memory', Agrees M locals e.store memory' ∧
      M.Reaches code ⟨start, stack, calls, memory, shown⟩
        (endState out next stack' calls memory' shown e)

namespace Arrives

variable {M : Machine} {code out start mid next : List Instr} {locals : List Local}
  {σ σ₁ : Store} {e e₁ : Ending} {l : Bytes}

theorem refl : Arrives M code locals out next next σ (.next σ) :=
  fun stack _ memory _ hm => ⟨stack, memory, hm, .refl⟩

theorem trans (h₁ : Arrives M code locals out start mid σ (.next σ₁))
    (h₂ : Arrives M code locals out mid next σ₁ e) :
    Arrives M code locals out start next σ e := by
  intro stack calls memory shown hm
  obtain ⟨st₁, m₁, hm₁, hr₁⟩ := h₁ stack calls memory shown hm
  obtain ⟨st₂, m₂, hm₂, hr₂⟩ := h₂ st₁ calls m₁ shown hm₁
  exact ⟨st₂, m₂, hm₂, hr₁.trans hr₂⟩

/-- What is done behind statements that did not return. -/
theorem andThen {f : Store → Option Ending} (h₁ : Arrives M code locals out start mid σ e₁)
    (he : e₁.andThen f = some e)
    (h₂ : ∀ σ₁, f σ₁ = some e → Arrives M code locals out mid next σ₁ e) :
    Arrives M code locals out start next σ e := by
  cases e₁ with
  | next σ₁ => exact h₁.trans (h₂ σ₁ he)
  | returned v σ₁ =>
    cases he
    exact h₁

/-- What is only passed behind statements does not matter to how they end. -/
theorem pass (h₁ : Arrives M code locals out start mid σ e)
    (h₂ : ∀ σ, Arrives M code locals out mid next σ (.next σ)) :
    Arrives M code locals out start next σ e := by
  cases e with
  | next σ₁ => exact h₁.trans (h₂ σ₁)
  | returned v σ₁ => exact h₁

theorem label : Arrives M code locals out (.label l :: next) next σ (.next σ) :=
  fun stack _ memory _ hm => ⟨stack, memory, hm, .step rfl .refl⟩

theorem jump (h : behind l code = some next) :
    Arrives M code locals out (.jump l :: mid) next σ (.next σ) :=
  fun stack _ memory _ hm => ⟨stack, memory, hm, .step (Machine.step_jump h) .refl⟩

theorem ofTransforms {part : List Instr} (h : Transforms M code locals part σ [] σ₁ []) :
    Arrives M code locals out (part ++ next) next σ (.next σ₁) := by
  intro stack calls memory shown hm
  obtain ⟨m₁, hm₁, hr⟩ := h next stack calls memory shown hm
  exact ⟨stack, m₁, hm₁, hr⟩

/-- A test, and the jump that depends on it. -/
theorem test {part : List Instr} {v : Int} (ht : Transforms M code locals part σ [] σ₁ [v])
    (hl : behind l code = some mid)
    (h : if v = 0 then Arrives M code locals out mid next σ₁ e
      else Arrives M code locals out start next σ₁ e) :
    Arrives M code locals out (part ++ Instr.jumpZero l :: start) next σ e := by
  intro stack calls memory shown hm
  obtain ⟨m₁, hm₁, hr₁⟩ := ht (.jumpZero l :: start) stack calls memory shown hm
  split at h
  · next hv =>
    cases hv
    obtain ⟨st₂, m₂, hm₂, hr₂⟩ := h (0 :: stack) calls m₁ shown hm₁
    exact ⟨st₂, m₂, hm₂, hr₁.trans (.step (Machine.step_jumpZero_taken hl) hr₂)⟩
  · next hv =>
    obtain ⟨st₂, m₂, hm₂, hr₂⟩ := h (v :: stack) calls m₁ shown hm₁
    exact ⟨st₂, m₂, hm₂, hr₁.trans (.step (Machine.step_jumpZero_passed hv) hr₂)⟩

/-- A value, and the jump to the exit with it. -/
theorem ret {part : List Instr} {v : Int} (ht : Transforms M code locals part σ [] σ₁ [v])
    (hl : behind l code = some out) :
    Arrives M code locals out (part ++ Instr.jump l :: mid) next σ (.returned v σ₁) := by
  intro stack calls memory shown hm
  obtain ⟨m₁, hm₁, hr₁⟩ := ht (.jump l :: mid) stack calls memory shown hm
  exact ⟨stack, m₁, hm₁, hr₁.trans (.step (Machine.step_jump hl) .refl)⟩

end Arrives

/-- The assignments of a task are where their values are not misread. -/
def directTask : Task → Bool
  | .one x => x.direct
  | .many xs => Stmt.allDirect xs
  | .rounds test step body => test.direct && step.directInside && body.direct

/-- The code of a task stands between two points. That of the rounds of a loop is behind the label
to which each of them goes back. -/
def Placed (c : Context) (code : List Instr) : Task → List Instr → List Instr → Prop
  | .one x, start, next => ∃ n part m, Emits c (.ofOptional x) n part m ∧ start = part ++ next
  | .many xs, start, next => ∃ n part m, Emits c (.many xs) n part m ∧ start = part ++ next
  | .rounds test step body, start, next => ∃ k n t b s m,
    (test.isAbsent = false → test.Proper c.locals.length c.req) ∧
      (step.isAbsent = false → step.Proper c.locals.length c.req) ∧
      loopTest c (endLabel k) test = .ok t ∧ Emits c (.one body) n b m ∧
      loopStep c step = .ok s ∧
      start = t ++ (b ++ (s ++ Instr.jump (beginLabel k) :: .label (endLabel k) :: next)) ∧
      .label (beginLabel k) :: start <:+ code

variable {M : Machine} {c : Context} {code out start next : List Instr} {σ : Store} {e : Ending}

theorem emits_ofOptional {x : Stmt} {n m : Nat} {part : List Instr}
    (h : Emits c (.one x) n part m) : Emits c (.ofOptional x) n part m := by
  have ha : x.isAbsent = false := by
    cases h <;> rfl
  rw [Piece.ofOptional, ha]
  exact h

/-- The machine runs the code of every task that stays within a bound to where the task ends. -/
def Simulates (M : Machine) (code : List Instr) (c : Context) (out : List Instr) (bound : Nat) :
    Prop :=
  ∀ task σ e start next, directTask task → task.run M c.locals bound σ = some e →
    Placed c code task start next → start <:+ code → Arrives M code c.locals out start next σ e

section Steps

variable {bound : Nat}

theorem arrives_cond (ih : Simulates M code c out bound) (hl : Linked c.req code) {yes no : Stmt}
    {k n n₁ n₂ m : Nat} {t a b : List Instr} {σ₁ : Store} {v : Int}
    (ht : Transforms M code c.locals t σ [] σ₁ [v]) (ha : Emits c (.one yes) n a n₁)
    (hb : Emits c (.ofOptional no) n₂ b m) (hy : yes.direct) (hn : no.direct)
    (hr : (Task.one (if v = 0 then no else yes)).run M c.locals bound σ₁ = some e)
    (hc : condCode k t a b ++ next <:+ code) :
    Arrives M code c.locals out (condCode k t a b ++ next) next σ e := by
  have hcode : condCode k t a b ++ next = t ++ Instr.jumpZero (elseLabel k) ::
      (a ++ Instr.jump (endLabel k) :: .label (elseLabel k) ::
        (b ++ Instr.label (endLabel k) :: next)) := by
    simp [condCode]
  rw [hcode] at hc ⊢
  have helse : behind (elseLabel k) code = some (b ++ Instr.label (endLabel k) :: next) :=
    behind_of_suffix (a := t ++ Instr.jumpZero (elseLabel k) :: (a ++ [Instr.jump (endLabel k)]))
      hl.distinct (by simpa using hc)
  have hend : behind (endLabel k) code = some next :=
    behind_of_suffix (a := t ++ Instr.jumpZero (elseLabel k) :: (a ++ Instr.jump (endLabel k) ::
      .label (elseLabel k) :: b)) hl.distinct (by simpa using hc)
  refine .test ht helse ?_
  split at hr
  · next hv =>
    rw [if_pos hv]
    refine (ih (.one no) σ₁ e _ _ hn hr ⟨_, b, _, hb, rfl⟩ ?_).pass fun σ => .label
    exact ((List.suffix_append (t ++ Instr.jumpZero (elseLabel k) :: (a ++ [Instr.jump (endLabel k),
      .label (elseLabel k)])) _).trans (by simpa using hc))
  · next hv =>
    rw [if_neg hv]
    refine (ih (.one yes) σ₁ e _ _ hy hr ⟨_, a, _, emits_ofOptional ha, rfl⟩ ?_).pass
      fun σ => .jump hend
    exact ((List.suffix_append (t ++ [Instr.jumpZero (elseLabel k)]) _).trans (by simpa using hc))

theorem arrives_loop (ih : Simulates M code c out bound) {first body : Stmt} {test step : Expr}
    {k n n₁ m : Nat} {i t b s : List Instr}
    (properTest : test.isAbsent = false → test.Proper c.locals.length c.req)
    (properStep : step.isAbsent = false → step.Proper c.locals.length c.req)
    (hi : Emits c (.ofOptional first) n i n₁) (ht : loopTest c (endLabel k) test = .ok t)
    (hb : Emits c (.one body) n₁ b m) (hs : loopStep c step = .ok s)
    (hf : first.direct) (hd : directTask (.rounds test step body)) {e₁ : Ending}
    (hr : (Task.one first).run M c.locals bound σ = some e₁)
    (he : e₁.andThen ((Task.rounds test step body).run M c.locals bound) = some e)
    (hc : loopCode k i t b s ++ next <:+ code) :
    Arrives M code c.locals out (loopCode k i t b s ++ next) next σ e := by
  have hcode : loopCode k i t b s ++ next = i ++ Instr.label (beginLabel k) ::
      (t ++ (b ++ (s ++ Instr.jump (beginLabel k) :: .label (endLabel k) :: next))) := by
    simp [loopCode]
  rw [hcode] at hc ⊢
  refine (ih (.one first) σ e₁ _ _ hf hr ⟨_, i, _, hi, rfl⟩ hc).andThen he fun σ₁ h₁ =>
    .trans .label ?_
  have hbegin := (List.suffix_append i _).trans hc
  refine ih (.rounds test step body) σ₁ e _ _ hd h₁ ?_ ((List.suffix_cons _ _).trans hbegin)
  exact ⟨k, n₁, t, b, s, m, properTest, properStep, ht, hb, hs, rfl, hbegin⟩

private theorem arrives_rounds (ih : Simulates M code c out bound) (hl : Linked c.req code)
    (hs : Separate M c.locals) {body : Stmt} {test step : Expr}
    (hd : directTask (.rounds test step body))
    (hr : (Task.rounds test step body).run M c.locals (bound + 1) σ = some e)
    (hp : Placed c code (.rounds test step body) start next) (hc : start <:+ code) :
    Arrives M code c.locals out start next σ e := by
  obtain ⟨k, n, t, b, s, m, properTest, properStep, ht, hb, hstep, hstart, hbegin⟩ := id hp
  obtain ⟨⟨go, σ₁⟩, hgo, hr⟩ := Option.bind_eq_some_iff.mp hr
  have hend : behind (endLabel k) code = some next :=
    behind_of_suffix (a := t ++ (b ++ (s ++ [Instr.jump (beginLabel k)]))) hl.distinct
      (by simpa [hstart] using hc)
  have hback : behind (beginLabel k) code = some start :=
    behind_of_suffix (a := []) hl.distinct hbegin
  have hdir := hd
  rw [directTask, Bool.and_eq_true, Bool.and_eq_true] at hdir
  -- One round: the body, the step, and the way back to the test.
  have hround (hg : go = true) : Arrives M code c.locals out
      (b ++ (s ++ Instr.jump (beginLabel k) :: .label (endLabel k) :: next)) next σ₁ e := by
    rw [hg] at hr
    obtain ⟨e₁, hbody, he⟩ := Option.bind_eq_some_iff.mp hr
    refine (ih (.one body) σ₁ e₁ _ _ hdir.2 hbody ⟨n, b, m, emits_ofOptional hb, rfl⟩ ?_).andThen he
      fun σ₂ h₂ => ?_
    · exact (List.suffix_append t _).trans (hstart ▸ hc)
    · obtain ⟨σ₃, h₃, hagain⟩ := Option.bind_eq_some_iff.mp h₂
      have hs₃ := transforms_loopStep hl hs properStep hdir.1.2 hstep h₃
      refine (Arrives.ofTransforms hs₃).trans ?_
      exact (Arrives.jump hback).trans (ih (.rounds test step body) σ₃ e _ _ hd hagain hp hc)
  rw [hstart]
  rcases loopTest_cases ht with ⟨ha, rfl⟩ | ⟨ha, a, hv, rfl⟩
  · rw [Expr.holds, ha, if_pos rfl] at hgo
    cases hgo
    exact hround rfl
  · rw [Expr.holds, ha, if_neg (by decide)] at hgo
    obtain ⟨⟨v, σ₂⟩, hval, hgo⟩ := Option.map_eq_some_iff.mp hgo
    cases hgo
    rw [List.append_assoc]
    refine .test (transforms_value hl hs (properTest ha) hdir.1.1 hv hval) hend ?_
    split
    · next hz =>
      rw [hz] at hr
      cases hr
      exact .refl
    · next hz => exact hround (bne_iff_ne.mpr hz)

private theorem arrives_many (ih : Simulates M code c out bound) {xs : List Stmt} {n m : Nat}
    {part : List Instr} (h : Emits c (.many xs) n part m) (hd : Stmt.allDirect xs)
    (hr : (Task.many xs).run M c.locals (bound + 1) σ = some e) (hc : part ++ next <:+ code) :
    Arrives M code c.locals out (part ++ next) next σ e := by
  cases h with
  | nil =>
    cases hr
    exact .refl
  | @cons n n₁ m x xs a b first rest =>
    obtain ⟨e₁, h₁, he⟩ := Option.bind_eq_some_iff.mp hr
    rw [Stmt.allDirect, Bool.and_eq_true] at hd
    rw [List.append_assoc] at hc ⊢
    refine (ih (.one x) σ e₁ _ _ hd.1 h₁ ⟨n, a, n₁, emits_ofOptional first, rfl⟩ hc).andThen he
      fun σ₁ h₂ => ?_
    exact ih (.many xs) σ₁ e _ _ hd.2 h₂ ⟨n₁, b, m, rest, rfl⟩ ((List.suffix_append a _).trans hc)

private theorem arrives_one (ih : Simulates M code c out bound) (hl : Linked c.req code)
    (hs : Separate M c.locals) (hout : behind c.exit code = some out) {x : Stmt} {n m : Nat}
    {part : List Instr} (h : Emits c (.ofOptional x) n part m) (hd : x.direct)
    (hr : (Task.one x).run M c.locals (bound + 1) σ = some e) (hc : part ++ next <:+ code) :
    Arrives M code c.locals out (part ++ next) next σ e := by
  cases x with
  | absent =>
    cases h
    cases hr
    exact .refl
  | block pos body =>
    cases h with
    | block inner => exact ih (.many body) σ e _ _ hd hr ⟨n, part, m, inner, rfl⟩ hc
  | cond pos test yes no =>
    rw [Stmt.direct, Bool.and_eq_true, Bool.and_eq_true] at hd
    obtain ⟨⟨v, σ₁⟩, hv, hr⟩ := Option.bind_eq_some_iff.mp hr
    cases h with
    | cond proper tested first second =>
      have ht := transforms_value hl hs proper hd.1.1 tested hv
      exact arrives_cond ih hl ht first second hd.1.2 hd.2 hr hc
  | loop pos first test step body =>
    rw [Stmt.direct, Bool.and_eq_true, Bool.and_eq_true, Bool.and_eq_true] at hd
    obtain ⟨e₁, h₁, he⟩ := Option.bind_eq_some_iff.mp hr
    have hrounds : directTask (.rounds test step body) := by
      simp [directTask, hd]
    cases h with
    | loop properTest properStep started tested inner stepped =>
      exact arrives_loop ih properTest properStep started tested inner stepped hd.1.1.1 hrounds h₁
        he hc
  | ret pos x =>
    obtain ⟨⟨v, σ₁⟩, hv, hr⟩ := Option.bind_eq_some_iff.mp hr
    cases hr
    cases h with
    | ret proper valued =>
      rw [List.append_assoc]
      exact .ret (transforms_value hl hs proper hd valued hv) hout
  | expr pos x =>
    obtain ⟨σ₁, he, hr⟩ := Option.bind_eq_some_iff.mp hr
    cases hr
    cases h with
    | expr proper run => exact .ofTransforms (transforms_effect hl hs proper hd run he)

end Steps

/-- Code that holds its routines is run as its statements say, however long that takes. -/
theorem simulates (hl : Linked c.req code) (hs : Separate M c.locals)
    (hout : behind c.exit code = some out) (bound : Nat) : Simulates M code c out bound := by
  induction bound with
  | zero =>
    intro task σ e start next hd hr
    cases hr
  | succ bound ih =>
    intro task σ e start next hd hr hp hc
    cases task with
    | one x =>
      obtain ⟨n, part, m, he, rfl⟩ := hp
      exact arrives_one ih hl hs hout he hd hr hc
    | many xs =>
      obtain ⟨n, part, m, he, rfl⟩ := hp
      exact arrives_many ih he hd hr hc
    | rounds test step body => exact arrives_rounds ih hl hs hd hr hp hc

end Lowering

end StackC
