import StackC.Proofs.Asm.Labels
import Mathlib.Logic.Function.Basic
import Mathlib.Logic.Relation

/-! The stack machine that runs the code. Its integers are exact, and it stops for good at a missing
operand, an address without a cell, a division by zero, and a label that nothing has. -/
namespace StackC.Asm

/-- What machines differ in: where the cells are, and how quotients are rounded. -/
structure Machine where
  address : Bytes → Int
  quotient : Int → Int → Int

/-- The cells by their addresses. -/
abbrev Memory := Int → Option Int

structure State where
  /-- The code from the next instruction on. -/
  rest : List Instr
  stack : List Int
  /-- The code behind each call that has not returned. -/
  calls : List (List Instr)
  memory : Memory
  shown : List Int

namespace State

def initial (code : List Instr) (memory : Memory) : State := ⟨code, [], [], memory, []⟩

def halted (s : State) : Bool := s.rest.head? == some .halt

def goto (s : State) (rest : Option (List Instr)) : Option State :=
  rest.map fun rest => { s with rest }

def write (s : State) (a v : Int) : Option State :=
  (s.memory a).map fun _ => { s with memory := Function.update s.memory a (some v) }

/-- There is code to run before control is at a place: in front of the place, or inside a call that
was made there. -/
inductive Before (s : State) (rest : List Instr) (calls : List (List Instr)) : Prop
  | ahead (part : List Instr) (some : part ≠ []) (place : s.rest = part ++ rest)
      (level : s.calls = calls)
  | inside (inner : List (List Instr)) (some : inner ≠ []) (deeper : s.calls = inner ++ calls)

theorem not_before_self (s : State) : ¬s.Before s.rest s.calls := by
  intro h
  cases h with
  | ahead part some place level => exact some (List.self_eq_append_left.mp place)
  | inside inner some deeper => exact some (List.self_eq_append_left.mp deeper)

/-- What is before a place is before all that follows it. -/
theorem Before.later {s : State} {part rest : List Instr} {calls : List (List Instr)}
    (h : s.Before (part ++ rest) calls) : s.Before rest calls := by
  cases h with
  | ahead front some place level =>
    exact .ahead (front ++ part) (by simp [some]) (by rw [place, List.append_assoc]) level
  | inside inner some deeper => exact .inside inner some deeper

end State

def truth (p : Prop) [Decidable p] : Int := if p then 1 else 0

namespace Machine

/-- The effect of an instruction, in a state from which it is already taken. The code as a whole is
needed to find labels in it. -/
def execute (M : Machine) (code : List Instr) (i : Instr) (s : State) : Option State :=
  match i, s.stack with
  | .label _, _ => some s
  | .jump l, _ => s.goto (behind l code)
  | .jumpZero l, v :: _ => if v = 0 then s.goto (behind l code) else some s
  | .jumpNegative l, v :: _ => if v < 0 then s.goto (behind l code) else some s
  | .call l, _ => { s with calls := s.rest :: s.calls }.goto (behind l code)
  | .ret, _ =>
    match s.calls with
    | [] => none
    | back :: calls => some { s with rest := back, calls }
  | .display, v :: st => some { s with stack := st, shown := s.shown ++ [v] }
  | .push n, st => some { s with stack := n :: st }
  | .load x, st => (s.memory (M.address x)).map fun v => { s with stack := v :: st }
  | .address x, st => some { s with stack := M.address x :: st }
  | .store x, v :: st => { s with stack := st }.write (M.address x) v
  | .storeThrough x, v :: st =>
    (s.memory (M.address x)).bind fun a => { s with stack := st }.write a v
  | .drop, _ :: st => some { s with stack := st }
  | .neg, v :: st => some { s with stack := -v :: st }
  | .deref, a :: st => (s.memory a).map fun v => { s with stack := v :: st }
  | .add, b :: a :: st => some { s with stack := (a + b) :: st }
  | .sub, b :: a :: st => some { s with stack := (a - b) :: st }
  | .mul, b :: a :: st => some { s with stack := (a * b) :: st }
  | .div, b :: a :: st => if b = 0 then none else some { s with stack := M.quotient a b :: st }
  | .equal, b :: a :: st => some { s with stack := truth (a = b) :: st }
  | _, _ => none

/-- One step of the machine, if it can take one. -/
def step (M : Machine) (code : List Instr) (s : State) : Option State :=
  match s.rest with
  | [] => none
  | i :: rest => M.execute code i { s with rest }

/-- The machine gets from one state to another, in any number of steps. -/
def Reaches (M : Machine) (code : List Instr) : State → State → Prop :=
  Relation.ReflTransGen fun s t => M.step code s = some t

variable {M : Machine} {code : List Instr} {s t u : State}

theorem Reaches.refl : M.Reaches code s s := Relation.ReflTransGen.refl

theorem Reaches.trans (h : M.Reaches code s t) (h' : M.Reaches code t u) : M.Reaches code s u :=
  Relation.ReflTransGen.trans h h'

/-- One step, and then others. -/
theorem Reaches.step (h : M.step code s = some t) (h' : M.Reaches code t u) :
    M.Reaches code s u :=
  Relation.ReflTransGen.head h h'

/-- The machine gets from one state to another, and not to the place of the second one before. -/
def Runs (M : Machine) (code : List Instr) (s t : State) : Prop :=
  Relation.ReflTransGen (fun u v => u.Before t.rest t.calls ∧ M.step code u = some v) s t

namespace Runs

theorem refl : M.Runs code s s := Relation.ReflTransGen.refl

theorem reaches (h : M.Runs code s t) : M.Reaches code s t :=
  Relation.ReflTransGen.mono (fun _ _ h => h.2) _ _ h

/-- One step of code before the place, and then others. -/
theorem step (hb : s.Before t.rest t.calls) (h : M.step code s = some u) (h' : M.Runs code u t) :
    M.Runs code s t :=
  Relation.ReflTransGen.head ⟨hb, h⟩ h'

/-- One step inside a call, and then others. -/
theorem inside {back : List Instr} (hs : s.calls = back :: t.calls) (h : M.step code s = some u)
    (h' : M.Runs code u t) : M.Runs code s t :=
  .step (.inside [back] (List.cons_ne_nil _ _) hs) h h'

/-- Code that is run up to a place, and then from there on. -/
theorem trans {p : List Instr} (h : M.Runs code s t) (h' : M.Runs code t u)
    (hp : t.rest = p ++ u.rest) (hc : t.calls = u.calls) : M.Runs code s u := by
  refine Relation.ReflTransGen.trans (Relation.ReflTransGen.mono (fun a b hab => ?_) _ _ h) h'
  rw [hp, hc] at hab
  exact ⟨hab.1.later, hab.2⟩

/-- Where there is code left to run, a step is taken. -/
theorem exists_step (h : M.Runs code s t) (hb : s.Before t.rest t.calls) :
    ∃ u, M.step code s = some u ∧ M.Runs code u t := by
  rcases Relation.ReflTransGen.cases_head h with rfl | ⟨u, ⟨-, hu⟩, h⟩
  · exact absurd hb s.not_before_self
  · exact ⟨u, hu, h⟩

/-- A run to the place where it begins is over. -/
theorem eq_of_place (h : M.Runs code s t) (hr : s.rest = t.rest) (hc : s.calls = t.calls) :
    s = t := by
  rcases Relation.ReflTransGen.cases_head h with rfl | ⟨u, ⟨hb, -⟩, -⟩
  · rfl
  · rw [← hr, ← hc] at hb
    exact absurd hb s.not_before_self

/-- A run to a place goes through every place that is before it. -/
theorem onward {p : List Instr} (h : M.Runs code s t) (h' : M.Runs code s u)
    (hp : u.rest = p ++ t.rest) (hc : u.calls = t.calls) : M.Runs code u t := by
  induction h' using Relation.ReflTransGen.head_induction_on with
  | refl => exact h
  | head hab _ ih =>
    rw [hp, hc] at hab
    obtain ⟨w, hw, h⟩ := h.exists_step hab.1.later
    cases hab.2.symm.trans hw
    exact ih h

end Runs

section Jumps

variable {l : Bytes} {v : Int} {rest next : List Instr} {stack shown : List Int}
  {calls : List (List Instr)} {memory : Memory}

theorem step_jump (h : behind l code = some next) :
    M.step code ⟨.jump l :: rest, stack, calls, memory, shown⟩ =
      some ⟨next, stack, calls, memory, shown⟩ := by
  simp [step, execute, State.goto, h]

private theorem step_call (h : behind l code = some next) :
    M.step code ⟨.call l :: rest, stack, calls, memory, shown⟩ =
      some ⟨next, stack, rest :: calls, memory, shown⟩ := by
  simp [step, execute, State.goto, h]

/-- The value that is tested stays on the stack. -/
theorem step_jumpZero_taken (h : behind l code = some next) :
    M.step code ⟨.jumpZero l :: rest, 0 :: stack, calls, memory, shown⟩ =
      some ⟨next, 0 :: stack, calls, memory, shown⟩ := by
  simp [step, execute, State.goto, h]

theorem step_jumpZero_passed (hv : v ≠ 0) :
    M.step code ⟨.jumpZero l :: rest, v :: stack, calls, memory, shown⟩ =
      some ⟨rest, v :: stack, calls, memory, shown⟩ := by
  simp [step, execute, hv]

theorem step_jumpNegative_taken (hv : v < 0) (h : behind l code = some next) :
    M.step code ⟨.jumpNegative l :: rest, v :: stack, calls, memory, shown⟩ =
      some ⟨next, v :: stack, calls, memory, shown⟩ := by
  simp [step, execute, State.goto, hv, h]

theorem step_jumpNegative_passed (hv : ¬v < 0) :
    M.step code ⟨.jumpNegative l :: rest, v :: stack, calls, memory, shown⟩ =
      some ⟨rest, v :: stack, calls, memory, shown⟩ := by
  simp [step, execute, hv]

/-- A call, and then the steps inside it. -/
theorem Runs.enter {next : List Instr} {t : State} (h : behind l code = some next)
    (h' : M.Runs code ⟨next, stack, t.rest :: t.calls, memory, shown⟩ t) :
    M.Runs code ⟨.call l :: t.rest, stack, t.calls, memory, shown⟩ t :=
  .step (.ahead [.call l] (List.cons_ne_nil _ _) rfl rfl) (step_call h) h'

end Jumps

end Machine

theorem truth_of_pos {p : Prop} [Decidable p] (h : p) : truth p = 1 := if_pos h

theorem truth_of_neg {p : Prop} [Decidable p] (h : ¬p) : truth p = 0 := if_neg h

end StackC.Asm
