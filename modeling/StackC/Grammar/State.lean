import StackC.SourceError
import StackC.Token.Basic
import StackC.Tree.Typing

/-! The state of a parse, and steps that each leave fewer tokens ahead. -/
namespace StackC.Grammar

/-- What a parse has ahead of it and what it knows. -/
structure State where
  /-- The tokens ahead, without an end mark. -/
  ahead : List Token
  /-- The offset of the end of the token list. -/
  stop : Int
  /-- The locals of the function so far. -/
  locals : List Local := []
  /-- The local that the operand read last has introduced. -/
  fresh : Option Nat := none
  req : Requirements

/-- A parse that stopped, with the flags that were set until then. -/
structure Halt where
  error : SourceError
  req : Requirements
  deriving DecidableEq, Repr

namespace State

def pos (s : State) : Int :=
  match s.ahead with
  | t :: _ => t.pos
  | [] => s.stop

def haltAt {α : Type} (s : State) (offset : Int) (cause : Cause) : Except Halt α :=
  .error { error := ⟨cause, offset⟩, req := s.req }

def halt {α : Type} (s : State) (cause : Cause) : Except Halt α := s.haltAt s.pos cause

end State

/-- What a step from `s` gives that consumes at least one token. -/
structure Progress (s : State) (α : Type) where
  value : α
  state : State
  shorter : state.ahead.length < s.ahead.length

/-- What a step from `s` gives that may consume nothing. -/
structure Pause (s : State) (α : Type) where
  value : α
  state : State
  notLonger : state.ahead.length ≤ s.ahead.length

def Pause.stay {s : State} {α : Type} (value : α) : Pause s α := ⟨value, s, Nat.le_refl _⟩

/-- A step from `s` whose second half is `p`. -/
def Pause.after {s t : State} {α : Type} (p : Pause t α) (h : t.ahead.length < s.ahead.length) :
    Progress s α :=
  ⟨p.value, p.state, Nat.lt_of_le_of_lt p.notLonger h⟩

def Progress.pause {s : State} {α : Type} (p : Progress s α) : Pause s α :=
  ⟨p.value, p.state, Nat.le_of_lt p.shorter⟩

/-- A step from `s` whose second half is `p`. -/
def Progress.after {s t : State} {α : Type} (p : Progress t α)
    (h : t.ahead.length < s.ahead.length) : Progress s α :=
  p.pause.after h

/-- A step from `s` whose first half is `p`. -/
def Pause.before {s : State} {α β : Type} (p : Pause s α) (q : Progress p.state β) :
    Progress s β :=
  ⟨q.value, q.state, Nat.lt_of_lt_of_le q.shorter p.notLonger⟩

def next? (s : State) : Option (Progress s Token) :=
  match h : s.ahead with
  | t :: rest => some ⟨t, { s with ahead := rest }, by simp [h]⟩
  | [] => none

/-- The next token, if it is this punctuator or keyword. -/
def accept? (lit : Bytes) (s : State) : Option (Progress s Token) :=
  (next? s).filter fun p => p.value.is lit

/-- The next token, which must be this punctuator or keyword. -/
def expect (lit : Bytes) (s : State) : Except Halt (Progress s Token) :=
  match accept? lit s with
  | some p => .ok p
  | none => s.halt (.expected lit)

def identifier (s : State) : Except Halt (Progress s Token) :=
  match (next? s).filter fun p => p.value.kind == .ident with
  | some p => .ok p
  | none => s.halt .expectedIdentifier

/-- The same step with the token that must end it. -/
def Progress.upTo {s : State} {α : Type} (close : Bytes) (p : Progress s α) :
    Except Halt (Progress s α) := do
  let ⟨_, t, h⟩ ← expect close p.state
  return ⟨p.value, t, Nat.lt_trans h p.shorter⟩

/-- Consumes a run of stars. The type has one pointer for each. -/
def pointers (s : State) : Pause s Ty :=
  let star (t : Token) : Bool := t.is (ascii "*")
  ⟨.stars (s.ahead.takeWhile star).length, { s with ahead := s.ahead.dropWhile star },
    (List.dropWhile_suffix star).length_le⟩

end StackC.Grammar
