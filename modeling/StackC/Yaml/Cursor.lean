import StackC.Yaml.Character

/-! A place in a YAML text. -/
namespace StackC.Yaml

/-- What lies ahead, and where. -/
structure Cursor where
  rest : List Char
  /-- The number of characters passed. -/
  index : Nat := 0
  line : Nat := 0
  column : Nat := 0
  /-- A line break has been passed, and nothing but blanks since. -/
  fresh : Bool := false
  deriving Repr

namespace Cursor

def count (c : Cursor) (a : Char) : Cursor :=
  if isBreak a then
    { c with index := c.index + 1, line := c.line + 1, column := 0, fresh := true }
  else
    { c with index := c.index + 1, column := c.column + 1, fresh := c.fresh && isBlank a }

def pass (n : Nat) (c : Cursor) : Cursor :=
  (c.rest.take n).foldl count { c with rest := c.rest.drop n }

theorem rest_foldl_count (cs : List Char) (c : Cursor) : (cs.foldl count c).rest = c.rest := by
  induction cs generalizing c with
  | nil => rfl
  | cons a cs ih =>
    rw [List.foldl_cons, ih]
    unfold count
    split <;> rfl

@[simp, grind =]
theorem rest_pass (n : Nat) (c : Cursor) : (c.pass n).rest = c.rest.drop n :=
  rest_foldl_count _ _

def head? (c : Cursor) : Option Char := c.rest.head?

/-- The longest start of what lies ahead whose characters all satisfy `p`. -/
def run (p : Char → Bool) (c : Cursor) : List Char := c.rest.takeWhile p

def passWhile (p : Char → Bool) (c : Cursor) : Cursor := c.pass (c.run p).length

/-- A line begins here with this mark and nothing directly behind it. -/
def atMark (mark : String) (c : Cursor) : Bool :=
  c.column == 0 && mark.toList.isPrefixOf c.rest && isGapOrEnd (c.rest.drop mark.length).head?

def atDocumentMark (c : Cursor) : Bool := c.atMark "---" || c.atMark "..."

/-- How far one looks for a comment. -/
def commentReach : Nat := 512

/-- Passes a comment that begins here, and those that follow it with only blank lines between. -/
def passComments (c : Cursor) : Cursor :=
  let c₁ := c.passWhile (!isBreak ·)
  let gap := c₁.run fun a => isBlank a || a == '\n'
  let next := c₁.pass gap.length
  if 0 < gap.length && gap.length < commentReach && next.head? == some '#' then passComments next
  else c₁
termination_by c.rest.length
decreasing_by
  have hg : 0 < gap.length := by grind
  have hn : next.rest ≠ [] := by grind [head?]
  have hl := List.length_pos_iff.2 hn
  have hc : c₁.rest.length ≤ c.rest.length := by simp [c₁, passWhile]
  change next.rest.length < c.rest.length
  simp only [next, rest_pass, List.length_drop] at hl ⊢
  omega

theorem length_rest_passComments_le (c : Cursor) :
    c.passComments.rest.length ≤ c.rest.length := by
  fun_induction passComments c with
  | case1 c c₁ gap next _ ih =>
    refine Nat.le_trans ih ?_
    simp only [next, c₁, passWhile, rest_pass, List.length_drop]
    omega
  | case2 c c₁ => simp [c₁, passWhile]

/-- Passes a comment that stands on the line of what was just passed. -/
def passLineComment (c : Cursor) : Cursor :=
  let blanks := (c.run isBlank).length
  let c₁ := c.pass blanks
  if !c.fresh && blanks < commentReach && c₁.head? == some '#' then c₁.passWhile (!isBreak ·) else c

end Cursor
end StackC.Yaml
