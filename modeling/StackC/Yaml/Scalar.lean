import StackC.Yaml.Cursor

/-! Scalars: plain, quoted and in blocks. Each is read from its first character on, and comes with
the place behind it. -/
namespace StackC.Yaml

/-- What blanks and line breaks between two words stand for. A single line break is a space, and
of several the first is left out. -/
def fold (gap : List Char) : List Char :=
  match (gap.filter isBreak).map breakText with
  | [] => gap
  | first :: more =>
    if first != '\n' then first :: more
    else if more.isEmpty then [' ']
    else more

def flowMarks : List Char := ",?[]\x7b\x7d".toList

/-- The longest start of a text without blanks that belongs to a plain scalar. A colon before a
blank does not. -/
def plainWord (flow : Bool) : List Char → List Char
  | [] => []
  | a :: rest =>
    if isGap a || (a == ':' && isGapOrEnd rest.head?) || (flow && flowMarks.contains a) then []
    else a :: plainWord flow rest

@[grind .]
theorem length_plainWord_le (flow : Bool) (t : List Char) :
    (plainWord flow t).length ≤ t.length := by
  induction t with
  | nil => simp [plainWord]
  | cons a rest ih =>
    unfold plainWord
    split <;> simp [ih]

/-- A gap over several lines has a tab before column `indent`. The column is not known before the
first line break. -/
def tabIntrudes (indent : Int) : Option Nat → List Char → Bool
  | _, [] => false
  | column, a :: rest =>
    if isBreak a then tabIntrudes indent (some 0) rest
    else match column with
      | none => tabIntrudes indent none rest
      | some k => (a == '\t' && (k : Int) < indent) || tabIntrudes indent (some (k + 1)) rest

/-- The text of a plain scalar, whether line breaks follow it, and the place behind them. -/
structure Plain where
  text : List Char
  crossed : Bool
  next : Cursor

/-- Goes on with a plain scalar at the beginning of a word. `joint` stands between what is `done`,
which is in reverse, and the word. Outside of brackets the lines of a scalar have a column of
`indent` or more. -/
def plainFrom? (flow : Bool) (indent : Int) (done joint : List Char) (crossed : Bool) (c : Cursor) :
    Option Plain :=
  let word := plainWord flow c.rest
  if c.atDocumentMark || c.head? == some '#' || word.isEmpty then
    some ⟨done.reverse, crossed, c⟩
  else
    let done := word.reverse ++ (joint.reverse ++ done)
    let c₁ := c.pass word.length
    let gap := c₁.run isGap
    let c₂ := c₁.pass gap.length
    if gap.isEmpty then some ⟨done.reverse, false, c₂⟩
    else if tabIntrudes indent none gap then none
    else
      let crossed := gap.any isBreak
      if !flow && (c₂.column : Int) < indent then some ⟨done.reverse, crossed, c₂⟩
      else plainFrom? flow indent done (fold gap) crossed c₂
termination_by c.rest.length
decreasing_by
  have hw : 0 < word.length := by grind
  have hl : word.length ≤ c.rest.length := length_plainWord_le flow c.rest
  change c₂.rest.length < c.rest.length
  simp only [c₂, c₁, Cursor.rest_pass, List.length_drop]
  omega

def plain? (flow : Bool) (indent : Int) (c : Cursor) : Option Plain :=
  plainFrom? flow indent [] [] false c

def escapes : List (Char × Char) :=
  [('0', '\x00'), ('a', '\x07'), ('b', '\x08'), ('t', '\t'), ('\t', '\t'), ('n', '\n'),
    ('v', '\x0b'), ('f', '\x0c'), ('r', '\r'), ('e', '\x1b'), (' ', ' '), ('"', '"'),
    ('\'', '\''), ('\\', '\\'), ('N', '\u0085'), ('_', '\u00a0'), ('L', '\u2028'),
    ('P', '\u2029')]

/-- The escapes by a number, with the count of its hexadecimal digits. -/
def numberEscapes : List (Char × Nat) := [('x', 2), ('u', 4), ('U', 8)]

/-- The character that an escape stands for, given what follows the backslash, and the length of
the escape. -/
def escape? : List Char → Option (Char × Nat)
  | [] => none
  | e :: rest =>
    match escapes.lookup e, numberEscapes.lookup e with
    | some c, _ => some (c, 1)
    | none, some n => do
      let code ← hexValue? (rest.take n)
      if n ≤ rest.length && code.isValidChar then some (Char.ofNat code, n + 1) else none
    | none, none => none

/-- Goes on with a scalar in double quotes. `done` is in reverse. An escaped line break vanishes
with the blanks behind it. -/
def doubleQuoted? (done : List Char) (c : Cursor) : Option (List Char × Cursor) :=
  match h : c.rest with
  | [] => none
  | a :: rest =>
    have hl : c.rest.length = rest.length + 1 := by simp [h]
    if a == '"' then some (done.reverse, c.pass 1)
    else if a == '\\' then
      if rest.head?.any isBreak then
        let c₁ := c.pass 2
        let gap := c₁.run isGap
        let c₂ := c₁.pass gap.length
        if c₂.atDocumentMark then none
        else doubleQuoted? (((gap.filter isBreak).map breakText).reverse ++ done) c₂
      else match escape? rest with
        | none => none
        | some (x, n) => doubleQuoted? (x :: done) (c.pass (n + 1))
    else if isGap a then
      let gap := a :: rest.takeWhile isGap
      let c₁ := c.pass gap.length
      if c₁.atDocumentMark then none else doubleQuoted? ((fold gap).reverse ++ done) c₁
    else doubleQuoted? (a :: done) (c.pass 1)
termination_by c.rest.length
decreasing_by all_goals grind

/-- Goes on with a scalar in single quotes. `done` is in reverse. Two quotes stand for one. -/
def singleQuoted? (done : List Char) (c : Cursor) : Option (List Char × Cursor) :=
  match h : c.rest with
  | [] => none
  | a :: rest =>
    have hl : c.rest.length = rest.length + 1 := by simp [h]
    if a == '\'' then
      if rest.head? == some '\'' then singleQuoted? ('\'' :: done) (c.pass 2)
      else some (done.reverse, c.pass 1)
    else if isGap a then
      let gap := a :: rest.takeWhile isGap
      let c₁ := c.pass gap.length
      if c₁.atDocumentMark then none else singleQuoted? ((fold gap).reverse ++ done) c₁
    else singleQuoted? (a :: done) (c.pass 1)
termination_by c.rest.length
decreasing_by all_goals grind

/-- What becomes of the line breaks at the end of a block. -/
inductive Chomp
  | strip
  | clip
  | keep
  deriving DecidableEq, Repr

/-- The indicators of a block: how it ends, its indentation if it is given, and their number. -/
structure BlockHeader where
  chomp : Chomp := .clip
  step : Nat := 0
  length : Nat := 0
  deriving DecidableEq, Repr

def chomp? (c : Option Char) : Option Chomp :=
  if c == some '+' then some .keep else if c == some '-' then some .strip else none

def step? (c : Option Char) : Option Nat :=
  match c with
  | some d => if d.isDigit then some (d.toNat - 48) else none
  | none => none

/-- Reads the indicators of a block in either order. A step of zero is refused. -/
def blockHeader? (t : List Char) : Option BlockHeader :=
  let first := t.head?
  let second := (t.drop 1).head?
  let h : BlockHeader :=
    match chomp? first, step? first with
    | some chomp, _ =>
      match step? second with
      | some step => { chomp, step, length := 2 }
      | none => { chomp, length := 1 }
    | none, some step =>
      match chomp? second with
      | some chomp => { chomp, step, length := 2 }
      | none => { step, length := 1 }
    | none, none => {}
  if (t.take h.length).contains '0' then none else some h

/-- The empty lines before a line of a block, its indentation, and how many characters that is. -/
structure BlockGap where
  breaks : List Char
  indent : Nat
  length : Nat

/-- Looks over empty lines and the indentation of a block inside of the column `outer`. If it is
not known, which zero stands for, the widest line so far gives it. -/
def blockGap? (outer : Int) (indent widest : Nat) (c : Cursor) : Option BlockGap :=
  let run := (c.run (· == ' ')).length
  let spaces := if indent = 0 then run else min run (indent - c.column)
  let c₁ := c.pass spaces
  let widest := max widest c₁.column
  let found := if indent = 0 then max widest (max (outer + 1).toNat 1) else indent
  match h : c₁.rest with
  | [] => some ⟨[], found, spaces⟩
  | a :: rest =>
    have hl : c₁.rest.length = rest.length + 1 := by simp [h]
    if (indent = 0 || c₁.column < indent) && a == '\t' then none
    else if isBreak a then
      (blockGap? outer indent widest (c₁.pass 1)).map fun g =>
        { g with breaks := breakText a :: g.breaks, length := spaces + 1 + g.length }
    else some ⟨[], found, spaces⟩
termination_by c.rest.length
decreasing_by all_goals grind

/-- What is read of a block before one of its lines. -/
structure BlockText where
  /-- The lines so far, in reverse. -/
  done : List Char := []
  /-- The break of the last line. -/
  last : List Char := []
  /-- The empty lines behind it. -/
  breaks : List Char := []
  /-- The last line began with a blank. -/
  blank : Bool := false

/-- Adds a line to a block. In a folded block a break between two lines without leading blanks is
a space, or nothing if empty lines follow it. -/
def BlockText.add (b : BlockText) (literal : Bool) (line : List Char) : BlockText :=
  let blank := line.head?.any isBlank
  let joint :=
    if !literal && !b.blank && !blank && b.last.head? == some '\n' then
      if b.breaks.isEmpty then [' '] else []
    else b.last
  { done := (joint ++ b.breaks ++ line).reverse ++ b.done, blank }

def BlockText.finish (b : BlockText) : Chomp → List Char
  | .strip => b.done.reverse
  | .clip => b.done.reverse ++ b.last
  | .keep => b.done.reverse ++ b.last ++ b.breaks

/-- Goes on with a block at the beginning of a line. -/
def blockLines? (literal : Bool) (outer : Int) (indent : Nat) (b : BlockText) (c : Cursor) :
    Option (BlockText × Cursor) :=
  let line := c.run (!isBreak ·)
  if c.column != indent || line.isEmpty then some (b, c)
  else
    let b := b.add literal line
    let c₁ := c.pass line.length
    let last := (c₁.head?.toList.filter isBreak).map breakText
    let c₂ := c₁.pass last.length
    match blockGap? outer indent 0 c₂ with
    | none => none
    | some g =>
      blockLines? literal outer indent { b with last, breaks := g.breaks } (c₂.pass g.length)
termination_by c.rest.length
decreasing_by
  have hl : 0 < line.length := by grind
  have hr : line.length ≤ c.rest.length := (List.takeWhile_prefix _).length_le
  change (c₂.pass g.length).rest.length < c.rest.length
  simp only [c₂, c₁, Cursor.rest_pass, List.length_drop]
  omega

/-- A scalar in a block, literal or folded, inside of the column `outer`. -/
def block? (literal : Bool) (outer : Int) (c : Cursor) : Option (List Char × Cursor) := do
  let c := c.pass 1
  let h ← blockHeader? c.rest
  let c := (c.pass h.length).passWhile isBlank
  let c := if c.head? == some '#' then c.passWhile (!isBreak ·) else c
  if c.head?.all isBreak then
    let indent := if h.step = 0 then 0 else (max outer 0).toNat + h.step
    let c := c.pass 1
    let g ← blockGap? outer indent 0 c
    let (b, c) ← blockLines? literal outer g.indent { breaks := g.breaks } (c.pass g.length)
    return (b.finish h.chomp, c)
  else none

end StackC.Yaml
