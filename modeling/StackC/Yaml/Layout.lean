import StackC.Yaml.Property
import StackC.Yaml.Scalar

/-! The tokens of a YAML text. Columns tell where blocks begin and end, and a key is known as one
only when its colon is found, so that tokens wait until what stands before them is settled. -/
namespace StackC.Yaml

/-- A token that is a key if a colon follows. -/
structure Key where
  /-- The number of the token. -/
  number : Nat
  index : Nat
  line : Nat
  column : Nat
  /-- Nothing but a key may stand here. -/
  required : Bool
  /-- The token waits for the colon. -/
  watched : Bool := true

def keyReach : Nat := 1024

/-- No colon can follow any more that makes it a key. -/
def Key.isStale (k : Key) (c : Cursor) : Bool := k.line < c.line || k.index + keyReach < c.index

/-- The part of a text inside of the same brackets. -/
structure Level where
  key : Option Key := none
  /-- The number of the last token that could be a key, or else of the bracket. -/
  number : Nat := 0

/-- What is known at a place of a text. -/
structure Layout where
  cursor : Cursor
  /-- The columns of the open blocks, the inner ones first. -/
  blocks : List Nat := []
  level : Level := {}
  enclosing : List Level := []
  /-- A key may stand here. -/
  keyAllowed : Bool := true
  /-- The tokens that wait. -/
  queue : List Token := []
  /-- The number of tokens before them. -/
  taken : Nat := 0

def depthLimit : Nat := 10000

/-- Passes blanks, comments and line breaks. A tab does not count as a blank where a key may stand
outside of brackets. Says also whether a key may stand behind them. -/
def passGap (flow keyAllowed : Bool) (c : Cursor) : Bool × Cursor :=
  let c₁ := c.passWhile fun a => a == ' ' || ((flow || !keyAllowed) && a == '\t')
  let c₂ := if c₁.head? == some '#' then c₁.passComments else c₁
  if c₂.head?.any isBreak then passGap flow (keyAllowed || !flow) (c₂.pass 1)
  else (keyAllowed, c₂)
termination_by c.rest.length
decreasing_by
  have h₁ : c₁.rest.length ≤ c.rest.length := by simp [c₁, Cursor.passWhile]
  have h₂ : c₂.rest.length ≤ c₁.rest.length := by
    simp only [c₂]
    split
    · exact Cursor.length_rest_passComments_le c₁
    · exact Nat.le_refl _
  have h₃ : c₂.rest ≠ [] := by grind [Cursor.head?]
  have h₄ := List.length_pos_iff.2 h₃
  change (c₂.pass 1).rest.length < c.rest.length
  simp only [Cursor.rest_pass, List.length_drop]
  omega

namespace Layout

def inFlow (s : Layout) : Bool := !s.enclosing.isEmpty

def indent (s : Layout) : Int :=
  match s.blocks with
  | [] => -1
  | column :: _ => column

def number (s : Layout) : Nat := s.taken + s.queue.length

def add (t : Token) (s : Layout) : Layout := { s with queue := s.queue ++ [t] }

/-- Puts a token before the one with this number, or at the end if that one waits no longer. -/
def insert (number : Nat) (t : Token) (s : Layout) : Layout :=
  if number < s.taken then s.add t
  else { s with queue := s.queue.insertIdx (number - s.taken) t }

/-- Passes characters that are a token. -/
def passAs (t : Token) (n : Nat) (s : Layout) : Layout :=
  { s.add t with cursor := s.cursor.pass n }

def endBlocks (column : Int) (s : Layout) : Layout :=
  if s.inFlow then s
  else
    let ended := s.blocks.takeWhile fun (b : Nat) => column < b
    { s with
      blocks := s.blocks.drop ended.length
      queue := s.queue ++ List.replicate ended.length .blockEnd }

/-- Begins a block at a column that lies further in. Its token goes before the one with the given
number. -/
def beginBlock? (column number : Nat) (t : Token) (s : Layout) : Option Layout :=
  if s.inFlow || (column : Int) ≤ s.indent then some s
  else if depthLimit ≤ s.blocks.length then none
  else some { s.insert number t with blocks := column :: s.blocks }

/-- No colon has been found for the key of the level. -/
def dropKey? (s : Layout) : Option Layout :=
  if s.level.key.any (·.required) then none
  else some { s with level := { s.level with key := none } }

/-- The next token may be a key. -/
def saveKey? (s : Layout) : Option Layout :=
  if s.keyAllowed then do
    let s ← s.dropKey?
    let c := s.cursor
    let required := !s.inFlow && s.indent == c.column
    let key := ⟨s.number, c.index, c.line, c.column, required, true⟩
    return { s with level := ⟨some key, s.number⟩ }
  else some s

/-- The key of the level if a colon here makes it one. -/
def colonKey? (s : Layout) : Option (Option Key) :=
  match s.level.key with
  | none => some none
  | some k =>
    if !k.isStale s.cursor then some (some k)
    else if k.required then none
    else some none

/-- A token that is a node of its own and may be a key. -/
def node? (read : Cursor → Option (Token × Cursor)) (s : Layout) : Option Layout := do
  let s ← s.saveKey?
  let (t, cursor) ← read s.cursor
  return { s.add t with cursor, keyAllowed := false }

def openFlow? (t : Token) (s : Layout) : Option Layout := do
  let s ← s.saveKey?
  if depthLimit ≤ s.enclosing.length then none
  else
    let level : Level := { number := s.number }
    return { s.passAs t 1 with level, enclosing := s.level :: s.enclosing, keyAllowed := true }

/-- Goes back to the enclosing level. If its key is a bracket with no key inside, the bracket waits
for a colon no longer. -/
def closeLevel (s : Layout) : Layout :=
  match s.enclosing with
  | [] => s
  | level :: enclosing =>
    let unwatch (k : Key) : Key :=
      if k.number = s.level.number then { k with watched := false } else k
    { s with level := { level with key := level.key.map unwatch }, enclosing }

def closeFlow? (t : Token) (s : Layout) : Option Layout := do
  let s ← s.dropKey?
  return { s.closeLevel.passAs t 1 with keyAllowed := false }

def flowEntry? (s : Layout) : Option Layout := do
  let s ← s.dropKey?
  return { s.passAs .flowEntry 1 with keyAllowed := true }

/-- Begins a block, if need be, with a mark of one character. -/
def markBlock? (block : Token) (s : Layout) : Option Layout :=
  if s.inFlow then some s
  else if s.keyAllowed then s.beginBlock? s.cursor.column s.number block
  else none

def blockEntry? (s : Layout) : Option Layout := do
  let s ← (← s.markBlock? .blockSequenceStart).dropKey?
  return { s.passAs .blockEntry 1 with keyAllowed := true }

def key? (s : Layout) : Option Layout := do
  let s ← (← s.markBlock? .blockMappingStart).dropKey?
  return { s.passAs .key 1 with keyAllowed := !s.inFlow }

def value? (s : Layout) : Option Layout := do
  match ← s.colonKey? with
  | some k =>
    let s ← (s.insert k.number .key).beginBlock? k.column k.number .blockMappingStart
    return { s.passAs .value 1 with level := { s.level with key := none }, keyAllowed := false }
  | none =>
    let s ← s.markBlock? .blockMappingStart
    return { s.passAs .value 1 with keyAllowed := !s.inFlow }

def blockScalar? (literal : Bool) (s : Layout) : Option Layout := do
  let s ← s.dropKey?
  let (text, cursor) ← block? literal s.indent s.cursor
  return { s.add (.scalar text false) with cursor, keyAllowed := true }

def plainScalar? (s : Layout) : Option Layout := do
  let s ← s.saveKey?
  let p ← plain? s.inFlow (s.indent + 1) s.cursor
  return { s.add (.scalar p.text true) with cursor := p.next, keyAllowed := p.crossed }

def quoted? (read : List Char → Cursor → Option (List Char × Cursor)) (c : Cursor) :
    Option (Token × Cursor) := do
  let (text, c) ← read [] (c.pass 1)
  return (.scalar text false, c)

/-- The characters that a plain scalar does not begin with, unless something follows directly. -/
def indicators : List Char := "-?:,[]\x7b\x7d#&*!|>'\"%@`".toList

def content? (a : Char) (s : Layout) : Option Layout :=
  let next := (s.cursor.rest.drop 1).head?
  let apart := isGapOrEnd next
  if a == '[' then s.openFlow? .flowSequenceStart
  else if a == '\x7b' then s.openFlow? .flowMappingStart
  else if a == ']' then s.closeFlow? .flowSequenceEnd
  else if a == '\x7d' then s.closeFlow? .flowMappingEnd
  else if a == ',' then s.flowEntry?
  else if a == '-' && apart then s.blockEntry?
  else if a == '?' && (s.inFlow || apart) then s.key?
  else if a == ':' && (s.inFlow || apart) then s.value?
  else if a == '*' then s.node? fun c => (name? c).map fun (n, c) => (.reference n, c)
  else if a == '&' then s.node? fun c => (name? c).map fun (n, c) => (.anchor n, c)
  else if a == '!' then s.node? tag?
  else if a == '|' && !s.inFlow then s.blockScalar? true
  else if a == '>' && !s.inFlow then s.blockScalar? false
  else if a == '\'' then s.node? (quoted? singleQuoted?)
  else if a == '"' then s.node? (quoted? doubleQuoted?)
  else if !(isGap a || indicators.contains a) || a == '-' || (!s.inFlow && (a == '?' || a == ':'))
  then s.plainScalar?
  else none

/-- Ends all blocks, and no key may stand here. -/
def endAll? (s : Layout) : Option Layout := do
  let s ← (s.endBlocks (-1)).dropKey?
  return { s with keyAllowed := false }

/-- The end of the text counts as a line end. -/
def finish? (s : Layout) : Option Layout := do
  let s ← s.endAll?
  let c := s.cursor
  return { s.add .streamEnd with cursor := { c with line := c.line + 1, column := 0 } }

/-- Reads the next token. Others may come before it. -/
def read? (s : Layout) : Option Layout :=
  let (keyAllowed, c) := passGap s.inFlow s.keyAllowed s.cursor
  let s := { s with keyAllowed, cursor := c }.endBlocks c.column
  match c.head? with
  | none => s.finish?
  | some a =>
    if c.column == 0 && a == '%' then do
      let (t, cursor) ← directive? c
      return { (← s.endAll?).add t with cursor }
    else if c.atMark "---" then s.endAll?.map (·.passAs .documentStart 3)
    else if c.atMark "..." then s.endAll?.map (·.passAs .documentEnd 3)
    else do
      let s ← s.content? a
      if s.queue.getLast? == some .blockEntry then some s
      else some { s with cursor := s.cursor.passLineComment }

/-- How many tokens have to wait before the first of them may go. -/
def lookahead : Nat := 3

/-- More tokens have to be read before the first may go. -/
def waits? (s : Layout) : Option Bool :=
  if s.queue.length < lookahead then some true
  else
    let keys := (s.level :: s.enclosing).filterMap (·.key)
    match keys.find? fun k => k.watched && k.number == s.taken with
    | none => some false
    | some k =>
      if !k.isStale s.cursor then some true
      else if k.required then none
      else some false

/-- The tokens from here on, behind those `done`, which are in reverse. -/
def tokensFrom : Nat → List Token → Layout → List Token
  | 0, done, _ => done.reverse
  | fuel + 1, done, s =>
    match s.waits? with
    | none => done.reverse
    | some true =>
      match s.read? with
      | none => done.reverse
      | some s => tokensFrom fuel done s
    | some false =>
      match s.queue with
      | [] => done.reverse
      | t :: queue =>
        if t = .streamEnd then (t :: done).reverse
        else tokensFrom fuel (t :: done) { s with queue, taken := s.taken + 1 }

end Layout

/-- A byte order mark at the start of the characters is passed. -/
def Cursor.start (t : List Char) : Cursor :=
  let c : Cursor := { rest := t }
  if c.head? == some '\uFEFF' then c.pass 1 else c

/-- The tokens of a text, up to the first that cannot be read. If all can, the last one is the end
of the text. A character is read at most once, and gives at most two tokens besides its own and
the end of a block. -/
def tokens (t : List Char) : List Token :=
  Layout.tokensFrom (6 * t.length + 64) [] { cursor := .start t }

end StackC.Yaml
