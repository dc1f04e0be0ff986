import StackC.Yaml.Cursor
import StackC.Yaml.Token

/-! What is said about nodes and documents: anchors, tags and directives. -/
namespace StackC.Yaml

/-- The characters that may follow a name directly. -/
def nameEnds : List Char := "?:,]\x7d%@`".toList

/-- A name behind `&` or `*`, and the place behind it. -/
def name? (c : Cursor) : Option (List Char × Cursor) :=
  let c := c.pass 1
  let name := c.run isWord
  let c := c.pass name.length
  if name.isEmpty || !(isGapOrEnd c.head? || c.head?.any nameEnds.contains) then none
  else some (name, c)

def tagMarks : List Char := ";/?:@&=+$.,!~*'()[]".toList

def isTagChar (a : Char) : Bool := isWord a || tagMarks.contains a

def octet? : List Char → Option UInt8
  | '%' :: a :: b :: _ => (hexValue? [a, b]).map UInt8.ofNat
  | _ => none

/-- The number of octets that a character has, by the first of them. -/
def octets? (first : UInt8) : Option Nat :=
  if first < 0x80 then some 1
  else if first &&& 0xE0 == 0xC0 then some 2
  else if first &&& 0xF0 == 0xE0 then some 3
  else if first &&& 0xF8 == 0xF0 then some 4
  else none

/-- A character written in octets, and the number of octets. -/
def octetChar? (t : List Char) : Option (Char × Nat) := do
  let first ← octet? t
  let n ← octets? first
  let more ← (List.range (n - 1)).mapM fun i => octet? (t.drop (3 * (i + 1)))
  if more.all Text.isContinuation then
    return (((Text.codePoint? (first :: more)).map fun p => Char.ofNat p.1).getD '\uFFFD', n)
  else none

/-- The longest text of tag characters and octets, and its length as written. An octet that is
wrong refuses it. -/
def tagText? (t : List Char) : Option (List Char × Nat) :=
  match t with
  | [] => some ([], 0)
  | a :: rest =>
    if a == '%' then
      match octetChar? t with
      | none => none
      | some (b, n) => (tagText? (rest.drop (3 * n - 1))).map fun (s, k) => (b :: s, k + 3 * n)
    else if isTagChar a then (tagText? rest).map fun (s, k) => (a :: s, k + 1)
    else some ([], 0)
termination_by t.length
decreasing_by all_goals simp only [List.length_drop, List.length_cons]; omega

def tagTextAt? (c : Cursor) : Option (List Char × Cursor) := do
  let (t, n) ← tagText? c.rest
  return (t, c.pass n)

/-- A handle: a name between exclamation marks, of which the last may be missing. -/
def handleAt (c : Cursor) : List Char × Cursor :=
  let word := (c.pass 1).run isWord
  let close := ((c.pass (word.length + 1)).head?.filter (· == '!')).toList
  let handle := '!' :: word ++ close
  (handle, c.pass handle.length)

/-- A handle that has both marks. -/
def isHandle (t : List Char) : Bool := 1 < t.length && t.getLast? == some '!'

def tag? (c : Cursor) : Option (Token × Cursor) := do
  let (t, c) ←
    if (c.rest.drop 1).head? == some '<' then do
      let (t, c) ← tagTextAt? (c.pass 2)
      if !t.isEmpty && c.head? == some '>' then some (Token.tag [] t, c.pass 1) else none
    else do
      let (handle, c₁) := handleAt c
      let (t, c₂) ← tagTextAt? c₁
      if isHandle handle then
        if t.isEmpty then none else some (Token.tag handle t, c₂)
      else
        let t := handle.drop 1 ++ t
        some (if t.isEmpty then Token.tag [] ['!'] else Token.tag ['!'] t, c₂)
  if isGapOrEnd c.head? then some (t, c) else none

def versionNumber? (c : Cursor) : Option (Nat × Cursor) :=
  let digits := c.run Char.isDigit
  if digits.isEmpty || 2 < digits.length then none
  else some (digits.foldl (fun n d => 10 * n + (d.toNat - 48)) 0, c.pass digits.length)

def versionDirective? (c : Cursor) : Option (Token × Cursor) := do
  let (major, c) ← versionNumber? (c.passWhile isBlank)
  if c.head? == some '.' then do
    let (minor, c) ← versionNumber? (c.pass 1)
    return (.version major minor, c)
  else none

def handleDirective? (c : Cursor) : Option (Token × Cursor) := do
  let c := c.passWhile isBlank
  if c.head? == some '!' then do
    let (handle, c) := handleAt c
    if (handle == ['!'] || isHandle handle) && c.head?.any isBlank then do
      let (lead, c) ← tagTextAt? (c.passWhile isBlank)
      if !lead.isEmpty && isGapOrEnd c.head? then some (.handle handle lead, c) else none
    else none
  else none

def directive? (c : Cursor) : Option (Token × Cursor) := do
  let c := c.pass 1
  let name := c.run isWord
  let c := c.pass name.length
  if !isGapOrEnd c.head? then none
  else do
    let (t, c) ←
      if name == "YAML".toList then versionDirective? c
      else if name == "TAG".toList then handleDirective? c
      else none
    let c := c.passWhile isBlank
    let c := if c.head? == some '#' then c.passWhile (!isBreak ·) else c
    if c.head?.all isBreak then some (t, c.pass 1) else none

end StackC.Yaml
