import StackC.Text.Utf8

/-! The characters of a YAML text: their encodings, which of them may occur, and their classes. -/
namespace StackC.Yaml

def utf8? (t : Bytes) : Option (List Nat) :=
  (Text.pieces t).mapM fun
    | .scalar code _ => some code
    | .stray _ => none

/-- The 16-bit units of a text, given which byte of a unit comes first. -/
def units? (lowFirst : Bool) : Bytes → Option (List Nat)
  | [] => some []
  | [_] => none
  | a :: b :: rest =>
    let unit := if lowFirst then b.toNat * 256 + a.toNat else a.toNat * 256 + b.toNat
    (units? lowFirst rest).map (unit :: ·)

def isHighSurrogate (u : Nat) : Bool := 0xD800 ≤ u && u < 0xDC00

def isLowSurrogate (u : Nat) : Bool := 0xDC00 ≤ u && u < 0xE000

/-- The code points of 16-bit units. Surrogates stand in pairs. -/
def pairUnits? : List Nat → Option (List Nat)
  | [] => some []
  | u :: rest =>
    if isLowSurrogate u then none
    else if isHighSurrogate u then
      match rest with
      | v :: rest =>
        if isLowSurrogate v then
          (pairUnits? rest).map ((0x10000 + (u - 0xD800) * 0x400 + (v - 0xDC00)) :: ·)
        else none
      | [] => none
    else (pairUnits? rest).map (u :: ·)

/-- The code points of a text. A mark at its start tells the encoding, which is UTF-8 without
one. -/
def codePoints? (t : Bytes) : Option (List Nat) :=
  let after (mark : Bytes) : Option Bytes := Text.after? mark t
  match after [0xFF, 0xFE], after [0xFE, 0xFF], after [0xEF, 0xBB, 0xBF] with
  | some rest, _, _ => (units? true rest).bind pairUnits?
  | none, some rest, _ => (units? false rest).bind pairUnits?
  | none, none, some rest => utf8? rest
  | none, none, none => utf8? t

/-- A code point that may occur. Of the control characters only tabs and line ends may. -/
def isAllowed (code : Nat) : Bool :=
  code == 9 || code == 10 || code == 13 || (0x20 ≤ code && code ≤ 0x7E) || code == 0x85 ||
    (0xA0 ≤ code && code ≤ 0xFFFD) || 0x10000 ≤ code

/-- Makes each carriage return a newline, together with a newline behind it. -/
def joinLineEnds : List Char → List Char
  | [] => []
  | a :: rest =>
    if a == '\r' then
      if rest.head? == some '\n' then joinLineEnds rest else '\n' :: joinLineEnds rest
    else a :: joinLineEnds rest

/-- The characters of a text, if all of them may occur. -/
def characters? (t : Bytes) : Option (List Char) := do
  let codes ← codePoints? t
  if codes.all isAllowed then some (joinLineEnds (codes.map Char.ofNat)) else none

def bytes (cs : List Char) : Bytes := cs.flatMap fun c => Text.encode c.toNat

def isBlank (c : Char) : Bool := c == ' ' || c == '\t'

def nextLine : Char := '\u0085'

/-- The characters that end a line: those above ASCII included. -/
def isBreak (c : Char) : Bool :=
  c == '\n' || c == nextLine || c == '\u2028' || c == '\u2029'

def isGap (c : Char) : Bool := isBlank c || isBreak c

/-- A blank, a line break or the end of the text. -/
def isGapOrEnd (c : Option Char) : Bool := c.all isGap

/-- The character that a line break stands for in a scalar. -/
def breakText (c : Char) : Char := if c == nextLine then '\n' else c

def isWord (c : Char) : Bool := c.isAlphanum || c == '_' || c == '-'

def hexDigit? (c : Char) : Option Nat :=
  if c.isDigit then some (c.toNat - 48)
  else if 'a' ≤ c && c ≤ 'f' then some (c.toNat - 87)
  else if 'A' ≤ c && c ≤ 'F' then some (c.toNat - 55)
  else none

def hexValue? (cs : List Char) : Option Nat :=
  cs.foldlM (fun v c => (hexDigit? c).map (16 * v + ·)) 0

end StackC.Yaml
