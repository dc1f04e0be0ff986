import StackC.SExpr.Node

/-! Reading an s-expression. The reader works on bytes. -/
namespace StackC.SExpr

inductive Word
  | symbol (text : Bytes)
  | string (text : Bytes)
  | integer (text : Bytes)
  | ellipsis
  | opening
  | closing
  deriving DecidableEq, Repr

def Word.name : Word → Bytes
  | symbol _ => ascii "symbol"
  | string _ => ascii "string"
  | integer _ => ascii "integer"
  | ellipsis => ascii "ellipsis"
  | opening => ascii "'('"
  | closing => ascii "')'"

inductive ReadFault
  | unexpectedByte (b : UInt8)
  | badEscape (b : UInt8)
  | unterminatedString
  | unexpectedWord (w : Word)
  | unexpectedEnd
  | unclosedList
  | extraWord (w : Word)
  deriving DecidableEq, Repr

structure ReadError where
  fault : ReadFault
  offset : Nat
  deriving DecidableEq, Repr

/-- Bytes are shown as the code point with their number. -/
def ReadFault.message : ReadFault → Bytes
  | unexpectedByte b => ascii "unexpected character " ++ Text.marked (Text.encode b.toNat)
  | badEscape b => ascii "invalid escape sequence: \\" ++ Text.encode b.toNat
  | unterminatedString => ascii "unterminated string"
  | unexpectedWord w => ascii "unexpected token: " ++ w.name
  | unexpectedEnd => ascii "unexpected token: EOF"
  | unclosedList => ascii "expected ')' but got EOF"
  | extraWord w => ascii "expected EOF but got " ++ w.name

def ReadError.message (e : ReadError) : Bytes :=
  ascii "offset " ++ Text.decimalNat e.offset ++ ascii ": " ++ e.fault.message

/-- The blanks, with the two of them that lie above ASCII. -/
def isSpace (b : UInt8) : Bool := Text.isBlank b || b == 0x85 || b == 0xA0

def isSymbolByte (b : UInt8) : Bool :=
  b != 0 && b != byte '(' && b != byte ')' && b != Text.quoteMark && b != byte ';' && !isSpace b

def isSign (b : UInt8) : Bool := b == byte '-' || b == byte '+'

/-- The rest of a string behind its opening quote: its text and the number of bytes up to and with
the closing quote. Only the quote and the backslash can be escaped. `start` is the offset of the
opening quote and `pos` that of the bytes. -/
def readString (start pos : Nat) : Bytes → Except ReadError (Bytes × Nat)
  | [] => .error { fault := .unterminatedString, offset := start }
  | b :: rest =>
    if b == Text.quoteMark then .ok ([], 1)
    else if b == Text.backslash then
      match rest with
      | [] => .error { fault := .badEscape 0, offset := pos }
      | e :: rest =>
        if e == Text.quoteMark || e == Text.backslash then do
          let (text, n) ← readString start (pos + 2) rest
          return (e :: text, n + 2)
        else .error { fault := .badEscape e, offset := pos }
    else do
      let (text, n) ← readString start (pos + 1) rest
      return (b :: text, n + 1)

/-- The word at offset `pos` that begins with `b`, and how many more bytes it has. -/
def word (pos : Nat) (b : UInt8) (rest : Bytes) : Except ReadError (Word × Nat) :=
  if b == byte '(' then .ok (.opening, 0)
  else if b == byte ')' then .ok (.closing, 0)
  else if b == Text.quoteMark then do
    let (text, n) ← readString pos (pos + 1) rest
    return (.string text, n)
  else if b == byte '.' then
    if (ascii "..").isPrefixOf rest then .ok (.ellipsis, 2)
    else .error { fault := .unexpectedByte b, offset := pos }
  else if Text.isDigit b || (isSign b && rest.head?.any Text.isDigit) then
    let more := rest.takeWhile Text.isDigit
    .ok (.integer (b :: more), more.length)
  else if isSymbolByte b then
    let more := rest.takeWhile isSymbolByte
    .ok (.symbol (b :: more), more.length)
  else .error { fault := .unexpectedByte b, offset := pos }

/-- The words of a text with their offsets, up to its end or to the first fault. -/
inductive Words
  | stop (pos : Nat)
  | fault (e : ReadError)
  | cons (pos : Nat) (w : Word) (rest : Words)
  deriving Repr

/-- The words of a text that begins at offset `pos`. A comment runs from `;` to the end of the
line. -/
def words (pos : Nat) : Bytes → Words
  | [] => .stop pos
  | b :: rest =>
    if isSpace b then words (pos + 1) rest
    else if b == byte ';' then
      let comment := rest.takeWhile (· != Text.newline)
      words (pos + comment.length + 1) (rest.drop comment.length)
    else match word pos b rest with
      | .error e => .fault e
      | .ok (w, n) => .cons pos w (words (pos + n + 1) (rest.drop n))
termination_by t => t.length
decreasing_by all_goals simp only [List.length_drop, List.length_cons]; omega

/-- The datum that a word is by itself. -/
def Word.atom? : Word → Option Node
  | symbol t => some (.symbol t)
  | string t => some (.string t)
  | integer t => some (.integer t)
  | ellipsis => some .ellipsis
  | opening | closing => none

/-- Nothing may follow a datum. -/
def atEnd (n : Node) : Words → Except ReadError Node
  | .stop _ => .ok n
  | .fault e => .error e
  | .cons pos w _ => .error { fault := .extraWord w, offset := pos }

/-- Reads a datum. `outer` holds the items of the lists that are still open, the innermost list
and the last item first. -/
def assemble (outer : List (List Node)) : Words → Except ReadError Node
  | .fault e => .error e
  | .stop pos =>
    .error { fault := if outer.isEmpty then .unexpectedEnd else .unclosedList, offset := pos }
  | .cons pos w rest =>
    match w.atom?, w, outer with
    | some n, _, [] => atEnd n rest
    | some n, _, items :: outer => assemble ((n :: items) :: outer) rest
    | none, .opening, _ => assemble ([] :: outer) rest
    | none, _, [] => .error { fault := .unexpectedWord w, offset := pos }
    | none, _, [items] => atEnd (.list items.reverse) rest
    | none, _, items :: items' :: outer =>
      assemble ((.list items.reverse :: items') :: outer) rest

/-- The only datum of a text. -/
def read (t : Bytes) : Except ReadError Node := assemble [] (words 0 t)

end StackC.SExpr
