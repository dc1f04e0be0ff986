import StackC.Text.Bytes

/-! What stands between angle brackets in a text and is no text itself: addresses and tags. Each
function is given what follows the opening bracket, and gives what follows the closing one. -/
namespace StackC.Markdown

def isLetter (b : UInt8) : Bool := (byte 'a' ≤ b && b ≤ byte 'z') || (byte 'A' ≤ b && b ≤ byte 'Z')

def isAlphanumeric (b : UInt8) : Bool := isLetter b || Text.isDigit b

/-- What follows a closing bracket at the start of a text. -/
def close? (t : Bytes) : Option Bytes := Text.after? [byte '>'] t

def isMailboxByte (b : UInt8) : Bool :=
  isAlphanumeric b || (ascii ".!#$%&'*+/=?^_`\x7b|\x7d~-").contains b

def isHostLabel (t : Bytes) : Bool :=
  1 ≤ t.length && t.length ≤ 63 && t.all (fun b => isAlphanumeric b || b == byte '-') &&
    t.head? != some (byte '-') && t.getLast? != some (byte '-')

def hostLabels (t : Bytes) : List Bytes :=
  t.foldr (fun b labels =>
    if b == byte '.' then [] :: labels
    else match labels with
      | [] => [[b]]
      | l :: ls => (b :: l) :: ls) [[]]

def mailAddress? (t : Bytes) : Option Bytes := do
  let mailbox := t.takeWhile isMailboxByte
  let rest ← Text.after? [byte '@'] (t.drop mailbox.length)
  let host := rest.takeWhile (· != byte '>')
  if !mailbox.isEmpty && (hostLabels host).all isHostLabel then close? (rest.drop host.length)
  else none

def address? (t : Bytes) : Option Bytes := do
  let scheme := t.takeWhile fun b => isAlphanumeric b || (ascii ".+-").contains b
  let rest ← Text.after? [byte ':'] (t.drop scheme.length)
  if t.head?.any isLetter && 2 ≤ scheme.length && scheme.length ≤ 33 then
    close? (rest.dropWhile fun b => byte ' ' < b && b != byte '<' && b != byte '>')
  else none

def isTagGap (b : UInt8) : Bool := (ascii " \t\r\n").contains b

def tagName? (t : Bytes) : Option Bytes :=
  if t.head?.any isLetter then
    some (t.dropWhile fun b => isAlphanumeric b || b == byte '-')
  else none

/-- What follows the value of an attribute. Without quotes it has at least one byte. -/
def attributeValue? (t : Bytes) : Option Bytes := do
  let q ← t.head?
  if q == Text.quoteMark || q == Text.apostrophe then
    Text.after? [q] ((t.drop 1).dropWhile (· != q))
  else
    let value := t.takeWhile fun b => byte ' ' < b && !(ascii "\"'=<>`").contains b
    if value.isEmpty then none else some (t.drop value.length)

def attribute? (t : Bytes) : Option Bytes :=
  let body := t.dropWhile isTagGap
  let rest := body.dropWhile fun b => isAlphanumeric b || (ascii ":._-").contains b
  if t.head?.any isTagGap && body.head?.any (fun b => isLetter b || b == byte '_' || b == byte ':')
  then
    match Text.after? [byte '='] (rest.dropWhile isTagGap) with
    | some value => attributeValue? (value.dropWhile isTagGap)
    | none => some rest
  else none

def passAttributes (t : Bytes) : Bytes :=
  match attribute? t with
  | none => t
  | some rest => if rest.length < t.length then passAttributes rest else t
termination_by t.length

/-- A tag that opens an element, or stands for all of it. -/
def openTag? (t : Bytes) : Option Bytes := do
  let rest := (passAttributes (← tagName? t)).dropWhile isTagGap
  close? ((Text.after? [byte '/'] rest).getD rest)

def closeTag? (t : Bytes) : Option Bytes := do
  close? ((← tagName? (← Text.after? [byte '/'] t)).dropWhile isTagGap)

/-- What follows the first place where `mark` stands. -/
def behindMark? (mark : Bytes) : Bytes → Option Bytes
  | [] => none
  | b :: rest =>
    match Text.after? mark (b :: rest) with
    | some behind => some behind
    | none => behindMark? mark rest

/-- A comment. The two shortest ones share a dash between begin and end. -/
def comment? (t : Bytes) : Option Bytes := do
  let body ← Text.after? (ascii "!--") t
  match close? body, Text.after? (ascii "->") body with
  | some rest, _ => some rest
  | none, some rest => some rest
  | none, none => behindMark? (ascii "-->") body

/-- A processing instruction, a declaration or a section of plain characters. -/
def directive? (t : Bytes) : Option Bytes :=
  match t with
  | a :: b :: _ =>
    if a == byte '?' then behindMark? (ascii "?>") t
    else if a == byte '!' && byte 'A' ≤ b && b ≤ byte 'Z' then behindMark? (ascii ">") t
    else if (Text.after? (ascii "![CDATA[") t).isSome then behindMark? (ascii "]]>") t
    else none
  | _ => none

/-- All that can stand between angle brackets. -/
def markup? (t : Bytes) : Option Bytes :=
  [mailAddress?, address?, openTag?, closeTag?, comment?, directive?].findSome? (· t)

end StackC.Markdown
