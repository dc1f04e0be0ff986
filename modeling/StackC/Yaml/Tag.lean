import StackC.Yaml.Character

/-! The tags of nodes, and what a scalar with a tag holds. -/
namespace StackC.Yaml

/-- The tags that matter for scalars. All others are one. -/
inductive Tag
  | null
  | bool
  | int
  | float
  | timestamp
  | binary
  | str
  | merge
  | other
  deriving DecidableEq, Repr

/-- The start of the common tags that `!!` stands for. -/
def commonTags : List Char := "tag:yaml.org,2002:".toList

/-- The tags by their names behind `!!`. -/
def tagNames : List (List Char × Tag) :=
  [("null".toList, .null), ("bool".toList, .bool), ("int".toList, .int), ("float".toList, .float),
    ("timestamp".toList, .timestamp), ("binary".toList, .binary), ("str".toList, .str),
    ("merge".toList, .merge)]

def Tag.ofName (t : List Char) : Tag :=
  let name :=
    if commonTags.isPrefixOf t then t.drop commonTags.length
    else if ['!', '!'].isPrefixOf t then t.drop 2
    else []
  (tagNames.lookup name).getD .other

def isNull (t : List Char) : Bool := ["", "~", "null", "Null", "NULL"].contains (String.ofList t)

def isBool (t : List Char) : Bool :=
  ["true", "True", "TRUE", "false", "False", "FALSE"].contains (String.ofList t)

/-- The tag of a scalar without one. Unless it is quoted or in a block it may stand for nothing, or
for a merge. Numbers and dates are text as they are written. -/
def Tag.implicit (t : List Char) (plain : Bool) : Tag :=
  if !plain then .str
  else if t == ['<', '<'] then .merge
  else if isNull t then .null
  else .str

/-- The base of a whole number, and its digits. -/
def digitsOf : List Char → Nat × List Char
  | '0' :: b :: d :: rest =>
    if b == 'x' || b == 'X' then (16, d :: rest)
    else if b == 'o' || b == 'O' then (8, d :: rest)
    else if b == 'b' || b == 'B' then (2, d :: rest)
    else (8, b :: d :: rest)
  | '0' :: rest => (8, '0' :: rest)
  | t => (10, t)

def natural? (t : List Char) : Option Nat :=
  let (base, digits) := digitsOf t
  if digits.isEmpty then none
  else digits.foldlM (fun n c => (hexDigit? c).bind fun d =>
    if d < base then some (base * n + d) else none) 0

/-- A whole number that fits into 64 bits. Underscores do not count. -/
def isInt (t : List Char) : Bool :=
  match t.filter (· != '_') with
  | '-' :: t => (natural? t).any (· ≤ 0x8000000000000000)
  | '+' :: t => (natural? t).any (· < 0x8000000000000000)
  | t => (natural? t).any (· < 0x10000000000000000) && t.head?.any Char.isDigit

def dropSign (t : List Char) : List Char :=
  if t.head?.any fun c => c == '+' || c == '-' then t.drop 1 else t

/-- The end of a number: nothing, or a power of ten. -/
def isPower : List Char → Bool
  | [] => true
  | e :: t =>
    let digits := dropSign t
    (e == 'e' || e == 'E') && !digits.isEmpty && digits.all Char.isDigit

/-- A number in decimal digits, possibly with a point and a power of ten. -/
def isDecimal (t : List Char) : Bool :=
  let t := dropSign t
  let whole := t.takeWhile Char.isDigit
  match t.drop whole.length with
  | '.' :: rest =>
    let part := rest.takeWhile Char.isDigit
    !(whole.isEmpty && part.isEmpty) && isPower (rest.drop part.length)
  | rest => !whole.isEmpty && isPower rest

def isFloat (t : List Char) : Bool :=
  [".nan", ".NaN", ".NAN"].contains (String.ofList t) ||
    [".inf", ".Inf", ".INF"].contains (String.ofList (dropSign t)) ||
    isDecimal (if t.head? == some '.' then t else t.filter (· != '_')) || isInt t

/-- A number of one or two digits, and what follows it. -/
def shortNumber? (t : List Char) : Option (Nat × List Char) := do
  let (a, b) ← match t with
    | a :: b :: _ => if b.isDigit then some ([a, b], t.drop 2) else some ([a], t.drop 1)
    | [a] => some ([a], [])
    | [] => none
  if a.all Char.isDigit then
    return (a.foldl (fun n d => 10 * n + (d.toNat - 48)) 0, b)
  else none

def behind? (c : Char) : List Char → Option (List Char)
  | [] => none
  | a :: rest => if a == c then some rest else none

def clock? (t : List Char) : Option (List Char) := do
  let (hour, t) ← shortNumber? t
  let (minute, t) ← shortNumber? (← behind? ':' t)
  let (second, t) ← shortNumber? (← behind? ':' t)
  if hour < 24 && minute < 60 && second < 60 then
    match t with
    | p :: rest =>
      let part := rest.takeWhile Char.isDigit
      if (p == '.' || p == ',') && !part.isEmpty then some (rest.drop part.length) else some t
    | [] => some []
  else none

/-- A time zone: none, or the hours and minutes it is ahead or behind. -/
def isZone : List Char → Bool
  | ['Z'] => true
  | [sign, a, b, ':', c, d] => (sign == '+' || sign == '-') && [a, b, c, d].all Char.isDigit
  | _ => false

def isLeapYear (y : Nat) : Bool := y % 4 == 0 && (y % 100 != 0 || y % 400 == 0)

def daysIn (year month : Nat) : Nat :=
  if month == 2 then if isLeapYear year then 29 else 28
  else if [4, 6, 9, 11].contains month then 30
  else 31

def date? (t : List Char) : Option (List Char) := do
  let digits := t.takeWhile Char.isDigit
  if digits.length ≠ 4 then none
  else do
    let year := digits.foldl (fun n d => 10 * n + (d.toNat - 48)) 0
    let (month, t) ← shortNumber? (← behind? '-' (t.drop 4))
    let (day, t) ← shortNumber? (← behind? '-' t)
    if 1 ≤ month && month ≤ 12 && 1 ≤ day && day ≤ daysIn year month then some t else none

def isTimestamp (t : List Char) : Bool :=
  match date? t with
  | none => false
  | some [] => true
  | some (a :: rest) =>
    match clock? rest with
    | none => false
    | some zone => if a == ' ' then zone.isEmpty else (a == 'T' || a == 't') && isZone zone

def sixBits? (c : Char) : Option Nat :=
  if c.isUpper then some (c.toNat - 65)
  else if c.isLower then some (c.toNat - 71)
  else if c.isDigit then some (c.toNat + 4)
  else if c == '+' then some 62
  else if c == '/' then some 63
  else none

/-- The bytes that digits in base 64 stand for. The last group is filled up to four characters. -/
def base64? : List Char → Option Bytes
  | [] => some []
  | [a, b, '=', '='] => do
    let v := 64 * (← sixBits? a) + (← sixBits? b)
    return [UInt8.ofNat (v / 16)]
  | [a, b, c, '='] => do
    let v := 4096 * (← sixBits? a) + 64 * (← sixBits? b) + (← sixBits? c)
    return [UInt8.ofNat (v / 1024), UInt8.ofNat (v / 4)]
  | a :: b :: c :: d :: rest => do
    let v := 262144 * (← sixBits? a) + 4096 * (← sixBits? b) + 64 * (← sixBits? c) + (← sixBits? d)
    return UInt8.ofNat (v / 65536) :: UInt8.ofNat (v / 256) :: UInt8.ofNat v :: (← base64? rest)
  | _ => none

inductive Value
  | null
  | text (t : Bytes)
  deriving DecidableEq, Repr

/-- The value of a scalar, if its text is one of its tag. -/
def value? (tag : Tag) (t : List Char) : Option Value :=
  let check (ok : Bool) : Option Value := if ok then some (.text (bytes t)) else none
  match tag with
  | .null => if isNull t then some .null else none
  | .bool => check (isBool t)
  | .int => check (isInt t)
  | .float => check (isFloat t)
  | .timestamp => check (isTimestamp t)
  | .binary => (base64? (t.filter (· != '\n'))).map .text
  | .str | .merge | .other => check true

end StackC.Yaml
