/-! Text as bytes: literals, decimal numbers, lines and trimming. -/
namespace StackC

/-- A text. Every offset and every column of this library counts bytes. -/
abbrev Bytes := List UInt8

def byte (c : Char) : UInt8 := c.toUInt8

def ascii (s : String) : Bytes := s.toList.map byte

namespace Text

def newline : UInt8 := 10

def quoteMark : UInt8 := 34

def apostrophe : UInt8 := 39

def backslash : UInt8 := 92

def isDigit (b : UInt8) : Bool := byte '0' ≤ b && b ≤ byte '9'

/-- The six ASCII blanks: space, tab, newline, vertical tab, form feed and carriage return. -/
def isBlank (b : UInt8) : Bool := b == byte ' ' || (9 ≤ b && b ≤ 13)

/-- The decimal digits of a natural number, without leading zeros. -/
def decimalNat (n : Nat) : Bytes := (Nat.toDigits 10 n).map byte

/-- The decimal text of an integer: a minus sign only below zero. -/
def decimal : Int → Bytes
  | .ofNat n => decimalNat n
  | .negSucc n => byte '-' :: decimalNat (n + 1)

def digitsValue (digits : Bytes) : Nat :=
  digits.foldl (fun v d => 10 * v + (d.toNat - 48)) 0

def trimRight (p : UInt8 → Bool) (t : Bytes) : Bytes := (t.reverse.dropWhile p).reverse

/-- Drops the longest start and the longest end whose bytes all satisfy `p`. -/
def trim (p : UInt8 → Bool) (t : Bytes) : Bytes := trimRight p (t.dropWhile p)

def trimNewlines (t : Bytes) : Bytes := trimRight (· == newline) t

/-- The text after `start`, if the text begins with it. -/
def after? (start t : Bytes) : Option Bytes :=
  if start.isPrefixOf t then some (t.drop start.length) else none

/-- Cuts the text into lines. Each keeps its newline, so the lines concatenate to the text. -/
def lines : Bytes → List Bytes
  | [] => []
  | b :: rest =>
    if b == newline then [b] :: lines rest
    else match lines rest with
      | [] => [[b]]
      | l :: ls => (b :: l) :: ls

def join (sep : Bytes) : List Bytes → Bytes
  | [] => []
  | [t] => t
  | t :: ts => t ++ sep ++ join sep ts

def marked (t : Bytes) : Bytes := apostrophe :: t ++ [apostrophe]

end Text
end StackC
