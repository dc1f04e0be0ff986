import StackC.Text.Utf8
import StackC.Text.Printable

/-! Double-quoted text: the quote, the backslash and everything unprintable are escaped. -/
namespace StackC.Text

private def hexDigit (n : Nat) : UInt8 :=
  if n < 10 then (48 + n).toUInt8 else (87 + n).toUInt8

/-- The last `width` hexadecimal digits of a number, with leading zeros. -/
def hex : Nat → Nat → Bytes
  | 0, _ => []
  | width + 1, n => hex width (n / 16) ++ [hexDigit (n % 16)]

def letterEscape? (code : Nat) : Option Char :=
  [(7, 'a'), (8, 'b'), (9, 't'), (10, 'n'), (11, 'v'), (12, 'f'), (13, 'r')].lookup code

/-- One piece of a text as it stands between the quotes, given the code points that need no
escape. -/
def Piece.quoted (printable : Nat → Bool) : Piece → Bytes
  | .stray b => ascii "\\x" ++ hex 2 b.toNat
  | .scalar code bytes =>
    if code = quoteMark.toNat || code = backslash.toNat then backslash :: bytes
    else if printable code then bytes
    else match letterEscape? code with
      | some c => [backslash, byte c]
      | none =>
        if code < 0x80 then ascii "\\x" ++ hex 2 code
        else if code < 0x10000 then ascii "\\u" ++ hex 4 code
        else ascii "\\U" ++ hex 8 code

/-- The text between double quotes, given the code points that need no escape. -/
def quoteBy (printable : Nat → Bool) (t : Bytes) : Bytes :=
  quoteMark :: (pieces t).flatMap (Piece.quoted printable) ++ [quoteMark]

def quote (t : Bytes) : Bytes := quoteBy isPrintable t

end StackC.Text
