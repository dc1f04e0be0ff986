import StackC.SourceError
import StackC.Token.Basic

/-! Cutting a source text into tokens. -/
namespace StackC.Token

def isIdentStart (b : UInt8) : Bool :=
  (byte 'a' ≤ b && b ≤ byte 'z') || (byte 'A' ≤ b && b ≤ byte 'Z') || b == byte '_'

def isIdentPart (b : UInt8) : Bool := isIdentStart b || Text.isDigit b

def keywords : List Bytes :=
  [ascii "return", ascii "if", ascii "else", ascii "for", ascii "while", ascii "int"]

/-- The first bytes of the punctuators of two bytes, all of which end in `=`. -/
def pairStarts : Bytes := ascii "=!<>"

def singles : Bytes := ascii "+-*/&()\x7b\x7d;,=<>"

def maxNumber : Nat := 2147483647

/-- The lexeme that begins with `b`: its kind, the bytes after `b` that belong to it, and its
value. Of two that fit the longer is taken. -/
def lexeme (b : UInt8) (rest : Bytes) : Except Cause (TokenKind × Bytes × Int) :=
  if Text.isDigit b then
    let more := rest.takeWhile Text.isDigit
    let value := Text.digitsValue (b :: more)
    if value ≤ maxNumber then .ok (.num, more, value) else .error .numberOutOfRange
  else if isIdentStart b then
    let more := rest.takeWhile isIdentPart
    .ok (if keywords.contains (b :: more) then .keyword else .ident, more, 0)
  else if pairStarts.contains b && rest.head? == some (byte '=') then .ok (.punct, [byte '='], 0)
  else if singles.contains b then .ok (.punct, [], 0)
  else .error .invalidToken

/-- The tokens of a text that begins at offset `pos`, with the end mark behind them. -/
def scanFrom (pos : Nat) : Bytes → Except SourceError (List Token)
  | [] => .ok [eof pos]
  | b :: rest =>
    if Text.isBlank b then scanFrom (pos + 1) rest
    else match lexeme b rest with
      | .error cause => .error { cause, offset := pos }
      | .ok (kind, more, val) => do
        let toks ← scanFrom (pos + more.length + 1) (rest.drop more.length)
        return { kind, pos, lit := b :: more, val } :: toks
termination_by t => t.length
decreasing_by all_goals simp only [List.length_drop, List.length_cons]; omega

/-- The tokens of a source text. -/
def scan (src : Bytes) : Except SourceError (List Token) := scanFrom 0 src

end StackC.Token
