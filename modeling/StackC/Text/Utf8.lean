import StackC.Text.Bytes

/-! UTF-8: one code point at a time, validity of a text, and the encoding of a code point. -/
namespace StackC.Text

def isContinuation (b : UInt8) : Bool := 0x80 ≤ b && b ≤ 0xBF

private def low (b : UInt8) : Nat := b.toNat % 64

/-- The code point at the start of a text and the number of its bytes. A sequence is well formed
if it is the shortest for its code point, which is no surrogate and at most U+10FFFF. -/
def codePoint? : Bytes → Option (Nat × Nat)
  | [] => none
  | a :: rest =>
    if a < 0x80 then some (a.toNat, 1)
    else if 0xC2 ≤ a && a ≤ 0xDF then
      match rest with
      | b :: _ => if isContinuation b then some (a.toNat % 32 * 64 + low b, 2) else none
      | [] => none
    else if 0xE0 ≤ a && a ≤ 0xEF then
      match rest with
      | b :: c :: _ =>
        if isContinuation b && isContinuation c && (a != 0xE0 || 0xA0 ≤ b) &&
          (a != 0xED || b ≤ 0x9F)
        then some (a.toNat % 16 * 4096 + low b * 64 + low c, 3) else none
      | _ => none
    else if 0xF0 ≤ a && a ≤ 0xF4 then
      match rest with
      | b :: c :: d :: _ =>
        if isContinuation b && isContinuation c && isContinuation d &&
          (a != 0xF0 || 0x90 ≤ b) && (a != 0xF4 || b ≤ 0x8F)
        then some (a.toNat % 8 * 262144 + low b * 4096 + low c * 64 + low d, 4) else none
      | _ => none
    else none

/-- One piece of a text: a code point with its bytes, or a byte that starts none. -/
inductive Piece
  | scalar (code : Nat) (bytes : Bytes)
  | stray (b : UInt8)
  deriving DecidableEq, Repr

/-- Cuts a text into pieces from the left. Their bytes concatenate to the text. -/
def pieces : Bytes → List Piece
  | [] => []
  | b :: rest =>
    match codePoint? (b :: rest) with
    | some (code, n) => .scalar code (b :: rest.take (n - 1)) :: pieces (rest.drop (n - 1))
    | none => .stray b :: pieces rest
termination_by t => t.length
decreasing_by all_goals simp only [List.length_drop, List.length_cons]; omega

/-- Every piece of the text is a code point. -/
def isUtf8 (t : Bytes) : Bool := (pieces t).all fun
  | .scalar .. => true
  | .stray _ => false

def encode (code : Nat) : Bytes :=
  let tail (n : Nat) : UInt8 := (0x80 + n % 64).toUInt8
  if code < 0x80 then [code.toUInt8]
  else if code < 0x800 then [(0xC0 + code / 64).toUInt8, tail code]
  else if code < 0x10000 then [(0xE0 + code / 4096).toUInt8, tail (code / 64), tail code]
  else [(0xF0 + code / 262144).toUInt8, tail (code / 4096), tail (code / 64), tail code]

end StackC.Text
