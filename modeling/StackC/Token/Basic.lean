import StackC.Text.Quoted

/-! Tokens of the source language. -/
namespace StackC

inductive TokenKind
  | eof
  | ident
  | num
  | punct
  | keyword
  | other (code : Int)
  deriving DecidableEq, Repr

namespace TokenKind

def ofCode : Int → TokenKind
  | 0 => eof
  | 1 => ident
  | 2 => num
  | 3 => punct
  | 4 => keyword
  | n => other n

def text : TokenKind → Bytes
  | eof => ascii "EOF"
  | ident => ascii "IDENT"
  | num => ascii "NUM"
  | punct => ascii "PUNCT"
  | keyword => ascii "KEYWORD"
  | other n => ascii "Kind(" ++ Text.decimal n ++ ascii ")"

end TokenKind

/-- A classified piece of the source: where it begins, its text, and its value if it is a
number. -/
structure Token where
  kind : TokenKind
  pos : Int
  lit : Bytes
  val : Int
  deriving DecidableEq, Repr

namespace Token

def eof (pos : Int) : Token := { kind := .eof, pos, lit := [], val := 0 }

/-- The token is the punctuator or keyword with this spelling. -/
def is (t : Token) (lit : Bytes) : Bool :=
  (t.kind == .punct || t.kind == .keyword) && t.lit == lit

def text (t : Token) : Bytes :=
  if t.kind == .eof then ascii "EOF" else t.kind.text ++ ascii " " ++ Text.quote t.lit

def beforeEnd (toks : List Token) : List Token := toks.takeWhile (·.kind != .eof)

def listing (toks : List Token) : Bytes :=
  (beforeEnd toks).flatMap fun t => t.text ++ [Text.newline]

end Token
end StackC
