import StackC.Text.Quoted

/-! S-expressions and their text. -/
namespace StackC.SExpr

inductive NodeKind
  | symbol
  | string
  | integer
  | ellipsis
  | list
  | other (code : Int)
  deriving DecidableEq, Inhabited, Repr

namespace NodeKind

def ofCode : Int → NodeKind
  | 0 => symbol
  | 1 => string
  | 2 => integer
  | 3 => ellipsis
  | 4 => list
  | n => other n

def text : NodeKind → Bytes
  | symbol => ascii "symbol"
  | string => ascii "string"
  | integer => ascii "integer"
  | ellipsis => ascii "ellipsis"
  | list => ascii "list"
  | other n => ascii "NodeType(" ++ Text.decimal n ++ ascii ")"

end NodeKind

/-- A datum. Only lists are read with items, and only symbols, strings and integers with a text. -/
structure Node where
  kind : NodeKind
  text : Bytes := []
  items : List Node := []
  deriving Inhabited, Repr

namespace Node

def symbol (text : Bytes) : Node := { kind := .symbol, text }

def string (text : Bytes) : Node := { kind := .string, text }

def integer (text : Bytes) : Node := { kind := .integer, text }

def ellipsis : Node := { kind := .ellipsis }

def list (items : List Node) : Node := { kind := .list, items }

def isAtom (n : Node) : Bool := n.kind != .list

mutual

/-- The text of a datum, on one line, given the code points that need no escape. -/
def printBy (printable : Nat → Bool) : Node → Bytes
  | ⟨.symbol, text, _⟩ => text
  | ⟨.integer, text, _⟩ => text
  | ⟨.string, text, _⟩ => Text.quoteBy printable text
  | ⟨.ellipsis, _, _⟩ => ascii "..."
  | ⟨.list, _, items⟩ => ascii "(" ++ printItems printable items ++ ascii ")"
  | ⟨.other n, _, _⟩ => ascii "UNKNOWN_NODE_TYPE_" ++ Text.decimal n

def printItems (printable : Nat → Bool) : List Node → Bytes
  | [] => []
  | [n] => printBy printable n
  | n :: ns => printBy printable n ++ ascii " " ++ printItems printable ns

end

def print (n : Node) : Bytes := n.printBy Text.isPrintable

end Node
end StackC.SExpr
