import StackC.SExpr.Node

/-! Patterns of s-expressions: the symbol `_` matches any datum, and an ellipsis in a list matches
any number of items. -/
namespace StackC.SExpr

namespace Node

def isWildcard (n : Node) : Bool := n.kind == .symbol && n.text == ascii "_"

def isEllipsis (n : Node) : Bool := n.kind == .ellipsis

mutual

/-- A datum has the shape of a pattern. -/
def fits : Node → Node → Bool
  | ⟨kind, text, items⟩, g =>
    (kind == .symbol && text == ascii "_") ||
      (kind == g.kind && if kind == .list then matchItems items g.items else text == g.text)

def matchItems : List Node → List Node → Bool
  | [], gs => gs.isEmpty
  | p :: ps, gs =>
    if p.isEllipsis then (List.range (gs.length + 1)).any fun n => matchItems ps (gs.drop n)
    else match gs with
      | [] => false
      | g :: gs => p.fits g && matchItems ps gs

end

end Node

/-- In what way two data differ. -/
inductive Difference
  | kind
  | text
  | tooFewItems
  | items
  deriving DecidableEq, Repr

/-- Where a datum departs from a pattern: the way down from the roots, and what stands there. -/
structure Mismatch where
  path : List Nat
  difference : Difference
  pattern : Node
  got : Node

namespace Mismatch

def message (m : Mismatch) : Bytes :=
  let path := ascii "root" ++ m.path.flatMap fun i => ascii "[" ++ Text.decimalNat i ++ ascii "]"
  let kinds : Bytes × Bytes :=
    if m.difference = .kind then (m.pattern.kind.text ++ ascii " ", m.got.kind.text ++ ascii " ")
    else ([], [])
  let note := if m.difference = .tooFewItems then ascii " (too few items)" else []
  ascii "at " ++ path ++ ascii ": expected " ++ kinds.1 ++ m.pattern.print ++ ascii ", got " ++
    kinds.2 ++ m.got.print ++ note

/-- The same place seen from one level up. -/
def under (i : Nat) (m : Mismatch) : Mismatch := { m with path := i :: m.path }

end Mismatch

namespace Node

mutual

/-- The place to blame for a pattern that does not match. -/
def blame : Node → Node → Mismatch
  | ⟨kind, text, items⟩, g =>
    let here (difference : Difference) : Mismatch :=
      { path := [], difference, pattern := ⟨kind, text, items⟩, got := g }
    if kind != g.kind then here .kind
    else if kind != .list then here .text
    else blameItems (here .items) (here .tooFewItems) 0 items g.items

/-- The first item before any ellipsis that does not match. Otherwise the whole list is to
blame. -/
def blameItems (whole tooFew : Mismatch) (i : Nat) : List Node → List Node → Mismatch
  | [], _ => whole
  | p :: ps, gs =>
    if p.isEllipsis then whole
    else match gs with
      | [] => tooFew
      | g :: gs =>
        if p.fits g then blameItems whole tooFew (i + 1) ps gs else (p.blame g).under i

end

def mismatch? (p g : Node) : Option Mismatch := if p.fits g then none else some (p.blame g)

end Node
end StackC.SExpr
