import StackC.Tree.Basic

/-! The type of an expression, from the types of the locals. -/
namespace StackC

/-- The type of a sum or difference. Adding to a pointer, or subtracting from it, keeps it; the
difference of two pointers is an integer. -/
def Ty.ofSum (isAdd : Bool) (l r : Ty) : Ty :=
  if l.isPointer then (if r.isPointer then .int else l)
  else if r.isPointer && isAdd then r
  else .int

/-- The type of an expression. There is none if it reaches a local that does not exist. -/
def Expr.type? (locals : List Local) : Expr → Option Ty
  | .var _ i => (getLocal? locals i).map Local.type
  | .addr _ x => (x.type? locals).map .ptr
  | .deref _ x => do
    match ← x.type? locals with
    | .ptr base => return base
    | .int => return .int
  | .assign _ l _ => l.type? locals
  | .binary _ .add l r => return .ofSum true (← l.type? locals) (← r.type? locals)
  | .binary _ .sub l r => return .ofSum false (← l.type? locals) (← r.type? locals)
  | _ => some .int

end StackC
