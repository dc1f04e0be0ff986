/-! Classes of code points, written as the list of points where membership changes. -/
namespace StackC.Text

/-- The class that begins outside and changes membership at each of the increasing `edges`. -/
def inClass (edges : List Nat) (code : Nat) : Bool :=
  (edges.takeWhile (· ≤ code)).length % 2 == 1

end StackC.Text
