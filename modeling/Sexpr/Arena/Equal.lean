import Sexpr.Arena.Basic

/-! # Structural equality

Two values are equal if they have the same shape and equal atoms, wherever their nodes are and
however they share them. Nodes are compared depth first and front to back, up to the first
difference.
-/

namespace Sexpr.Arena

def equalWithin (a b : Arena) : Nat → Ref → Ref → Except Fault Bool
  | 0, x, _ => .error (.endless x)
  | n + 1, x, y =>
    match a.get x, b.get y with
    | .error fault, _ => .error fault
    | .ok _, .error fault => .error fault
    | .ok .nil, .ok .nil => .ok true
    | .ok (.pair x₁ x₂), .ok (.pair y₁ y₂) =>
      match equalWithin a b n x₁ y₁ with
      | .ok true => equalWithin a b n x₂ y₂
      | answer => answer
    | .ok (.string s), .ok (.string t) => .ok (s == t)
    | .ok (.symbol s), .ok (.symbol t) => .ok (s == t)
    | .ok (.integer m), .ok (.integer n) => .ok (m == n)
    | .ok _, .ok _ => .ok false

/-- Compare a value of this arena with a value of another, or of the same one. A path that meets
the same two nodes again never ends, so there are no longer paths than pairs of nodes. -/
def equal (a : Arena) (x : Ref) (b : Arena) (y : Ref) : Except Fault Bool :=
  equalWithin a b ((a.size + 1) * (b.size + 1) + 1) x y

end Sexpr.Arena
