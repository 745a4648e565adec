import Sexpr.Byte

/-! # References and nodes

Values do not own each other. A pair holds two references, and a reference is the number of a node
in some arena. The empty list has the same reference everywhere.
-/

namespace Sexpr

structure Ref where
  index : Nat
deriving DecidableEq

namespace Ref

/-- Reference to the empty list, valid in every arena. -/
def nil : Ref := ⟨0⟩

def isNil (r : Ref) : Bool := r.index == 0

@[simp] theorem isNil_nil : nil.isNil = true := rfl

end Ref

/-- A string holds its decoded contents. -/
inductive Node
  | nil
  | pair (first rest : Ref)
  | string (contents : Bytes)
  | symbol (name : String)
  | integer (value : Int64)
deriving DecidableEq

end Sexpr
