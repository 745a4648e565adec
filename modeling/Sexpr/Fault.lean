import Sexpr.Arena.Node

/-! # Failures and faults

An operation halts with a failure that its callers are told about, or with a fault: it was handed
a reference that no node of the arena answers to, or found a structure that it relies on broken.
-/

namespace Sexpr

inductive Fault
  /-- The reference lies beyond the nodes of the arena. -/
  | dangling (r : Ref)
  /-- The cell to be linked has a successor already. -/
  | tailSet (cell : Ref)
  | notPair (cell : Ref)
  /-- The text of a string token is too short to hold two quotation marks. -/
  | shortLiteral (text : Bytes)
  /-- The structure goes on deeper than the arena has nodes. -/
  | endless (r : Ref)
deriving DecidableEq

inductive Halt (ε : Type)
  | failure (error : ε)
  | fault (fault : Fault)
deriving DecidableEq

def Halt.map {ε δ : Type} (f : ε → δ) : Halt ε → Halt δ
  | failure error => failure (f error)
  | .fault f => .fault f

end Sexpr
