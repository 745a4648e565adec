import Sexpr.Arena.Basic

/-! # Nodes reachable from a reference

The nodes that a value consists of are found by following the slots of pairs, each node once. The
list of them is for looking at a value from outside; nothing is read, written or compared by it.
-/

namespace Sexpr

/-- References that a node holds. -/
def Node.slots : Node → List Ref
  | .pair first rest => [first, rest]
  | _ => []

namespace Arena

/-- Mark the pending references and what they lead to. -/
def markWithin (a : Arena) : Nat → List Ref → Array Bool → Except Fault (Array Bool)
  | _, [], seen => .ok seen
  | 0, r :: _, _ => .error (.endless r)
  | n + 1, r :: pending, seen =>
    if seen[r.index]? == some true then a.markWithin n pending seen
    else
      match a.get r with
      | .ok node => a.markWithin n (node.slots ++ pending) (seen.setIfInBounds r.index true)
      | .error fault => .error fault

/-- Nodes that a value consists of, in ascending order of their references. Each node adds its two
slots to the pending references once. -/
def graph (a : Arena) (root : Ref) : Except Fault (List (Ref × Node)) :=
  (a.markWithin (2 * a.size + 2) [root] (Array.replicate (a.size + 1) false)).map fun seen =>
    (List.range seen.size).filterMap fun i =>
      if seen[i]? == some true then (a.get? ⟨i⟩).map (Prod.mk ⟨i⟩) else none

end Arena

end Sexpr
