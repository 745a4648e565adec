import Sexpr.Arena.Basic

/-! # Lists in an arena

A list is a chain of cells, each pairing an element with the next cell, the last one with the empty
list. Lists are built front to back: a new cell is linked to the one before it. A list is read until
its first node that is no pair, so an improper tail is passed over.
-/

namespace Sexpr

/-- A list under construction, with its last cell at hand. -/
structure OpenList where
  head : Ref := Ref.nil
  last : Ref := Ref.nil
deriving DecidableEq

def OpenList.append (l : OpenList) (item : Ref) : Build OpenList := do
  let cell ← Arena.pair item Ref.nil
  if l.last.isNil then
    return ⟨cell, cell⟩
  else
    Arena.link l.last cell
    return ⟨l.head, cell⟩

namespace Arena

def list (items : List Ref) : Build Ref := do
  let l ← items.foldlM OpenList.append {}
  return l.head

/-- List of two elements, the last cell allocated first. -/
def couple (x y : Ref) : Build Ref := do
  let rest ← pair y Ref.nil
  pair x rest

/-- The first elements of a list, as many as asked for if there are that many. No node behind the
last of them is looked at. -/
def take (a : Arena) : Nat → Ref → Except Fault (List Ref)
  | 0, _ => .ok []
  | n + 1, r =>
    match a.get r with
    | .ok (.pair first rest) => (a.take n rest).map (first :: ·)
    | .ok _ => .ok []
    | .error fault => .error fault

def itemsWithin (a : Arena) : Nat → Ref → Except Fault (List Ref)
  | 0, r => .error (.endless r)
  | n + 1, r =>
    match a.get r with
    | .ok (.pair first rest) => (a.itemsWithin n rest).map (first :: ·)
    | .ok _ => .ok []
    | .error fault => .error fault

/-- All elements of a list. Its chain cannot be longer than the arena unless it runs in a circle. -/
def items (a : Arena) (r : Ref) : Except Fault (List Ref) := a.itemsWithin (a.size + 1) r

end Arena

end Sexpr
