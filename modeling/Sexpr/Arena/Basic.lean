import Sexpr.Fault

/-! # The arena of nodes

An arena holds every node that was allocated in it since it was last cleared, numbered from one in
the order of allocation. Number zero is the empty list and takes no room. Numbers have 32 bits, so
every arena is full at some point, and one with a limit is full when it has as many nodes as that.
Nodes are only released all at once.
-/

namespace Sexpr

structure Arena where
  nodes : Array Node := #[]
  limit : Option Nat := none
deriving DecidableEq

/-- Refusal of an arena that holds as many nodes as it may. -/
structure Exhausted where
  count : Nat
deriving DecidableEq

def Exhausted.message (e : Exhausted) : String :=
  "arena exhausted after " ++ toString e.count ++ " nodes"

/-- A computation that allocates nodes. What it allocated stays in the arena even if it halts. -/
abbrev Build := EStateM (Halt Exhausted) Arena

namespace Arena

def size (a : Arena) : Nat := a.nodes.size

def isEmpty (a : Arena) : Bool := a.size == 0

def clear (a : Arena) : Arena := { a with nodes := #[] }

/-- The largest number that a node can have. -/
def mostNodes : Nat := 4294967295

/-- Nodes that the arena may hold. -/
def capacity (a : Arena) : Nat := min (a.limit.getD mostNodes) mostNodes

def isFull (a : Arena) : Bool := a.capacity ≤ a.size

def get? (a : Arena) : Ref → Option Node
  | ⟨0⟩ => some .nil
  | ⟨i + 1⟩ => a.nodes[i]?

def get (a : Arena) (r : Ref) : Except Fault Node :=
  match a.get? r with
  | some node => .ok node
  | none => .error (.dangling r)

/-- Replace a node; the empty list and numbers beyond the arena are left alone. -/
def set (a : Arena) : Ref → Node → Arena
  | ⟨0⟩, _ => a
  | ⟨i + 1⟩, node => { a with nodes := a.nodes.setIfInBounds i node }

def alloc (node : Node) : Build Ref := fun a =>
  if a.isFull then .error (.failure ⟨a.size⟩) a
  else .ok ⟨a.size + 1⟩ { a with nodes := a.nodes.push node }

def pair (first rest : Ref) : Build Ref := alloc (.pair first rest)

def string (contents : Bytes) : Build Ref := alloc (.string contents)

def symbol (name : String) : Build Ref := alloc (.symbol name)

def integer (value : Int64) : Build Ref := alloc (.integer value)

/-- Give a cell its successor. A cell gets one successor only. -/
def link (cell rest : Ref) : Build Unit := fun a =>
  match a.get? cell with
  | some (.pair first old) =>
    if old.isNil then .ok () (a.set cell (.pair first rest)) else .error (.fault (.tailSet cell)) a
  | some _ => .error (.fault (.notPair cell)) a
  | none => .error (.fault (.dangling cell)) a

/-- Read from the arena that is being built in. -/
def inspect {α : Type} (f : Arena → Except Fault α) : Build α := fun a =>
  match f a with
  | .ok x => .ok x a
  | .error fault => .error (.fault fault) a

theorem get?_isSome_iff {a : Arena} {r : Ref} : (a.get? r).isSome ↔ r.index ≤ a.size := by
  rcases r with ⟨_ | i⟩
  · simp [get?]
  · change (a.nodes[i]?).isSome ↔ i < a.nodes.size
    simp

end Arena

end Sexpr
