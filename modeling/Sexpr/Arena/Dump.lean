import Sexpr.Arena.Items
import Sexpr.Utf8

/-! # Structure dumps

A dump spells out the structure of a value as another value. Lists become `(list …)`, strings and
symbols `(string …)` and `(symbol …)` with their byte values, and integers `(integer n)`, where the
node of the integer itself is used again. Improper tails are passed over.
-/

namespace Sexpr.Arena

/-- List of a tag and byte values, the elements allocated before the cells. -/
def tagged (tag : String) (bytes : Bytes) : Build Ref := do
  let head ← symbol tag
  let values ← bytes.mapM fun b => integer (Int64.ofNat b.toNat)
  list (head :: values)

def dumpWithin : Nat → Ref → Build Ref
  | 0, r => throw (.fault (.endless r))
  | n + 1, r => do
    match ← inspect (·.get r) with
    | .nil =>
      let tag ← symbol "list"
      pair tag Ref.nil
    | .pair _ _ =>
      let elements ← inspect (·.items r)
      let tag ← symbol "list"
      let dumped ← elements.mapM (dumpWithin n)
      list (tag :: dumped)
    | .string contents => tagged "string" contents
    | .symbol name => tagged "symbol" (Utf8.encode name)
    | .integer _ =>
      let tag ← symbol "integer"
      couple tag r

/-- Dump of a value. Nesting that runs in a circle is cut short by the limit of the arena, if there
is one, because every level allocates, and other nesting cannot be deeper than the arena. -/
def dump (r : Ref) : Build Ref := fun a => dumpWithin (a.size + a.limit.getD 0 + 1) r a

def dumpForms (forms : Ref) : Build Ref := do
  let elements ← inspect (·.items forms)
  let dumped ← elements.mapM dump
  list dumped

end Sexpr.Arena
