import Sexpr.Arena.Basic
import Sexpr.Decimal
import Sexpr.Escape
import Sexpr.Utf8

/-! # Written forms of values

A value is written on one line: lists in parentheses with single blanks, an improper tail behind a
period, strings as literals, symbols and integers as they are. The text comes in fragments, front
to back. If a reference is found dangling on the way, the fragments before it stand.
-/

namespace Sexpr

structure Rendering where
  fragments : List Bytes := []
  fault : Option Fault := none
deriving DecidableEq

namespace Rendering

def text (r : Rendering) : Bytes := r.fragments.flatten

def ofParts (parts : List Bytes) : Rendering := ⟨parts, none⟩

def of (fragment : Bytes) : Rendering := ofParts [fragment]

def stopped (fault : Fault) : Rendering := ⟨[], some fault⟩

/-- Nothing follows a fault. -/
def append (r s : Rendering) : Rendering :=
  match r.fault with
  | none => ⟨r.fragments ++ s.fragments, s.fault⟩
  | some _ => r

instance : Append Rendering := ⟨append⟩

/-- All of the text, unless a fault cut it short. -/
def complete (r : Rendering) : Except Fault Bytes :=
  match r.fault with
  | none => .ok r.text
  | some fault => .error fault

end Rendering

namespace Arena

/-- Written form of a node that is no pair, part by part. -/
def atomParts : Node → List Bytes
  | .nil => [[Byte.leftParen, Byte.rightParen]]
  | .pair _ _ => []
  | .string contents => Escape.literalParts contents
  | .symbol name => [Utf8.encode name]
  | .integer value => Decimal.parts value

mutual

def renderWithin (a : Arena) : Nat → Ref → Rendering
  | 0, r => .stopped (.endless r)
  | n + 1, r =>
    match a.get r with
    | .ok (.pair first rest) =>
      .of [Byte.leftParen] ++ a.renderWithin n first ++ a.renderTailWithin n rest
    | .ok atom => .ofParts (atomParts atom)
    | .error fault => .stopped fault

/-- What follows the first element of a list, closing parenthesis included. -/
def renderTailWithin (a : Arena) : Nat → Ref → Rendering
  | 0, r => .stopped (.endless r)
  | n + 1, r =>
    match a.get r with
    | .ok .nil => .of [Byte.rightParen]
    | .ok (.pair item next) =>
      .of [Byte.space] ++ a.renderWithin n item ++ a.renderTailWithin n next
    | .ok atom =>
      .of [Byte.space, Byte.period, Byte.space] ++ .ofParts (atomParts atom)
        ++ .of [Byte.rightParen]
    | .error fault => .stopped fault

end

/-- Written form of a value. A path through it cannot be longer than the arena. -/
def render (a : Arena) (r : Ref) : Rendering := a.renderWithin (a.size + 1) r

def print (a : Arena) (r : Ref) : Except Fault Bytes := (a.render r).complete

end Arena

end Sexpr
