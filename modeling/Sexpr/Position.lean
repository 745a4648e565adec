import Sexpr.Byte

/-! # Positions in source text

A position is a line and a column, both counted from zero, the column in bytes. It is found by
scanning the text before an offset, or by advancing over that text piece by piece. Both counters
stop at the largest 32-bit number.
-/

namespace Sexpr

structure Position where
  line : Nat := 0
  column : Nat := 0
deriving DecidableEq

namespace Position

def limit : Nat := 4294967295

/-- Position behind a text that starts at the origin. -/
def ofConsumed (text : Bytes) : Position where
  line := min (text.count Byte.newline) limit
  column := min (text.reverse.takeWhile (· != Byte.newline)).length limit

/-- Position of a byte offset; offsets past the end stand for the end. -/
def ofOffset (input : Bytes) (offset : Nat) : Position := ofConsumed (input.take offset)

def step (p : Position) (b : UInt8) : Position :=
  if b == Byte.newline then { line := min (p.line + 1) limit, column := 0 }
  else { line := p.line, column := min (p.column + 1) limit }

/-- Position behind a text that starts at this position. -/
def advance (p : Position) (text : Bytes) : Position := text.foldl step p

/-- Written form, in which lines count from one. The number of a line has 32 bits, so the line at
which the counter stops is written as line zero. -/
def text (p : Position) : String :=
  "@" ++ toString ((p.line + 1) % (limit + 1)) ++ "." ++ toString p.column

theorem text_of_lt {p : Position} (h : p.line < limit) :
    p.text = "@" ++ toString (p.line + 1) ++ "." ++ toString p.column := by
  rw [text, Nat.mod_eq_of_lt (Nat.succ_lt_succ h)]

theorem advance_append (p : Position) (a b : Bytes) :
    p.advance (a ++ b) = (p.advance a).advance b := by
  simp [advance]

end Position

end Sexpr
