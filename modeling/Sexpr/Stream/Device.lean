import Sexpr.Stream.Sink

/-! # A device of bounded capacity

A device takes a bounded number of bytes in one write and in total. When its room is used up it
reports an error once, if it has one to report, and accepts nothing from then on.
-/

namespace Sexpr

structure Device where
  /-- Bytes that still fit, if they are bounded. -/
  room : Option Nat := none
  /-- Bytes accepted in one write, at least one. -/
  burst : Option Nat := none
  fullError : Option IoError := none
  flushError : Option IoError := none
  flushes : Nat := 0
deriving DecidableEq

namespace Device

/-- How many of a number of bytes are accepted. -/
def share (d : Device) (count : Nat) : Nat :=
  let count := match d.burst with
    | none => count
    | some most => min count (max most 1)
  match d.room with
  | none => count
  | some room => min count room

def write (d : Device) (bytes : Bytes) : Reply Device :=
  match d.share bytes.length, d.fullError with
  | 0, some error => .failed error { d with fullError := none }
  | count, _ => .accepted count { d with room := d.room.map (· - count) }

def flush (d : Device) : Except IoError Unit × Device :=
  match d.flushError with
  | none => (.ok (), { d with flushes := d.flushes + 1 })
  | some error => (.error error, { d with flushError := none, flushes := d.flushes + 1 })

/-- The only error of a device is reported once. -/
def sink : Sink Device where
  write := write
  flush := flush
  patience d := if d.fullError.isSome then 1 else 0
  patience_lt d bytes error next h _ := by
    unfold write at h
    split at h
    · rename_i heq
      cases h
      simp [heq]
    · cases h

end Device

end Sexpr
