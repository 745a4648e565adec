import Sexpr.Byte

/-! # Decimal numerals

An integer literal is an optional minus and at least one decimal digit, leading zeros allowed. Its
value has to lie in the signed 64-bit range. The printed numeral has no leading zero.
-/

namespace Sexpr.Decimal

def digit (n : Nat) : UInt8 := Byte.zero + UInt8.ofNat n

def digits (n : Nat) : Bytes :=
  if n < 10 then [digit n] else digits (n / 10) ++ [digit (n % 10)]
termination_by n

def ofInt (n : Int) : Bytes :=
  if n < 0 then Byte.minus :: digits n.natAbs else digits n.natAbs

/-- Number that a row of digits denotes in base ten. -/
def magnitude (text : Bytes) : Nat :=
  text.foldl (fun n b => n * 10 + (b - Byte.zero).toNat) 0

def magnitude? (text : Bytes) : Option Nat :=
  if !text.isEmpty && text.all Byte.isDigit then some (magnitude text) else none

def value? : Bytes → Option Int
  | [] => none
  | b :: text =>
    if b == Byte.minus then (magnitude? text).map fun n : Nat => -(n : Int)
    else (magnitude? (b :: text)).map fun n : Nat => (n : Int)

def inRange (n : Int) : Bool := -9223372036854775808 ≤ n && n ≤ 9223372036854775807

/-- Value of a literal, if it is well formed and fits. -/
def read? (text : Bytes) : Option Int64 :=
  (value? text).bind fun n => if inRange n then some (Int64.ofInt n) else none

def print (n : Int64) : Bytes := ofInt n.toInt

/-- Parts in which a number is written, the minus apart from the digits. -/
def parts (n : Int64) : List Bytes :=
  if n.toInt < 0 then [[Byte.minus], digits n.toInt.natAbs] else [digits n.toInt.natAbs]

@[simp] theorem flatten_parts (n : Int64) : (parts n).flatten = print n := by
  by_cases h : n.toInt < 0 <;> simp [parts, print, ofInt, h]

end Sexpr.Decimal
