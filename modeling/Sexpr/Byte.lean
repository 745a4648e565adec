/-! # Bytes of source text

Source text is a list of bytes, and its syntax is decided byte by byte. This module names the
bytes that carry meaning and the classes that the lexical rules speak of.
-/

namespace Sexpr

abbrev Bytes := List UInt8

namespace Byte

abbrev newline : UInt8 := 0x0a
abbrev space : UInt8 := 0x20
abbrev quotation : UInt8 := 0x22
abbrev apostrophe : UInt8 := 0x27
abbrev leftParen : UInt8 := 0x28
abbrev rightParen : UInt8 := 0x29
abbrev minus : UInt8 := 0x2d
abbrev period : UInt8 := 0x2e
abbrev zero : UInt8 := 0x30
abbrev nine : UInt8 := 0x39
abbrev letterX : UInt8 := 0x78
abbrev backslash : UInt8 := 0x5c
abbrev delete : UInt8 := 0x7f

/-- Blanks and control characters share one range, and all of them separate tokens. -/
def isBlank (b : UInt8) : Bool := b ≤ space

def isDigit (b : UInt8) : Bool := zero ≤ b && b ≤ nine

def isPrintable (b : UInt8) : Bool := space ≤ b && b < delete

/-- Bytes that extend a symbol: the visible ASCII characters except parentheses and quotation. -/
def isSymbolic (b : UInt8) : Bool :=
  !isBlank b && b < delete && b != leftParen && b != rightParen && b != quotation

def isHexDigit (b : UInt8) : Bool :=
  isDigit b || (0x41 ≤ b && b ≤ 0x46) || (0x61 ≤ b && b ≤ 0x66)

def hexValue (b : UInt8) : UInt8 :=
  if isDigit b then b - zero else if b ≤ 0x46 then b - 0x37 else b - 0x57

/-- Lower-case hexadecimal digit of a value below sixteen. -/
def hexDigit (n : UInt8) : UInt8 := if n < 10 then zero + n else 0x57 + n

/-- Upper-case hexadecimal digit of a value below sixteen. -/
def upperHexDigit (n : UInt8) : UInt8 := if n < 10 then zero + n else 0x37 + n

/-- A statement about every byte is a statement about 256 numbers. -/
theorem forall_of_fin {p : UInt8 → Prop} (h : ∀ n : Fin 256, p (UInt8.ofFin n)) (b : UInt8) : p b :=
  h b.toFin

theorem not_isBlank_of_isSymbolic {b : UInt8} (h : isSymbolic b = true) : isBlank b = false := by
  simp [isSymbolic] at h
  simp [h.1]

end Byte

end Sexpr
