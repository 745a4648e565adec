import Sexpr.Token.Basic

/-! # The lexeme at the front of a text

The first byte decides the kind of a token. Digits extend an integer, symbolic bytes a symbol, and
a string runs to the first quotation mark that no backslash escapes. Every lexeme is as long as its
kind allows. A string without closing mark is invalid and takes the whole rest.
-/

namespace Sexpr

structure Lexeme where
  kind : Token.Kind
  text : Bytes
  rest : Bytes
deriving DecidableEq

namespace Lexeme

/-- Cut behind the closing quotation mark, where a backslash takes the byte after it along. -/
def closeString? : Bytes → Option (Bytes × Bytes)
  | [] => none
  | b :: s =>
    if b == Byte.quotation then some ([b], s)
    else if b == Byte.backslash then
      match s with
      | [] => none
      | c :: s => (closeString? s).map fun (body, rest) => (b :: c :: body, rest)
    else (closeString? s).map fun (body, rest) => (b :: body, rest)

/-- A first byte together with all following bytes of a class. -/
def run (kind : Token.Kind) (extends? : UInt8 → Bool) (b : UInt8) (s : Bytes) : Lexeme :=
  ⟨kind, b :: s.takeWhile extends?, s.dropWhile extends?⟩

def single (kind : Token.Kind) (b : UInt8) (s : Bytes) : Lexeme := ⟨kind, [b], s⟩

def scan : Bytes → Lexeme
  | [] => ⟨.endOfInput, [], []⟩
  | b :: s =>
    if Byte.isBlank b || Byte.delete ≤ b then single .invalid b s
    else if b == Byte.leftParen then single .leftParen b s
    else if b == Byte.rightParen then single .rightParen b s
    else if b == Byte.apostrophe then single .quote b s
    else if b == Byte.minus || Byte.isDigit b then run .integer Byte.isDigit b s
    else if b == Byte.quotation then
      match closeString? s with
      | some (body, rest) => ⟨.string, b :: body, rest⟩
      | none => ⟨.invalid, b :: s, []⟩
    else run .symbol Byte.isSymbolic b s

theorem append_eq_of_closeString? {s body rest : Bytes} (h : closeString? s = some (body, rest)) :
    body ++ rest = s := by
  fun_induction closeString? s generalizing body rest with
  | case1 => simp at h
  | case2 b s hb =>
    cases h
    rfl
  | case3 b hb hs => simp at h
  | case4 b hb hs c s ih =>
    obtain ⟨⟨body, rest⟩, hs, heq⟩ := Option.map_eq_some_iff.1 h
    cases heq
    simp [ih hs]
  | case5 b s hb hs ih =>
    obtain ⟨⟨body, rest⟩, hs, heq⟩ := Option.map_eq_some_iff.1 h
    cases heq
    simp [ih hs]

@[simp] theorem scan_append (s : Bytes) : (scan s).text ++ (scan s).rest = s := by
  fun_cases scan s with
  | case1 => rfl
  | case7 => simp [append_eq_of_closeString? ‹_›]
  | _ => simp [single, run]

theorem text_scan_ne_nil {s : Bytes} (h : s ≠ []) : (scan s).text ≠ [] := by
  fun_cases scan s with
  | case1 => exact absurd rfl h
  | _ => simp [single, run]

end Lexeme

end Sexpr
