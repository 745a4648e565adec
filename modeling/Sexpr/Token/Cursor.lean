import Sexpr.Token.Lexeme

/-! # Walking a text token by token

A cursor stands in front of a token or at the end of its text: blanks are skipped before the first
token and behind each one. Every step at the end yields the end of input again.
-/

namespace Sexpr

structure Cursor where
  rest : Bytes
  offset : Nat
deriving DecidableEq

namespace Cursor

def skipBlanks (c : Cursor) : Cursor where
  rest := c.rest.dropWhile Byte.isBlank
  offset := c.offset + (c.rest.takeWhile Byte.isBlank).length

def start (input : Bytes) : Cursor := skipBlanks ⟨input, 0⟩

/-- Token in front of the cursor. -/
def token (c : Cursor) : Token := ⟨(Lexeme.scan c.rest).kind, (Lexeme.scan c.rest).text, c.offset⟩

/-- Cursor in front of the token that follows. -/
def advance (c : Cursor) : Cursor :=
  skipBlanks ⟨(Lexeme.scan c.rest).rest, c.offset + (Lexeme.scan c.rest).text.length⟩

theorem length_rest_skipBlanks_le (rest : Bytes) (offset : Nat) :
    (skipBlanks ⟨rest, offset⟩).rest.length ≤ rest.length :=
  (List.dropWhile_sublist _).length_le

theorem length_rest_advance_lt (c : Cursor) (h : c.rest ≠ []) :
    c.advance.rest.length < c.rest.length := by
  have htext := List.length_pos_iff.2 (Lexeme.text_scan_ne_nil h)
  have happend := congrArg List.length (Lexeme.scan_append c.rest)
  simp only [List.length_append] at happend
  exact Nat.lt_of_le_of_lt (length_rest_skipBlanks_le _ _) (by omega)

/-- Tokens in front of the cursor, without the end of input. -/
def tokens (c : Cursor) : List Token :=
  if _h : c.rest = [] then [] else c.token :: c.advance.tokens
termination_by c.rest.length
decreasing_by exact length_rest_advance_lt c ‹_›

end Cursor

namespace Token

/-- Tokens of a text, without the end of input. -/
def all (input : Bytes) : List Token := (Cursor.start input).tokens

def eof (input : Bytes) : Token := ⟨.endOfInput, [], input.length⟩

/-- Tokens of a text through the end of input. -/
def stream (input : Bytes) : List Token := all input ++ [eof input]

end Token

end Sexpr
