import Sexpr.Utf8

/-! # Tokens

A token is classified but not converted: it carries the exact bytes it was scanned from and the
offset at which they start. The end of input is a token without text.
-/

namespace Sexpr

inductive Token.Kind
  | endOfInput
  | invalid
  | leftParen
  | rightParen
  | quote
  | integer
  | string
  | symbol
deriving DecidableEq

def Token.Kind.name : Token.Kind → String
  | endOfInput => "EndOfInput"
  | invalid => "Invalid"
  | leftParen => "LeftParen"
  | rightParen => "RightParen"
  | quote => "Quote"
  | integer => "Integer"
  | string => "String"
  | symbol => "Symbol"

structure Token where
  kind : Token.Kind
  text : Bytes
  offset : Nat
deriving DecidableEq

/-- Text shown for a token; bytes that are no text are shown as replacement characters. -/
def Token.shown (t : Token) : String :=
  if t.kind = .endOfInput then "#<eof>" else Utf8.decodeLossy t.text

end Sexpr
