import Sexpr.Position
import Sexpr.Token.Basic

/-! # Why a text cannot be read

A parse failure names its cause and the token that is to blame, with the place where that token
starts.
-/

namespace Sexpr

inductive Cause
  | endOfInput
  | invalidToken
  | unexpectedToken
  | numericOverflow
  | outOfMemory
  | nestingTooDeep
deriving DecidableEq

def Cause.reason : Cause → String
  | endOfInput => "unexpected end of input"
  | invalidToken => "invalid token"
  | unexpectedToken => "unexpected token"
  | numericOverflow => "integer literal out of range or malformed"
  | outOfMemory => "out of memory"
  | nestingTooDeep => "nesting too deep"

structure Blame where
  cause : Cause
  token : Token
deriving DecidableEq

structure ParseFailure where
  cause : Cause
  text : String
  offset : Nat
  position : Position
deriving DecidableEq

/-- Find the place of the token in the text that was read. -/
def Blame.locate (input : Bytes) (b : Blame) : ParseFailure where
  cause := b.cause
  text := Utf8.decodeLossy b.token.text
  offset := b.token.offset
  position := Position.ofOffset input b.token.offset

/-- Reason and offending text, each with a blank behind it. -/
def ParseFailure.heading (f : ParseFailure) : String :=
  if f.text.isEmpty then f.cause.reason ++ " " else f.cause.reason ++ " '" ++ f.text ++ "' "

def ParseFailure.message (f : ParseFailure) : String := f.heading ++ f.position.text

end Sexpr
