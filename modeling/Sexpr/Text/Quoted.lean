import Sexpr.Text.Invisible
import Sexpr.Utf8

/-! # Quoted file names

A file name is any row of bytes. It is shown between quotation marks, with escapes for the marks
themselves, for invisible characters and for bytes that are no text, so that it stays on one line.
-/

namespace Sexpr.Text

/-- Hexadecimal numeral without leading zeros. -/
def hexNumeral (n : Nat) : String := String.ofList (Nat.toDigits 16 n)

def quotedCharacter (c : Char) : String :=
  match c.toNat with
  | 0x22 => "\\\""
  | 0x5c => "\\\\"
  | 0x0a => "\\n"
  | 0x0d => "\\r"
  | 0x09 => "\\t"
  | 0x00 => "\\0"
  | n => if isInvisible c then "\\u\x7b" ++ hexNumeral n ++ "\x7d" else c.toString

def quotedByte (b : UInt8) : String :=
  Utf8.decodeLossy
    [Byte.backslash, Byte.letterX, Byte.upperHexDigit (b / 16), Byte.upperHexDigit (b % 16)]

def quotedSegment : Utf8.Segment → String
  | .character c => quotedCharacter c
  | .malformed bytes => String.join (bytes.map quotedByte)

def quoted (name : Bytes) : String :=
  "\"" ++ String.join ((Utf8.segments name).map quotedSegment) ++ "\""

end Sexpr.Text
