import Sexpr.Byte

/-! # Escapes in string literals

The body of a string literal is read in pieces: a plain byte, a backslash with the byte it escapes,
or a backslash with the letter x and two hexadecimal digits. Every piece stands for one byte. The
written form of a byte is the piece that keeps it on one line of printable characters.
-/

namespace Sexpr.Escape

inductive Piece
  | plain (b : UInt8)
  | escaped (b : UInt8)
  | hex (high low : UInt8)
  | loneBackslash
deriving DecidableEq

/-- Letters that name a control byte behind a backslash. -/
def named : List (UInt8 × UInt8) :=
  [(0x6e, 0x0a), (0x74, 0x09), (0x72, 0x0d), (0x30, 0x00),
   (0x61, 0x07), (0x62, 0x08), (0x76, 0x0b), (0x66, 0x0c)]

namespace Piece

def text : Piece → Bytes
  | plain b => [b]
  | escaped b => [Byte.backslash, b]
  | hex high low => [Byte.backslash, Byte.letterX, high, low]
  | loneBackslash => [Byte.backslash]

/-- Parts in which a piece is written. A backslash is written apart from what it escapes, and the
zero in front of a single hexadecimal digit apart from the digit. -/
def parts : Piece → List Bytes
  | plain b => [[b]]
  | escaped b => [[Byte.backslash], [b]]
  | hex high low =>
    [Byte.backslash, Byte.letterX] :: if high == Byte.zero then [[high], [low]] else [[high, low]]
  | loneBackslash => [[Byte.backslash]]

/-- Byte that a piece stands for. An escaped byte without a name of its own stands for itself. -/
def value : Piece → UInt8
  | plain b => b
  | escaped b => (named.lookup b).getD b
  | hex high low => Byte.hexValue high * 16 + Byte.hexValue low
  | loneBackslash => Byte.backslash

/-- Written form of a byte: a name if there is one, the byte itself if it is printable, and two
hexadecimal digits otherwise. -/
def ofByte (b : UInt8) : Piece :=
  if b == Byte.quotation || b == Byte.backslash then escaped b
  else
    match named.find? (·.2 == b) with
    | some (letter, _) => escaped letter
    | none =>
      if Byte.isPrintable b then plain b
      else hex (Byte.hexDigit (b / 16)) (Byte.hexDigit (b % 16))

end Piece

/-- Pieces of a string body, front to back. A letter x without two digits behind it is an escaped
byte like any other. -/
def pieces : Bytes → List Piece
  | [] => []
  | b :: s =>
    if b != Byte.backslash then .plain b :: pieces s
    else
      match s with
      | [] => [.loneBackslash]
      | c :: high :: low :: s =>
        if c == Byte.letterX && Byte.isHexDigit high && Byte.isHexDigit low then
          .hex high low :: pieces s
        else .escaped c :: pieces (high :: low :: s)
      | c :: s => .escaped c :: pieces s

/-- Contents of a string literal, from its body. -/
def decode (body : Bytes) : Bytes := (pieces body).map Piece.value

def encode (contents : Bytes) : Bytes := contents.flatMap fun b => (Piece.ofByte b).text

/-- Literal written for a string, quotation marks included. -/
def literal (contents : Bytes) : Bytes :=
  Byte.quotation :: encode contents ++ [Byte.quotation]

def literalParts (contents : Bytes) : List Bytes :=
  [Byte.quotation] :: (contents.flatMap fun b => (Piece.ofByte b).parts) ++ [[Byte.quotation]]

theorem Piece.flatten_parts (p : Piece) : p.parts.flatten = p.text := by
  cases p with
  | hex high low =>
    rw [parts]
    split <;> rfl
  | _ => rfl

@[simp] theorem flatten_literalParts (contents : Bytes) :
    (literalParts contents).flatten = literal contents := by
  have hbody : (contents.flatMap fun b => (Piece.ofByte b).parts).flatten = encode contents := by
    induction contents with
    | nil => rfl
    | cons b contents ih =>
      rw [List.flatMap_cons, List.flatten_append, ih, Piece.flatten_parts]
      rfl
  simp [literalParts, literal, hbody]

@[simp] theorem flatMap_text_pieces (body : Bytes) : (pieces body).flatMap Piece.text = body := by
  fun_induction pieces body <;> simp_all [Piece.text]

theorem value_ofByte (b : UInt8) : (Piece.ofByte b).value = b := by
  revert b
  apply Byte.forall_of_fin
  decide +kernel

end Sexpr.Escape
