import Sexpr.Byte

/-! # Text and its UTF-8 bytes

Symbols and messages are text, source is bytes. Well-formed bytes decode to text, and text encodes
back to them. Bytes that may be malformed split into segments, each one character or one maximal
beginning of a character that is not continued.
-/

namespace Sexpr.Utf8

def encode (s : String) : Bytes := s.toByteArray.data.toList

def decode? (bytes : Bytes) : Option String := String.fromUTF8? ⟨bytes.toArray⟩

theorem encode_of_decode? {bytes : Bytes} {s : String} (h : decode? bytes = some s) :
    encode s = bytes := by
  unfold decode? String.fromUTF8? at h
  split at h
  · cases h
    simp [encode, String.fromUTF8]
  · cases h

inductive Segment
  | character (c : Char)
  | malformed (bytes : Bytes)

/-- Ranges of the bytes that have to follow a leading byte, in order; none for other bytes. -/
def continuations (b : UInt8) : List (UInt8 × UInt8) :=
  if b < 0xc2 then []
  else if b < 0xe0 then [(0x80, 0xbf)]
  else if b == 0xe0 then [(0xa0, 0xbf), (0x80, 0xbf)]
  else if b == 0xed then [(0x80, 0x9f), (0x80, 0xbf)]
  else if b < 0xf0 then [(0x80, 0xbf), (0x80, 0xbf)]
  else if b == 0xf0 then [(0x90, 0xbf), (0x80, 0xbf), (0x80, 0xbf)]
  else if b < 0xf4 then [(0x80, 0xbf), (0x80, 0xbf), (0x80, 0xbf)]
  else if b == 0xf4 then [(0x80, 0x8f), (0x80, 0xbf), (0x80, 0xbf)]
  else []

/-- Longest beginning of the bytes that lies in the ranges. -/
def continued : List (UInt8 × UInt8) → Bytes → Bytes
  | (low, high) :: ranges, b :: s => if low ≤ b && b ≤ high then b :: continued ranges s else []
  | _, _ => []

/-- Six bits of each continuation byte follow the payload of the leading byte. -/
def codePoint (b : UInt8) (more : Bytes) : Nat :=
  more.foldl (fun n c => n * 64 + c.toNat % 64) (b.toNat % 1 <<< (6 - more.length))

/-- Segment of a leading byte and the bytes that continue it. -/
def segment (b : UInt8) (more : Bytes) : Segment :=
  if b < 0x80 then .character (Char.ofNat b.toNat)
  else if more.length < (continuations b).length || more.isEmpty then .malformed (b :: more)
  else .character (Char.ofNat (codePoint b more))

def segments : Bytes → List Segment
  | [] => []
  | b :: s =>
    let more := continued (continuations b) s
    segment b more :: segments (s.drop more.length)
termination_by s => s.length
decreasing_by simp only [List.length_drop, List.length_cons]; omega

/-- Character that a segment shows as: a malformed one shows as the replacement character. -/
def Segment.shown : Segment → Char
  | character c => c
  | malformed _ => Char.ofNat 0xfffd

/-- Text as it is if the bytes are well formed, and segment by segment otherwise. -/
def decodeLossy (bytes : Bytes) : String :=
  match decode? bytes with
  | some s => s
  | none => String.ofList ((segments bytes).map Segment.shown)

theorem encode_decodeLossy {bytes : Bytes} (h : (decode? bytes).isSome) :
    encode (decodeLossy bytes) = bytes := by
  obtain ⟨s, hs⟩ := Option.isSome_iff_exists.1 h
  simp [decodeLossy, hs, encode_of_decode? hs]

end Sexpr.Utf8
