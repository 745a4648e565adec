import Sexpr.Proofs.Role

/-! # The written form of a string

Every string has one literal that is written for it. The literal is a token of its own whatever
stands behind it, consists of printable bytes, and decodes to the string. Of all bodies that decode
to a string, the one that is written is told by its spelling alone.
-/

namespace Sexpr

namespace Escape

open Byte (backslash letterX quotation hexValue)

/-- The quotation mark, the backslash and the names of control bytes. -/
def escapable : Bytes := quotation :: backslash :: named.map Prod.fst

def lowerHexDigits : Bytes :=
  [0x30, 0x31, 0x32, 0x33, 0x34, 0x35, 0x36, 0x37, 0x38, 0x39, 0x61, 0x62, 0x63, 0x64, 0x65, 0x66]

def IsPrintable (b : UInt8) : Prop := 0x20 ≤ b ∧ b ≤ 0x7e

instance (b : UInt8) : Decidable (IsPrintable b) := inferInstanceAs (Decidable (_ ∧ _))

/-- A body is canonical if it has printable bytes, short escapes, and two lower-case hexadecimal
digits for the bytes that have neither a short escape nor a printable form. -/
inductive Canonical : Bytes → Prop
  | nil : Canonical []
  | printable {b s} (hb : IsPrintable b) (hquotation : b ≠ quotation) (hbackslash : b ≠ backslash)
      (h : Canonical s) : Canonical (b :: s)
  | escaped {c s} (hc : c ∈ escapable) (h : Canonical s) : Canonical (backslash :: c :: s)
  | hex {high low s} (hhigh : high ∈ lowerHexDigits) (hlow : low ∈ lowerHexDigits)
      (hprintable : ¬ IsPrintable (hexValue high * 16 + hexValue low))
      (hname : hexValue high * 16 + hexValue low ∉ named.map Prod.snd) (h : Canonical s) :
    Canonical (backslash :: letterX :: high :: low :: s)

def Piece.IsCanonical : Piece → Prop
  | plain b => IsPrintable b ∧ b ≠ quotation ∧ b ≠ backslash
  | escaped c => c ∈ escapable
  | hex high low => high ∈ lowerHexDigits ∧ low ∈ lowerHexDigits ∧
      ¬ IsPrintable (hexValue high * 16 + hexValue low) ∧
      hexValue high * 16 + hexValue low ∉ named.map Prod.snd
  | loneBackslash => False

instance : DecidablePred Piece.IsCanonical := fun p =>
  match p with
  | .plain b => inferInstanceAs (Decidable (IsPrintable b ∧ b ≠ quotation ∧ b ≠ backslash))
  | .escaped c => inferInstanceAs (Decidable (c ∈ escapable))
  | .hex high low => inferInstanceAs (Decidable (high ∈ lowerHexDigits ∧ low ∈ lowerHexDigits ∧
      ¬ IsPrintable (hexValue high * 16 + hexValue low) ∧
      hexValue high * 16 + hexValue low ∉ named.map Prod.snd))
  | .loneBackslash => inferInstanceAs (Decidable False)

variable {p : Piece} {body s : Bytes}

theorem Canonical.text_append (hp : p.IsCanonical) (h : Canonical s) :
    Canonical (p.text ++ s) := by
  cases p with
  | plain b => exact .printable hp.1 hp.2.1 hp.2.2 h
  | escaped c => exact .escaped hp h
  | hex high low => exact .hex hp.1 hp.2.1 hp.2.2.1 hp.2.2.2 h
  | loneBackslash => exact hp.elim

theorem isCanonical_ofByte (b : UInt8) : (Piece.ofByte b).IsCanonical := by
  revert b
  apply Byte.forall_of_fin
  decide +kernel

theorem printable_ofByte (b : UInt8) : ∀ c ∈ (Piece.ofByte b).text, IsPrintable c := by
  revert b
  apply Byte.forall_of_fin
  decide +kernel

theorem ofByte_value_of_isCanonical (hp : p.IsCanonical) : Piece.ofByte p.value = p := by
  cases p with
  | plain b =>
    revert b
    apply Byte.forall_of_fin
    decide +kernel
  | escaped c =>
    have hall : ∀ c ∈ escapable, Piece.ofByte (Piece.escaped c).value = .escaped c := by
      decide +kernel
    exact hall c hp
  | hex high low =>
    have hall : ∀ high ∈ lowerHexDigits, ∀ low ∈ lowerHexDigits, (Piece.hex high low).IsCanonical →
        Piece.ofByte (Piece.hex high low).value = .hex high low := by decide +kernel
    exact hall high hp.1 low hp.2.1 hp
  | loneBackslash => exact hp.elim

theorem canonical_encode (contents : Bytes) : Canonical (encode contents) := by
  induction contents with
  | nil => exact .nil
  | cons b contents ih =>
    rw [encode_cons]
    exact ih.text_append (isCanonical_ofByte b)

theorem encode_decode_append (hp : p.IsCanonical) (h : encode (decode s) = s) :
    encode (decode (p.text ++ s)) = p.text ++ s := by
  have hofByte := ofByte_value_of_isCanonical hp
  have hstands : p.standsAlone = true := hofByte ▸ standsAlone_ofByte p.value
  rw [decode, pieces_text_append hstands, List.map_cons, encode_cons, hofByte]
  exact congrArg (p.text ++ ·) h

theorem Canonical.encode_decode (h : Canonical body) : encode (decode body) = body := by
  induction h with
  | nil => rfl
  | @printable b s hb hquotation hbackslash _ ih =>
    have hp : (Piece.plain b).IsCanonical := ⟨hb, hquotation, hbackslash⟩
    exact encode_decode_append hp ih
  | @escaped c s hc _ ih =>
    have hp : (Piece.escaped c).IsCanonical := hc
    exact encode_decode_append hp ih
  | @hex high low s hhigh hlow hprintable hname _ ih =>
    have hp : (Piece.hex high low).IsCanonical := ⟨hhigh, hlow, hprintable, hname⟩
    exact encode_decode_append hp ih

theorem canonical_iff_exists : Canonical body ↔ ∃ contents, encode contents = body := by
  constructor
  · intro h
    exact ⟨decode body, h.encode_decode⟩
  · rintro ⟨contents, rfl⟩
    exact canonical_encode contents

theorem encode_decode_iff : encode (decode body) = body ↔ ∃ contents, encode contents = body := by
  constructor
  · intro h
    exact ⟨decode body, h⟩
  · rintro ⟨contents, rfl⟩
    rw [decode_encode]

theorem printable_encode (contents : Bytes) : ∀ c ∈ encode contents, IsPrintable c := by
  intro c hc
  rcases List.mem_flatMap.1 hc with ⟨b, _, hb⟩
  exact printable_ofByte b c hb

theorem literal_eq_iff {contents : Bytes} :
    literal contents = quotation :: body ++ [quotation] ↔ encode contents = body := by
  simp [literal]

theorem decode_body_literal (contents : Bytes) :
    decode (literal contents).tail.dropLast = contents := by
  simp [literal]

end Escape

/-- A literal ends at its closing mark, whatever stands behind it. -/
theorem Lexeme.scan_literal_append (contents rest : Bytes) :
    scan (Escape.literal contents ++ rest) = ⟨.string, Escape.literal contents, rest⟩ := by
  have hclose := closeString?_of_body (body_encode contents) rest
  have htail : Escape.literal contents ++ rest =
      Byte.quotation :: (Escape.encode contents ++ Byte.quotation :: rest) := by
    simp [Escape.literal]
  rw [htail, scan, hclose]
  rfl

/-- The literal of a string is a token of its own, whatever stands behind it, and it decodes to the
string. All its bytes are printable. Writing a string again that was decoded from some body gives
the body back exactly if the body is one that is written for a string, which means that its spelling
is canonical. -/
theorem literal_scanned_and_canonical (contents rest : Bytes) :
    (∃ later, Token.all (Escape.literal contents ++ rest) =
      ⟨.string, Escape.literal contents, 0⟩ :: later) ∧
    Escape.decode (Escape.literal contents).tail.dropLast = contents ∧
    (∀ b ∈ Escape.literal contents, 0x20 ≤ b ∧ b ≤ 0x7e) ∧
    ∀ body, (Escape.literal (Escape.decode body) = Byte.quotation :: body ++ [Byte.quotation] ↔
        ∃ other, Escape.literal other = Byte.quotation :: body ++ [Byte.quotation]) ∧
      ((∃ other, Escape.literal other = Byte.quotation :: body ++ [Byte.quotation]) ↔
        Escape.Canonical body) := by
  refine ⟨?_, Escape.decode_body_literal contents, ?_, fun body => ⟨?_, ?_⟩⟩
  · have hscan := Lexeme.scan_literal_append contents rest
    have hlexes : Lexes (Escape.literal contents ++ rest) 0 (⟨.string, _, 0⟩ :: _) :=
      .token rfl hscan (Lexes.tokens_skipBlanks rest _)
    exact ⟨_, Lexes.iff_eq_all.1 hlexes⟩
  · have hmark : Escape.IsPrintable Byte.quotation := by decide
    rw [Escape.literal, List.forall_mem_append, List.forall_mem_cons, List.forall_mem_singleton]
    exact ⟨⟨hmark, Escape.printable_encode contents⟩, hmark⟩
  · simp only [Escape.literal_eq_iff]
    exact Escape.encode_decode_iff
  · simp only [Escape.literal_eq_iff]
    exact Escape.canonical_iff_exists.symm

end Sexpr
