import Sexpr.Escape
import Sexpr.Token.Lexeme

/-! # String literals and their contents

The escape convention is stated as a relation between the body of a literal and its contents, and
decoding computes it. The literal written for a string is cut off at its own closing mark, whatever
follows it, and its body decodes to the string.
-/

namespace Sexpr

namespace Escape

open Byte (backslash letterX quotation isHexDigit hexValue)

/-- Two hexadecimal digits stand in front of a text. -/
def HexAhead (s : Bytes) : Prop :=
  ∃ high low rest, s = high :: low :: rest ∧ isHexDigit high = true ∧ isHexDigit low = true

/-- The escape convention: a named escape stands for a control byte, the letter x takes two
hexadecimal digits along, and any other escaped byte stands for itself. -/
inductive Decodes : Bytes → Bytes → Prop
  | nil : Decodes [] []
  | plain {b s u} (hb : b ≠ backslash) (h : Decodes s u) : Decodes (b :: s) (b :: u)
  | named {letter b s u} (hname : (letter, b) ∈ named) (h : Decodes s u) :
    Decodes (backslash :: letter :: s) (b :: u)
  | hex {high low s u} (hhigh : isHexDigit high = true) (hlow : isHexDigit low = true)
      (h : Decodes s u) :
    Decodes (backslash :: letterX :: high :: low :: s) ((hexValue high * 16 + hexValue low) :: u)
  | itself {c s u} (hname : ∀ b, (c, b) ∉ named) (hhex : c = letterX → ¬ HexAhead s)
      (h : Decodes s u) : Decodes (backslash :: c :: s) (c :: u)
  | loneBackslash : Decodes [backslash] [backslash]

theorem pieces_plain {b : UInt8} (hb : b ≠ backslash) (s : Bytes) :
    pieces (b :: s) = .plain b :: pieces s := by
  rw [pieces.eq_def]
  simp [hb]

theorem pieces_hex {high low : UInt8} (hhigh : isHexDigit high = true)
    (hlow : isHexDigit low = true) (s : Bytes) :
    pieces (backslash :: letterX :: high :: low :: s) = .hex high low :: pieces s := by
  rw [pieces.eq_def]
  simp [hhigh, hlow]

theorem pieces_escaped {c : UInt8} {s : Bytes} (hhex : c = letterX → ¬ HexAhead s) :
    pieces (backslash :: c :: s) = .escaped c :: pieces s := by
  rw [pieces.eq_def]
  rcases s with _ | ⟨high, _ | ⟨low, s⟩⟩
  · simp
  · simp
  · have hno : ¬ (c == letterX && isHexDigit high && isHexDigit low) = true := by
      intro h
      simp only [Bool.and_eq_true, beq_iff_eq] at h
      exact hhex h.1.1 ⟨high, low, s, rfl, h.1.2, h.2⟩
    simp only [bne_self_eq_false, Bool.false_eq_true, if_false, if_neg hno]

theorem lookup_named {letter b : UInt8} (h : (letter, b) ∈ named) :
    List.lookup letter named = some b := by
  have hall : named.all (fun p => List.lookup p.1 named == some p.2) = true := by decide
  exact eq_of_beq (List.all_eq_true.1 hall (letter, b) h)

theorem mem_named_of_lookup {letter b : UInt8} (h : List.lookup letter named = some b) :
    (letter, b) ∈ named := by
  rcases List.lookup_eq_some_iff.1 h with ⟨l₁, l₂, heq, _⟩
  rw [heq]
  simp

theorem lookup_eq_none {c : UInt8} (h : ∀ b, (c, b) ∉ named) : List.lookup c named = none := by
  cases hlookup : List.lookup c named with
  | none => rfl
  | some b => exact absurd (mem_named_of_lookup hlookup) (h b)

theorem ne_letterX_of_mem_named {letter b : UInt8} (h : (letter, b) ∈ named) :
    letter ≠ letterX := by
  have hall : named.all (fun p => p.1 != letterX) = true := by decide
  exact bne_iff_ne.1 (List.all_eq_true.1 hall (letter, b) h)

theorem Decodes.escaped {c : UInt8} {s u : Bytes} (hhex : c = letterX → ¬ HexAhead s)
    (h : Decodes s u) : Decodes (backslash :: c :: s) ((Piece.escaped c).value :: u) := by
  cases hlookup : List.lookup c Escape.named with
  | none =>
    have hname (b : UInt8) : (c, b) ∉ Escape.named := by
      intro hmem
      rw [lookup_named hmem] at hlookup
      cases hlookup
    simpa [Piece.value, hlookup] using Decodes.itself hname hhex h
  | some b => simpa [Piece.value, hlookup] using Decodes.named (mem_named_of_lookup hlookup) h

theorem decodes_decode (body : Bytes) : Decodes body (decode body) := by
  unfold decode
  fun_induction pieces body with
  | case1 => exact .nil
  | case2 b s hb ih => exact .plain (by simpa using hb) ih
  | case3 b hb =>
    rw [show b = backslash by simpa using hb]
    exact .loneBackslash
  | case4 b hb c high low s hx ih =>
    simp only [Bool.and_eq_true, beq_iff_eq] at hx
    rw [show b = backslash by simpa using hb, hx.1.1]
    exact .hex hx.1.2 hx.2 ih
  | case5 b hb c high low s hx ih =>
    rw [show b = backslash by simpa using hb]
    apply Decodes.escaped _ ih
    intro hc hahead
    apply hx
    rcases hahead with ⟨high', low', rest, heq, hhigh, hlow⟩
    cases heq
    simp [hc, hhigh, hlow]
  | case6 b hb c s hshort ih =>
    rw [show b = backslash by simpa using hb]
    apply Decodes.escaped _ ih
    intro _ hahead
    rcases hahead with ⟨high, low, rest, heq, _, _⟩
    exact hshort high low rest heq

theorem decode_eq_of_decodes {body contents : Bytes} (h : Decodes body contents) :
    decode body = contents := by
  induction h with
  | nil => rfl
  | plain hb _ ih => simp [decode, pieces_plain hb, Piece.value, ← ih]
  | @named letter b s u hname _ ih =>
    have hpieces : pieces (backslash :: letter :: s) = .escaped letter :: pieces s :=
      pieces_escaped fun hc => absurd hc (ne_letterX_of_mem_named hname)
    simp [decode, hpieces, Piece.value, lookup_named hname, ← ih]
  | hex hhigh hlow _ ih => simp [decode, pieces_hex hhigh hlow, Piece.value, ← ih]
  | @itself c s u hname hhex _ ih =>
    simp [decode, pieces_escaped hhex, Piece.value, lookup_eq_none hname, ← ih]
  | loneBackslash => rfl

/-- Decoding computes the escape convention, which leaves no choice. -/
theorem decodes_iff {body contents : Bytes} : Decodes body contents ↔ decode body = contents :=
  ⟨decode_eq_of_decodes, fun h => h ▸ decodes_decode body⟩

/-- Pieces that are recognized whatever follows them, and that do not close a literal. -/
def Piece.standsAlone : Piece → Bool
  | plain b => b != backslash && b != quotation
  | escaped c => c != letterX
  | hex high low => isHexDigit high && isHexDigit low
  | loneBackslash => false

theorem standsAlone_ofByte (b : UInt8) : (Piece.ofByte b).standsAlone = true := by
  revert b
  apply Byte.forall_of_fin
  decide +kernel

theorem ne_of_isHexDigit {b : UInt8} (h : isHexDigit b = true) : b ≠ quotation ∧ b ≠ backslash := by
  constructor <;> (rintro rfl; revert h; decide)

theorem pieces_text_append {p : Piece} (hp : p.standsAlone = true) (s : Bytes) :
    pieces (p.text ++ s) = p :: pieces s := by
  cases p with
  | plain b =>
    simp only [Piece.standsAlone, Bool.and_eq_true, bne_iff_ne] at hp
    exact pieces_plain hp.1 s
  | escaped c =>
    simp only [Piece.standsAlone, bne_iff_ne] at hp
    exact pieces_escaped fun hc => absurd hc hp
  | hex high low =>
    simp only [Piece.standsAlone, Bool.and_eq_true] at hp
    exact pieces_hex hp.1 hp.2 s
  | loneBackslash => cases hp

theorem encode_cons (b : UInt8) (contents : Bytes) :
    encode (b :: contents) = (Piece.ofByte b).text ++ encode contents := rfl

theorem pieces_encode (contents : Bytes) :
    pieces (encode contents) = contents.map Piece.ofByte := by
  induction contents with
  | nil => rfl
  | cons b contents ih =>
    rw [encode_cons, pieces_text_append (standsAlone_ofByte b), ih, List.map_cons]

@[simp] theorem decode_encode (contents : Bytes) : decode (encode contents) = contents := by
  simp [decode, pieces_encode, value_ofByte, Function.comp_def]

end Escape

namespace Lexeme

open Escape (Piece)

theorem closeString?_plain {b : UInt8} (hq : b ≠ Byte.quotation) (hb : b ≠ Byte.backslash)
    (s : Bytes) : closeString? (b :: s) = (closeString? s).map fun p => (b :: p.1, p.2) := by
  rw [closeString?.eq_def]
  simp [hq, hb]

theorem closeString?_escaped (c : UInt8) (s : Bytes) :
    closeString? (Byte.backslash :: c :: s) =
      (closeString? s).map fun p => (Byte.backslash :: c :: p.1, p.2) := by
  rw [closeString?.eq_def]
  rfl

/-- Inside of a literal: a backslash takes the byte behind it along, and no quotation mark stands by
itself. -/
inductive Body : Bytes → Prop
  | nil : Body []
  | plain {b s} (hquotation : b ≠ Byte.quotation) (hbackslash : b ≠ Byte.backslash) (h : Body s) :
    Body (b :: s)
  | escaped (c : UInt8) {s} (h : Body s) : Body (Byte.backslash :: c :: s)

theorem closeString?_of_body {body : Bytes} (h : Body body) (rest : Bytes) :
    closeString? (body ++ Byte.quotation :: rest) = some (body ++ [Byte.quotation], rest) := by
  induction h with
  | nil =>
    rw [List.nil_append, closeString?.eq_def]
    simp
  | plain hquotation hbackslash _ ih =>
    rw [List.cons_append, closeString?_plain hquotation hbackslash, ih]
    rfl
  | escaped c _ ih =>
    rw [List.cons_append, List.cons_append, closeString?_escaped, ih]
    rfl

theorem exists_body_of_closeString? {s x rest : Bytes} (h : closeString? s = some (x, rest)) :
    ∃ body, Body body ∧ x = body ++ [Byte.quotation] := by
  fun_induction closeString? s generalizing x rest with
  | case1 => simp at h
  | case2 b s hb =>
    cases h
    exact ⟨[], .nil, by simpa using hb⟩
  | case3 b hb hs => simp at h
  | case4 b hb hs c s ih =>
    rcases Option.map_eq_some_iff.1 h with ⟨⟨x, rest⟩, hx, heq⟩
    cases heq
    rcases ih hx with ⟨body, hbody, rfl⟩
    rw [show b = Byte.backslash by simpa using hs]
    exact ⟨_, hbody.escaped c, rfl⟩
  | case5 b s hb hs ih =>
    rcases Option.map_eq_some_iff.1 h with ⟨⟨x, rest⟩, hx, heq⟩
    cases heq
    rcases ih hx with ⟨body, hbody, rfl⟩
    exact ⟨_, hbody.plain (by simpa using hb) (by simpa using hs), rfl⟩

theorem Body.text_append {p : Piece} (hp : p.standsAlone = true) {s : Bytes} (h : Body s) :
    Body (p.text ++ s) := by
  cases p with
  | plain b =>
    simp only [Piece.standsAlone, Bool.and_eq_true, bne_iff_ne] at hp
    exact h.plain hp.2 hp.1
  | escaped c => exact h.escaped c
  | hex high low =>
    simp only [Piece.standsAlone, Bool.and_eq_true] at hp
    have hhigh := Escape.ne_of_isHexDigit hp.1
    have hlow := Escape.ne_of_isHexDigit hp.2
    exact .escaped Byte.letterX (.plain hhigh.1 hhigh.2 (.plain hlow.1 hlow.2 h))
  | loneBackslash => cases hp

theorem body_encode (contents : Bytes) : Body (Escape.encode contents) := by
  induction contents with
  | nil => exact .nil
  | cons b contents ih =>
    rw [Escape.encode_cons]
    exact ih.text_append (Escape.standsAlone_ofByte b)

end Lexeme

end Sexpr
