import Sexpr.Proofs.Decomposition

/-! # Quotation marks in string literals

Scanning and decoding go over the body of a literal in steps of different length. Scanning takes a
backslash and the byte behind it, and decoding takes all four bytes of a hexadecimal escape. Yet
they agree on what is escaped. A text is the body of a literal exactly if decoding it meets no
backslash without a byte behind it, and meets quotation marks only directly behind a backslash that
escapes them.
-/

namespace Sexpr

namespace Escape

open Byte (backslash letterX quotation isHexDigit)

/-- How decoding passes over the quotation marks of a body: each is the byte that some backslash
escapes. No backslash is left without a byte to escape. -/
structure Guarded (body : Bytes) : Prop where
  complete : Piece.loneBackslash ∉ pieces body
  escaped : ∀ x y, body = x ++ quotation :: y → ∃ before after,
    pieces body = before ++ .escaped quotation :: after ∧
      x = before.flatMap Piece.text ++ [backslash] ∧ y = after.flatMap Piece.text

/-- Pieces that leave no quotation mark in the open. -/
def Piece.Guards : Piece → Prop
  | plain b => b ≠ quotation
  | escaped _ => True
  | hex high low => high ≠ quotation ∧ low ≠ quotation
  | loneBackslash => False

variable {p : Piece} {s x y : Bytes}

theorem Piece.Guards.eq_escaped (hp : p.Guards) (h : p.text = x ++ quotation :: y) :
    p = .escaped quotation ∧ x = [backslash] ∧ y = [] := by
  have hmem : quotation ∈ p.text := by simp [h]
  cases p with
  | plain b => exact absurd (List.mem_singleton.1 hmem).symm hp
  | escaped c =>
    cases x with
    | nil => cases (List.cons.inj h).1
    | cons b x =>
      obtain ⟨hb, htail⟩ := List.cons.inj h
      rcases List.append_eq_singleton_iff.1 htail.symm with ⟨hx, hc⟩ | ⟨_, hc⟩
      · obtain ⟨hmark, hy⟩ := List.cons.inj hc
        exact ⟨by rw [hmark], by rw [hx, hb], hy⟩
      · cases hc
  | hex high low =>
    have hdigits : quotation ≠ high ∧ quotation ≠ low := ⟨hp.1.symm, hp.2.symm⟩
    have hfront : quotation ≠ backslash ∧ quotation ≠ letterX := by decide
    simp [Piece.text, hdigits, hfront] at hmem
  | loneBackslash => exact hp.elim

theorem Guarded.eq_escaped (hpieces : pieces (p.text ++ s) = p :: pieces s)
    (h : Guarded (p.text ++ s)) (hmark : p.text = x ++ quotation :: y) :
    p = .escaped quotation := by
  obtain ⟨before, after, hsplit, hx, _⟩ := h.escaped x (y ++ s) (by simp [hmark])
  rw [hpieces] at hsplit
  cases before with
  | nil => exact (List.cons.inj hsplit).1
  | cons first before =>
    have hfirst : first = p := (List.cons.inj hsplit).1.symm
    rw [hfirst] at hx
    have hlength := congrArg List.length hmark
    simp only [hx, List.flatMap_cons, List.length_append, List.length_cons] at hlength
    omega

theorem Guarded.guards (hpieces : pieces (p.text ++ s) = p :: pieces s)
    (h : Guarded (p.text ++ s)) : p.Guards := by
  cases p with
  | plain b =>
    rintro rfl
    cases h.eq_escaped hpieces (x := []) rfl
  | escaped c => trivial
  | hex high low =>
    constructor
    · rintro rfl
      cases h.eq_escaped hpieces (x := [backslash, letterX]) rfl
    · rintro rfl
      cases h.eq_escaped hpieces (x := [backslash, letterX, high]) rfl
  | loneBackslash => exact h.complete (by simp [hpieces])

theorem Guarded.tail (hpieces : pieces (p.text ++ s) = p :: pieces s)
    (h : Guarded (p.text ++ s)) : Guarded s where
  complete hlone := h.complete (hpieces ▸ List.mem_cons_of_mem p hlone)
  escaped x y hs := by
    obtain ⟨before, after, hsplit, hx, hy⟩ := h.escaped (p.text ++ x) y (by simp [hs])
    rw [hpieces] at hsplit
    cases before with
    | nil =>
      have hp : p = .escaped quotation := (List.cons.inj hsplit).1
      have hlength := congrArg List.length hx
      simp [hp, Piece.text] at hlength
    | cons first before =>
      obtain ⟨rfl, htail⟩ := List.cons.inj hsplit
      rw [List.flatMap_cons, List.append_assoc] at hx
      exact ⟨before, after, htail, List.append_cancel_left hx, hy⟩

theorem Guarded.cons (hpieces : pieces (p.text ++ s) = p :: pieces s) (hp : p.Guards)
    (h : Guarded s) : Guarded (p.text ++ s) where
  complete := by
    rw [hpieces, List.mem_cons, not_or]
    refine ⟨?_, h.complete⟩
    rintro rfl
    exact hp
  escaped x y hbody := by
    rw [hpieces]
    rcases List.append_eq_append_iff.1 hbody with ⟨front, hx, hs⟩ | ⟨back, htext, hback⟩
    · obtain ⟨before, after, hsplit, hfront, hy⟩ := h.escaped front y hs
      exact ⟨p :: before, after, by rw [hsplit, List.cons_append], by simp [hx, hfront], hy⟩
    · cases back with
      | nil =>
        -- A mark right behind the first piece would have to be escaped within the rest.
        obtain ⟨before, _, _, hnil, _⟩ := h.escaped [] y hback.symm
        simp at hnil
      | cons mark back =>
        obtain ⟨hmark, hy⟩ := List.cons.inj hback
        rw [← hmark] at htext
        obtain ⟨hescaped, hx, hback⟩ := hp.eq_escaped htext
        exact ⟨[], pieces s, by simp [hescaped], by simp [hx], by simp [hy, hback]⟩

theorem guarded_cons_iff (hpieces : pieces (p.text ++ s) = p :: pieces s) :
    Guarded (p.text ++ s) ↔ p.Guards ∧ Guarded s :=
  ⟨fun h => ⟨h.guards hpieces, h.tail hpieces⟩, fun h => h.2.cons hpieces h.1⟩

theorem guarded_escaped_iff {c : UInt8} (hhex : c = letterX → ¬ HexAhead s) :
    Guarded (backslash :: c :: s) ↔ Guarded s :=
  (guarded_cons_iff (p := .escaped c) (pieces_escaped hhex)).trans (and_iff_right trivial)

theorem guarded_nil : Guarded [] :=
  ⟨by simp [pieces], fun x y h => by simp at h⟩

end Escape

namespace Lexeme

open Escape (Piece Guarded pieces)
open Byte (backslash letterX quotation)

variable {s body : Bytes}

theorem body_plain_iff {b : UInt8} (hb : b ≠ backslash) :
    Body (b :: s) ↔ b ≠ quotation ∧ Body s := by
  constructor
  · intro h
    cases h with
    | plain hquotation _ h => exact ⟨hquotation, h⟩
    | escaped c h => exact absurd rfl hb
  · rintro ⟨hquotation, h⟩
    exact h.plain hquotation hb

theorem body_escaped_iff {c : UInt8} : Body (backslash :: c :: s) ↔ Body s := by
  constructor
  · intro h
    cases h with
    | plain _ hb _ => exact absurd rfl hb
    | escaped _ h => exact h
  · intro h
    exact h.escaped c

theorem not_body_loneBackslash : ¬ Body [backslash] := by
  intro h
  cases h with
  | plain _ hb _ => exact hb rfl

/-- Scanning and decoding agree. The induction follows the decoder, whose hexadecimal escapes are
an escaped letter and two plain bytes to the scanner. -/
theorem body_iff_guarded : Body body ↔ Guarded body := by
  obtain ⟨contents, hdecodes⟩ : ∃ contents, Escape.Decodes body contents :=
    ⟨_, Escape.decodes_decode body⟩
  induction hdecodes with
  | nil => exact iff_of_true .nil Escape.guarded_nil
  | plain hb _ ih =>
    rw [body_plain_iff hb, ih]
    exact (Escape.guarded_cons_iff (p := .plain _) (Escape.pieces_plain hb _)).symm
  | named hname _ ih =>
    have hletter := Escape.ne_letterX_of_mem_named hname
    rw [body_escaped_iff, ih, Escape.guarded_escaped_iff fun h => absurd h hletter]
  | itself hname hhex _ ih => rw [body_escaped_iff, ih, Escape.guarded_escaped_iff hhex]
  | hex hhigh hlow _ ih =>
    rw [body_escaped_iff, body_plain_iff (Escape.ne_of_isHexDigit hhigh).2,
      body_plain_iff (Escape.ne_of_isHexDigit hlow).2, ih, ← and_assoc]
    exact (Escape.guarded_cons_iff (p := .hex _ _) (Escape.pieces_hex hhigh hlow _)).symm
  | loneBackslash =>
    exact iff_of_false not_body_loneBackslash fun h => h.complete (by decide)

end Lexeme

open Byte (quotation)

/-- Scanning and decoding agree on what is escaped in a string literal. When the body of a string
token is decoded, no backslash is the last byte, and every quotation mark is the byte behind a
backslash that escapes it. It is never a plain byte or a part of a hexadecimal escape. Conversely,
every text that is decoded in this way is the body of a string token if it stands between quotation
marks, whatever follows them. -/
theorem marks_are_escaped :
    (∀ input, ∀ t ∈ Token.all input, t.kind = .string →
      ∃ body, t.text = quotation :: body ++ [quotation] ∧
        t.role = .ok (.atom (.string (Escape.decode body))) ∧ Escape.Guarded body) ∧
    ∀ body, Escape.Guarded body → ∀ rest, ∃ later,
      Token.all (quotation :: body ++ quotation :: rest) =
        ⟨.string, quotation :: body ++ [quotation], 0⟩ :: later := by
  constructor
  · intro input t ht hk
    obtain ⟨b, s, rest, hb, hscan⟩ := Token.scanned_of_mem_all ht
    rw [hk] at hscan
    generalize htext : t.text = text at hscan
    cases IsLexeme.of_scan hb hscan with
    | string hbody =>
      exact ⟨_, rfl, Token.role_string hk htext, Lexeme.body_iff_guarded.1 hbody⟩
  · intro body hguarded rest
    have hbody := Lexeme.body_iff_guarded.2 hguarded
    have hlexeme : IsLexeme .string (quotation :: body ++ [quotation]) rest := .string hbody
    have hscan := hlexeme.scan_eq
    have hlexes : Lexes (quotation :: (body ++ [quotation]) ++ rest) 0 (⟨.string, _, 0⟩ :: _) :=
      .token rfl hscan (Lexes.tokens_skipBlanks rest _)
    rw [List.cons_append, List.append_assoc] at hlexes
    exact ⟨_, Lexes.iff_eq_all.1 hlexes⟩

/-- A letter x with a single digit behind it, where the next byte is the backslash that escapes a
quotation mark. What follows is a literal that is left open. -/
theorem marks_are_escaped_cut_digits :
    Escape.Guarded [92, 120, 52, 92, 34] ∧
    (∃ later, Token.all [34, 92, 120, 52, 92, 34, 34, 34, 92] =
      ⟨.string, [34, 92, 120, 52, 92, 34, 34], 0⟩ :: later) ∧
    ∃ t ∈ Token.all [34, 92, 120, 52, 92, 34, 34, 34, 92],
      t.role = .ok (.atom (.string [120, 52, 34])) := by
  have hbody : Lexeme.Body [92, 120, 52, 92, 34] :=
    .escaped 120 (.plain (by decide) (by decide) (.escaped 34 .nil))
  have hguarded := Lexeme.body_iff_guarded.1 hbody
  obtain ⟨later, hall⟩ := marks_are_escaped.2 _ hguarded [34, 92]
  refine ⟨hguarded, ⟨later, hall⟩, ?_⟩
  have hmem : ⟨.string, [34, 92, 120, 52, 92, 34, 34], 0⟩ ∈
      Token.all [34, 92, 120, 52, 92, 34, 34, 34, 92] := hall ▸ List.mem_cons_self
  obtain ⟨body, htext, hrole, _⟩ := marks_are_escaped.1 _ _ hmem rfl
  have hbodies : [92, 120, 52, 92, 34] = body :=
    List.append_cancel_right (List.cons.inj htext).2
  rw [← hbodies] at hrole
  exact ⟨_, hmem, hrole⟩

end Sexpr
