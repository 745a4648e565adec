import Sexpr.Proofs.Role

/-! # Texts as tokens and blanks

A text is blanks and lexemes in turn, in exactly one way. What a lexeme is follows from its first
byte: it is a single byte, or it takes along all bytes behind it that extend it, or it runs to its
closing mark. Walking a text with a cursor yields these lexemes one by one, each with the place
where it stands, and at the end of the text its end over and over.
-/

namespace Sexpr

open Lexeme (Body scan)

def IsBlank (w : Bytes) : Prop := ∀ b ∈ w, Byte.isBlank b = true

instance (w : Bytes) : Decidable (IsBlank w) := List.decidableBAll _ w

/-- A lexeme of some kind in front of the rest of a text. -/
inductive IsLexeme : Token.Kind → Bytes → Bytes → Prop
  | leftParen {rest} : IsLexeme .leftParen [Byte.leftParen] rest
  | rightParen {rest} : IsLexeme .rightParen [Byte.rightParen] rest
  | quote {rest} : IsLexeme .quote [Byte.apostrophe] rest
  | integer {b digits rest} (hb : b = Byte.minus ∨ Byte.isDigit b = true)
      (hdigits : ∀ c ∈ digits, Byte.isDigit c = true)
      (hrest : ∀ c, rest.head? = some c → Byte.isDigit c = false) :
    IsLexeme .integer (b :: digits) rest
  | string {body rest} (hbody : Body body) :
    IsLexeme .string (Byte.quotation :: body ++ [Byte.quotation]) rest
  | unclosed {s} (hs : ∀ body rest, Body body → s ≠ body ++ Byte.quotation :: rest) :
    IsLexeme .invalid (Byte.quotation :: s) []
  | symbol {text rest} (htext : SymbolText text)
      (hrest : ∀ c, rest.head? = some c → Byte.isSymbolic c = false) :
    IsLexeme .symbol text rest
  | invalid {b rest} (hb : Byte.delete ≤ b) : IsLexeme .invalid [b] rest

namespace IsLexeme

variable {k : Token.Kind} {text rest s : Bytes} {b : UInt8}

theorem exists_cons (h : IsLexeme k text rest) : ∃ b s, text = b :: s ∧ Byte.isBlank b = false := by
  cases h with
  | leftParen | rightParen | quote | unclosed | string => exact ⟨_, _, rfl, rfl⟩
  | integer hb =>
    have hdigit : ∀ b : UInt8, b = Byte.minus ∨ Byte.isDigit b = true → Byte.isBlank b = false := by
      apply Byte.forall_of_fin
      decide +kernel
    exact ⟨_, _, rfl, hdigit _ hb⟩
  | symbol htext =>
    cases text with
    | nil => exact absurd rfl htext.nonempty
    | cons b s =>
      exact ⟨b, s, rfl, Byte.not_isBlank_of_isSymbolic (htext.symbolic b List.mem_cons_self)⟩
  | invalid hb =>
    have hdelete : ∀ b : UInt8, Byte.delete ≤ b → Byte.isBlank b = false := by
      apply Byte.forall_of_fin
      decide +kernel
    exact ⟨_, _, rfl, hdelete _ hb⟩

theorem append_ne_nil (h : IsLexeme k text rest) : text ++ rest ≠ [] := by
  rcases h.exists_cons with ⟨b, s, rfl, _⟩
  exact List.cons_ne_nil b _

theorem kind_ne_endOfInput (h : IsLexeme k text rest) : k ≠ .endOfInput := by
  cases h <;> simp

theorem scan_eq (h : IsLexeme k text rest) : scan (text ++ rest) = ⟨k, text, rest⟩ := by
  cases h with
  | leftParen | rightParen | quote => rfl
  | @integer b digits _ hb hdigits hrest =>
    have hscan : scan (b :: digits) = ⟨.integer, b :: digits, []⟩ := by
      rcases hb with rfl | hb
      · exact Lexeme.run_eq hdigits Byte.minus
      · have hall : ∀ c ∈ b :: digits, Byte.isDigit c = true :=
          List.forall_mem_cons.2 ⟨hb, hdigits⟩
        exact Lexeme.scan_numeral (.plain (List.cons_ne_nil b digits) hall)
    exact Lexeme.scan_append_of_ends hscan (Lexeme.closed_of_ne_invalid (by decide) _) hrest
  | @string body _ hbody =>
    have hclose := Lexeme.closeString?_of_body hbody rest
    rw [List.cons_append, List.cons_append, List.append_assoc]
    change scan (Byte.quotation :: (body ++ Byte.quotation :: rest)) = _
    rw [scan, hclose]
    rfl
  | @unclosed s hs =>
    rw [List.append_nil, scan]
    cases hclose : Lexeme.closeString? s with
    | none => rfl
    | some p =>
      rcases p with ⟨x, rest⟩
      rcases Lexeme.exists_body_of_closeString? hclose with ⟨body, hbody, rfl⟩
      have happend := Lexeme.append_eq_of_closeString? hclose
      rw [List.append_assoc] at happend
      exact absurd happend.symm (hs body rest hbody)
  | symbol htext hrest =>
    cases text with
    | nil => exact absurd rfl htext.nonempty
    | cons b s =>
      exact Lexeme.scan_append_of_ends (Lexeme.scan_symbolText htext)
        (Lexeme.closed_of_ne_invalid (by decide) _) hrest
  | invalid hb => simp [scan, Lexeme.single, hb]

theorem of_scan (hb : Byte.isBlank b = false) (h : scan (b :: s) = ⟨k, text, rest⟩) :
    IsLexeme k text rest := by
  have hends := Lexeme.ends_scan (b :: s)
  rw [h] at hends
  have hscan := h
  simp only [scan] at h
  split_ifs at h with h₁ h₂ h₃ h₄ h₅ h₆
  · cases h
    exact .invalid (by simpa [hb] using h₁)
  · cases h
    rw [eq_of_beq h₂]
    exact .leftParen
  · cases h
    rw [eq_of_beq h₃]
    exact .rightParen
  · cases h
    rw [eq_of_beq h₄]
    exact .quote
  · cases h
    exact .integer (by simpa using h₅) (List.all_eq_true.1 List.all_takeWhile) hends
  · rw [eq_of_beq h₆] at h
    split at h
    · rename_i body rest' hclose
      rcases Lexeme.exists_body_of_closeString? hclose with ⟨inside, hinside, rfl⟩
      cases h
      exact .string hinside
    · rename_i hclose
      cases h
      apply unclosed
      rintro body rest hbody rfl
      rw [Lexeme.closeString?_of_body hbody] at hclose
      cases hclose
  · cases h
    exact .symbol (Lexeme.symbolText_of_scan hscan) hends

end IsLexeme

/-- A text from its parts: blanks, and then tokens, each with the blanks behind it. -/
def weave (w : Bytes) (ps : List (Token × Bytes)) : Bytes :=
  w ++ ps.flatMap fun p => p.1.text ++ p.2

/-- Blanks and tokens as they follow one another behind an offset. -/
inductive Segmented : Nat → Bytes → List (Token × Bytes) → Prop
  | nil {offset w} (hw : IsBlank w) : Segmented offset w []
  | cons {offset w t w' ps} (hw : IsBlank w) (hoffset : t.offset = offset + w.length)
      (ht : IsLexeme t.kind t.text (weave w' ps)) (h : Segmented (t.offset + t.text.length) w' ps) :
    Segmented offset w ((t, w') :: ps)

/-- A text is made of blanks and of tokens that stand where they say. -/
structure Decomposes (input w : Bytes) (ps : List (Token × Bytes)) : Prop where
  text : weave w ps = input
  parts : Segmented 0 w ps

theorem isBlank_nil : IsBlank [] := by
  simp [IsBlank]

theorem isBlank_cons {b : UInt8} {w : Bytes} :
    IsBlank (b :: w) ↔ Byte.isBlank b = true ∧ IsBlank w := List.forall_mem_cons

theorem weave_cons (w : Bytes) (t : Token) (w' : Bytes) (ps : List (Token × Bytes)) :
    weave w ((t, w') :: ps) = w ++ (t.text ++ weave w' ps) := by
  simp [weave]

theorem weave_eq (w : Bytes) (ps : List (Token × Bytes)) : weave w ps = w ++ weave [] ps := by
  simp [weave]

theorem weave_cons_blank (b : UInt8) (w : Bytes) (ps : List (Token × Bytes)) :
    weave (b :: w) ps = b :: weave w ps := rfl

namespace Segmented

variable {offset : Nat} {w w' s : Bytes} {ps ps' : List (Token × Bytes)} {t : Token}
  {ts : List Token}

theorem isBlank (h : Segmented offset w ps) : IsBlank w := by
  cases h with
  | nil hw => exact hw
  | cons hw => exact hw

theorem blank {b : UInt8} (hb : Byte.isBlank b = true) (h : Segmented (offset + 1) w ps) :
    Segmented offset (b :: w) ps := by
  cases h with
  | nil hw => exact .nil (isBlank_cons.2 ⟨hb, hw⟩)
  | cons hw hoffset ht h =>
    refine .cons (isBlank_cons.2 ⟨hb, hw⟩) ?_ ht h
    rw [hoffset, List.length_cons]
    omega

theorem of_lexes (h : Lexes s offset ts) :
    ∃ w ps, weave w ps = s ∧ Segmented offset w ps ∧ ps.map Prod.fst = ts := by
  induction h with
  | done => exact ⟨[], [], rfl, .nil isBlank_nil, rfl⟩
  | @blank b s offset ts hb _ ih =>
    rcases ih with ⟨w, ps, rfl, h, rfl⟩
    exact ⟨b :: w, ps, weave_cons_blank b w ps, h.blank hb, rfl⟩
  | @token b s offset k text rest ts hb hs _ ih =>
    rcases ih with ⟨w, ps, rfl, h, rfl⟩
    refine ⟨[], (⟨k, text, offset⟩, w) :: ps, ?_, ?_, rfl⟩
    · rw [weave_cons, List.nil_append]
      exact Lexeme.append_of_scan hs
    · exact .cons isBlank_nil rfl (.of_scan hb hs) h

theorem blanks_eq (h : Segmented offset w ps) :
    (weave w ps).takeWhile Byte.isBlank = w ∧
      (weave w ps).dropWhile Byte.isBlank = weave [] ps := by
  rw [weave_eq]
  apply Lexeme.takeWhile_append h.isBlank
  intro b hb
  cases h with
  | nil => cases hb
  | cons _ _ ht _ =>
    rcases ht.exists_cons with ⟨c, s, htext, hc⟩
    rw [weave_cons, htext] at hb
    cases hb
    exact hc

theorem unique (h : Segmented offset w ps) (h' : Segmented offset w' ps')
    (htext : weave w ps = weave w' ps') : w = w' ∧ ps = ps' := by
  induction h generalizing w' ps' with
  | nil hw =>
    have hnil : Segmented offset _ [] := .nil hw
    have hblanks := hnil.blanks_eq
    have hblanks' := h'.blanks_eq
    rw [← htext, hblanks.1, hblanks.2] at hblanks'
    refine ⟨hblanks'.1, ?_⟩
    cases h' with
    | nil => rfl
    | cons _ _ ht _ =>
      rw [weave_cons] at hblanks'
      exact absurd hblanks'.2.symm ht.append_ne_nil
  | @cons offset w t v ps hw hoffset ht h ih =>
    have hblanks := (cons hw hoffset ht h).blanks_eq
    have hblanks' := h'.blanks_eq
    rw [← htext, hblanks.1, hblanks.2, weave_cons] at hblanks'
    rcases hblanks' with ⟨rfl, hrest⟩
    refine ⟨rfl, ?_⟩
    cases h' with
    | nil => exact absurd hrest ht.append_ne_nil
    | @cons _ _ t' v' ps' _ hoffset' ht' h' =>
      rw [weave_cons, List.nil_append, List.nil_append] at hrest
      have hscan := ht.scan_eq
      rw [hrest, ht'.scan_eq] at hscan
      rcases t with ⟨k, text, o⟩
      rcases t' with ⟨k', text', o'⟩
      cases hoffset
      cases hoffset'
      injection hscan with hk htext htail
      cases hk
      cases htext
      rcases ih h' htail.symm with ⟨rfl, rfl⟩
      rfl

theorem skipBlanks_eq (h : Segmented offset w ps) :
    Cursor.skipBlanks ⟨weave w ps, offset⟩ = ⟨weave [] ps, offset + w.length⟩ := by
  rw [Cursor.skipBlanks, h.blanks_eq.1, h.blanks_eq.2]

theorem advance_eq (h : Segmented offset w ((t, w') :: ps)) :
    (Cursor.skipBlanks ⟨weave w ((t, w') :: ps), offset⟩).token = t ∧
      (Cursor.skipBlanks ⟨weave w ((t, w') :: ps), offset⟩).advance =
        Cursor.skipBlanks ⟨weave w' ps, t.offset + t.text.length⟩ := by
  rw [h.skipBlanks_eq, weave_cons, List.nil_append]
  cases h with
  | cons hw hoffset ht h =>
    rw [Cursor.token, Cursor.advance, ht.scan_eq, ← hoffset]
    exact ⟨rfl, rfl⟩

/-- A cursor meets the tokens one after another, and then stays at the end. -/
theorem iterate_advance (h : Segmented offset w ps) (n : Nat) :
    let c := Cursor.advance^[n] (Cursor.skipBlanks ⟨weave w ps, offset⟩)
    c.rest = weave [] (ps.drop n) ∧
      c.token = (ps.map Prod.fst)[n]?.getD ⟨.endOfInput, [], offset + (weave w ps).length⟩ ∧
      ∃ before, weave w ps = before ++ c.rest ∧ c.offset = offset + before.length := by
  induction n generalizing offset w ps with
  | zero =>
    intro c
    have hc : c = ⟨weave [] ps, offset + w.length⟩ := h.skipBlanks_eq
    refine ⟨congrArg Cursor.rest hc, ?_, w, ?_, congrArg Cursor.offset hc⟩
    · cases h with
      | nil hw =>
        rw [hc, weave_eq w]
        simp [weave, Cursor.token, scan]
      | cons hw hoffset ht h => exact (advance_eq (.cons hw hoffset ht h)).1
    · rw [hc]
      exact weave_eq w ps
  | succ n ih =>
    cases h with
    | nil hw =>
      have hend : Cursor.advance ⟨[], offset + w.length⟩ = ⟨[], offset + w.length⟩ := rfl
      intro c
      have hc : c = ⟨[], offset + w.length⟩ := by
        change Cursor.advance^[n + 1] _ = _
        rw [(nil hw).skipBlanks_eq]
        exact Function.iterate_fixed hend (n + 1)
      rw [hc]
      refine ⟨rfl, ?_, w, weave_eq w [], rfl⟩
      rw [weave_eq w]
      simp [weave, Cursor.token, scan]
    | @cons _ _ t v ps hw hoffset ht h =>
      intro c
      have hc : c =
          Cursor.advance^[n] (Cursor.skipBlanks ⟨weave v ps, t.offset + t.text.length⟩) := by
        change Cursor.advance^[n + 1] _ = _
        rw [Function.iterate_succ_apply, (advance_eq (.cons hw hoffset ht h)).2]
      rcases ih h with ⟨hrest, htoken, before, hbefore, hbehind⟩
      rw [← hc] at hrest htoken hbefore hbehind
      refine ⟨hrest, ?_, w ++ (t.text ++ before), ?_, ?_⟩
      · rw [htoken, weave_cons, hoffset]
        simp [Nat.add_assoc]
      · rw [weave_cons, hbefore]
        simp
      · rw [hbehind, hoffset]
        simp [Nat.add_assoc]

theorem exists_cons (h : Segmented offset w ps) {p : Token × Bytes} (hp : p ∈ ps) :
    p.1.kind ≠ .endOfInput ∧ ∃ b s, p.1.text = b :: s ∧ Byte.space < b := by
  induction h with
  | nil => cases hp
  | cons _ _ ht _ ih =>
    rcases List.mem_cons.1 hp with rfl | hp
    · rcases ht.exists_cons with ⟨b, s, htext, hb⟩
      exact ⟨ht.kind_ne_endOfInput, b, s, htext, by simpa [Byte.isBlank] using hb⟩
    · exact ih hp

theorem length_le (h : Segmented offset w ps) : ps.length ≤ (weave w ps).length := by
  induction h with
  | nil => exact Nat.zero_le _
  | cons _ _ ht _ ih =>
    rcases ht.exists_cons with ⟨b, s, htext, _⟩
    rw [weave_cons, htext]
    simp only [List.length_cons, List.length_append]
    omega

end Segmented

namespace Decomposes

variable {input w w' : Bytes} {ps ps' : List (Token × Bytes)}

theorem unique (h : Decomposes input w ps) (h' : Decomposes input w' ps') : w = w' ∧ ps = ps' :=
  h.parts.unique h'.parts (h.text.trans h'.text.symm)

theorem exists_of_all (input : Bytes) :
    ∃ w ps, Decomposes input w ps ∧ Token.all input = ps.map Prod.fst := by
  rcases Segmented.of_lexes (Lexes.iff_eq_all.2 rfl) with ⟨w, ps, htext, h, hps⟩
  exact ⟨w, ps, ⟨htext, h⟩, hps.symm⟩

theorem all_eq (h : Decomposes input w ps) : Token.all input = ps.map Prod.fst := by
  rcases exists_of_all input with ⟨w', ps', h', hall⟩
  rw [hall, (h.unique h').2]

end Decomposes

/-- A text is made of blanks and tokens in one way only, and this is what a cursor finds. It meets
the tokens in order, each where it stands, and at the end of the text nothing but the end. -/
theorem tokens_unique_decomposition (input : Bytes) :
    ∃ w ps, (∀ w' ps', Decomposes input w' ps' ↔ w' = w ∧ ps' = ps) ∧
      Token.all input = ps.map Prod.fst ∧ ps.length ≤ input.length ∧
      (∀ p ∈ ps, p.1.kind ≠ .endOfInput ∧ ∃ b s, p.1.text = b :: s ∧ Byte.space < b) ∧
      ∀ n, let c := Cursor.advance^[n] (Cursor.start input)
        c.token = (ps.map Prod.fst)[n]?.getD (Token.eof input) ∧
          c.offset = c.token.offset ∧ c.rest = input.drop c.offset ∧
          c.rest = weave [] (ps.drop n) := by
  rcases Decomposes.exists_of_all input with ⟨w, ps, h, hall⟩
  refine ⟨w, ps, fun w' ps' => ⟨fun h' => h'.unique h, ?_⟩, hall, ?_,
    fun p hp => h.parts.exists_cons hp, ?_⟩
  · rintro ⟨rfl, rfl⟩
    exact h
  · have hlength := h.parts.length_le
    rwa [h.text] at hlength
  · intro n c
    have hwalk := h.parts.iterate_advance n
    rw [h.text] at hwalk
    rcases hwalk with ⟨hrest, htoken, before, hbefore, hoffset⟩
    rw [Nat.zero_add] at htoken hoffset
    have hdrop := congrArg (List.drop before.length) hbefore
    rw [List.drop_left, ← hoffset] at hdrop
    exact ⟨htoken, rfl, hdrop.symm, hrest⟩

end Sexpr
