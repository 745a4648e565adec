import Mathlib.Logic.Function.Iterate
import Sexpr.Proofs.Lexing

/-! # Texts read by index

A text can be read through indices into it, where an index or a range that reaches beyond the text
is an error. Tokens are found and escapes are decoded in this way without any error, with the same
outcome, and the indices at which tokens begin stay in the text.
-/

namespace Sexpr

/-- A range that does not lie in a text. -/
structure OutOfRange where
  start : Nat
  stop : Nat
  length : Nat
deriving DecidableEq

namespace Indexed

def byteAt (s : Bytes) (i : Nat) : Except OutOfRange UInt8 :=
  match s[i]? with
  | some b => .ok b
  | none => .error ⟨i, i + 1, s.length⟩

def slice (s : Bytes) (start stop : Nat) : Except OutOfRange Bytes :=
  if start ≤ stop ∧ stop ≤ s.length then .ok ((s.drop start).take (stop - start))
  else .error ⟨start, stop, s.length⟩

def hexByte : Option Bytes → Except OutOfRange (Option UInt8)
  | none => .ok none
  | some s => do
    let high ← byteAt s 0
    if Byte.isHexDigit high then
      let low ← byteAt s 1
      if Byte.isHexDigit low then return some (Byte.hexValue high * 16 + Byte.hexValue low)
      else return none
    else return none

/-- Decode the escapes from an index on, behind what is decoded already. -/
def decodeFrom (s : Bytes) (i : Nat) (decoded : Bytes) : Except OutOfRange Bytes :=
  if _h : i < s.length then do
    let b ← byteAt s i
    if b != Byte.backslash || i + 1 == s.length then decodeFrom s (i + 1) (decoded ++ [b])
    else
      let c ← byteAt s (i + 1)
      if c == Byte.letterX then
        match ← hexByte (slice s (i + 2) (i + 4)).toOption with
        | some v => decodeFrom s (i + 4) (decoded ++ [v])
        | none => decodeFrom s (i + 2) (decoded ++ [c])
      else decodeFrom s (i + 2) (decoded ++ [(Escape.named.lookup c).getD c])
  else return decoded
termination_by s.length - i

def skipWhile (s : Bytes) (p : UInt8 → Bool) (i : Nat) : Except OutOfRange Nat :=
  if _h : i < s.length then do
    let b ← byteAt s i
    if p b then skipWhile s p (i + 1) else return i
  else return i
termination_by s.length - i

/-- Index behind a string, and whether the string is closed. -/
def scanString (s : Bytes) (i : Nat) : Except OutOfRange (Nat × Bool) :=
  if _h : i < s.length then do
    let b ← byteAt s i
    if b == Byte.backslash then scanString s (i + 2)
    else if b == Byte.quotation then return (i + 1, true)
    else scanString s (i + 1)
  else return (s.length, false)
termination_by s.length - i

/-- Kind of the token at an index, and the index behind it. -/
def extent (s : Bytes) (start : Nat) : Except OutOfRange (Token.Kind × Nat) :=
  match s[start]? with
  | none => return (.endOfInput, start)
  | some b =>
    if Byte.isBlank b || Byte.delete ≤ b then return (.invalid, start + 1)
    else if b == Byte.leftParen then return (.leftParen, start + 1)
    else if b == Byte.rightParen then return (.rightParen, start + 1)
    else if b == Byte.apostrophe then return (.quote, start + 1)
    else if b == Byte.minus || Byte.isDigit b then do
      let stop ← skipWhile s Byte.isDigit (start + 1)
      return (.integer, stop)
    else if b == Byte.quotation then do
      let (stop, closed) ← scanString s (start + 1)
      return (if closed then .string else .invalid, stop)
    else do
      let stop ← skipWhile s Byte.isSymbolic (start + 1)
      return (.symbol, stop)

def nextToken (s : Bytes) (start : Nat) : Except OutOfRange (Token × Nat) := do
  let (kind, stop) ← extent s start
  let next ← skipWhile s Byte.isBlank stop
  let text ← slice s start stop
  return (⟨kind, text, start⟩, next)

def remaining (s : Bytes) (start : Nat) : Except OutOfRange Bytes := slice s start s.length

section Access

variable {s x rest : Bytes} {b : UInt8} {i : Nat}

theorem lt_length_of_drop (h : s.drop i = b :: rest) : i < s.length := by
  apply Nat.lt_of_not_le
  intro hle
  rw [List.drop_eq_nil_of_le hle] at h
  cases h

theorem drop_succ (h : s.drop i = b :: rest) : s.drop (i + 1) = rest := by
  rw [← List.tail_drop, h, List.tail_cons]

theorem getElem?_of_drop (h : s.drop i = b :: rest) : s[i]? = some b := by
  rw [← Nat.add_zero i, ← List.getElem?_drop, h]
  rfl

theorem byteAt_eq (h : s.drop i = b :: rest) : byteAt s i = .ok b := by
  rw [byteAt, getElem?_of_drop h]

theorem slice_eq (hi : i ≤ s.length) (h : s.drop i = x ++ rest) :
    slice s i (i + x.length) = .ok x := by
  have hlength := congrArg List.length h
  rw [List.length_drop, List.length_append] at hlength
  rw [slice, if_pos (by omega), h, Nat.add_sub_cancel_left, List.take_left]

theorem bind_byteAt {α : Type} (h : s.drop i = b :: rest) (f : UInt8 → Except OutOfRange α) :
    (byteAt s i >>= f) = f b := by
  rw [byteAt_eq h]
  rfl

theorem skipWhile_eq (s : Bytes) (p : UInt8 → Bool) (i : Nat) :
    skipWhile s p i = .ok (i + ((s.drop i).takeWhile p).length) := by
  generalize hrest : s.drop i = rest
  induction rest generalizing i with
  | nil =>
    rw [skipWhile, dif_neg (Nat.not_lt.2 (List.drop_eq_nil_iff.1 hrest))]
    rfl
  | cons b rest ih =>
    rw [skipWhile, dif_pos (lt_length_of_drop hrest), bind_byteAt hrest]
    by_cases hb : p b = true
    · rw [if_pos hb, ih (i + 1) (drop_succ hrest), List.takeWhile_cons_of_pos hb, List.length_cons,
        Nat.add_right_comm, Nat.add_assoc]
    · rw [if_neg hb, List.takeWhile_cons_of_neg hb]
      rfl

theorem scanString_eq (s : Bytes) (i : Nat) : scanString s i =
    .ok (match Lexeme.closeString? (s.drop i) with
      | some (body, _) => (i + body.length, true)
      | none => (s.length, false)) := by
  generalize hrest : s.drop i = rest
  induction rest using Lexeme.closeString?.induct generalizing i with
  | case1 =>
    rw [scanString, dif_neg (Nat.not_lt.2 (List.drop_eq_nil_iff.1 hrest))]
    rfl
  | case2 b rest hb =>
    rw [scanString, dif_pos (lt_length_of_drop hrest), bind_byteAt hrest, eq_of_beq hb,
      Lexeme.closeString?.eq_def]
    rfl
  | case3 b hb hs =>
    have hend : s.length ≤ i + 2 := by
      have hlength := congrArg List.length hrest
      rw [List.length_drop, List.length_singleton] at hlength
      omega
    rw [scanString, dif_pos (lt_length_of_drop hrest), bind_byteAt hrest, if_pos hs, scanString,
      dif_neg (Nat.not_lt.2 hend), Lexeme.closeString?.eq_def]
    simp [hb, hs]
    rfl
  | case4 b hb hs c rest ih =>
    rw [scanString, dif_pos (lt_length_of_drop hrest), bind_byteAt hrest, if_pos hs,
      ih (i + 2) (drop_succ (drop_succ hrest)), eq_of_beq hs, Lexeme.closeString?_escaped]
    cases Lexeme.closeString? rest with
    | none => rfl
    | some p =>
      simp
      omega
  | case5 b rest hb hs ih =>
    have hquotation : b ≠ Byte.quotation := by simpa using hb
    have hbackslash : b ≠ Byte.backslash := by simpa using hs
    rw [scanString, dif_pos (lt_length_of_drop hrest), bind_byteAt hrest, if_neg hs, if_neg hb,
      ih (i + 1) (drop_succ hrest), Lexeme.closeString?_plain hquotation hbackslash]
    cases Lexeme.closeString? rest with
    | none => rfl
    | some p =>
      simp
      omega

theorem slice_two {c : UInt8} (h : s.drop i = b :: c :: rest) : slice s i (i + 2) = .ok [b, c] := by
  have hlt := lt_length_of_drop h
  exact slice_eq (x := [b, c]) (Nat.le_of_lt hlt) h

theorem hexByte_of_digits {high low : UInt8} (h : s.drop i = high :: low :: rest)
    (hhigh : Byte.isHexDigit high = true) (hlow : Byte.isHexDigit low = true) :
    hexByte (slice s i (i + 2)).toOption =
      .ok (some (Byte.hexValue high * 16 + Byte.hexValue low)) := by
  rw [slice_two h, Except.toOption, hexByte, bind_byteAt rfl, if_pos hhigh, bind_byteAt rfl,
    if_pos hlow]
  rfl

theorem hexByte_of_not_hexAhead (h : ¬ Escape.HexAhead (s.drop i)) :
    hexByte (slice s i (i + 2)).toOption = .ok none := by
  by_cases hlength : i + 2 ≤ s.length
  · obtain ⟨high, low, rest, hrest⟩ : ∃ high low rest, s.drop i = high :: low :: rest := by
      rw [List.drop_eq_getElem_cons (by omega), List.drop_eq_getElem_cons (by omega)]
      exact ⟨_, _, _, rfl⟩
    rw [slice_two hrest, Except.toOption, hexByte, bind_byteAt rfl]
    by_cases hhigh : Byte.isHexDigit high = true
    · by_cases hlow : Byte.isHexDigit low = true
      · exact absurd ⟨high, low, rest, hrest, hhigh, hlow⟩ h
      · rw [if_pos hhigh, bind_byteAt rfl, if_neg hlow]
        rfl
    · rw [if_neg hhigh]
      rfl
  · rw [slice, if_neg (fun h => hlength h.2)]
    rfl

theorem decodeFrom_backslash {c : UInt8} (h : s.drop i = Byte.backslash :: c :: rest)
    (decoded : Bytes) : decodeFrom s i decoded =
      if c == Byte.letterX then do
        match ← hexByte (slice s (i + 2) (i + 4)).toOption with
        | some v => decodeFrom s (i + 4) (decoded ++ [v])
        | none => decodeFrom s (i + 2) (decoded ++ [c])
      else decodeFrom s (i + 2) (decoded ++ [(Escape.named.lookup c).getD c]) := by
  have hlast := lt_length_of_drop (drop_succ h)
  have hnot : ¬ (Byte.backslash != Byte.backslash || i + 1 == s.length) = true := by
    simp [Nat.ne_of_lt hlast]
  rw [decodeFrom, dif_pos (lt_length_of_drop h), bind_byteAt h, if_neg hnot,
    bind_byteAt (drop_succ h)]

theorem decodeFrom_of_decodes {contents : Bytes} (h : Escape.Decodes rest contents)
    (hrest : s.drop i = rest) (decoded : Bytes) :
    decodeFrom s i decoded = .ok (decoded ++ contents) := by
  induction h generalizing i decoded with
  | nil =>
    rw [decodeFrom, dif_neg (Nat.not_lt.2 (List.drop_eq_nil_iff.1 hrest)), List.append_nil]
    rfl
  | @plain b rest u hb _ ih =>
    have hplain : (b != Byte.backslash || i + 1 == s.length) = true := by simp [hb]
    rw [decodeFrom, dif_pos (lt_length_of_drop hrest), bind_byteAt hrest, if_pos hplain,
      ih (drop_succ hrest), List.append_assoc]
    rfl
  | @named letter b rest u hname _ ih =>
    have hletter : ¬ (letter == Byte.letterX) = true := by
      simpa using Escape.ne_letterX_of_mem_named hname
    rw [decodeFrom_backslash hrest, if_neg hletter, ih (drop_succ (drop_succ hrest)),
      Escape.lookup_named hname, List.append_assoc]
    rfl
  | hex hhigh hlow _ ih =>
    have hdigits := drop_succ (drop_succ hrest)
    rw [decodeFrom_backslash hrest, if_pos (beq_self_eq_true _),
      hexByte_of_digits hdigits hhigh hlow]
    change decodeFrom s (i + 4) _ = _
    rw [ih (drop_succ (drop_succ hdigits)), List.append_assoc]
    rfl
  | @itself c rest u hname hhex _ ih =>
    have hbehind := drop_succ (drop_succ hrest)
    rw [decodeFrom_backslash hrest]
    by_cases hc : c = Byte.letterX
    · subst hc
      rw [if_pos (beq_self_eq_true _), hexByte_of_not_hexAhead (hbehind ▸ hhex rfl)]
      change decodeFrom s (i + 2) _ = _
      rw [ih hbehind, List.append_assoc]
      rfl
    · rw [if_neg (by simpa using hc), ih hbehind, Escape.lookup_eq_none hname, List.append_assoc]
      rfl
  | loneBackslash =>
    have hlength := congrArg List.length hrest
    rw [List.length_drop, List.length_singleton] at hlength
    have hlast : (Byte.backslash != Byte.backslash || i + 1 == s.length) = true := by
      simp
      omega
    rw [decodeFrom, dif_pos (lt_length_of_drop hrest), bind_byteAt hrest, if_pos hlast, decodeFrom,
      dif_neg (by omega)]
    rfl

/-- The contents of a literal are decoded without a look beyond its body. -/
theorem decodeFrom_eq (body : Bytes) : decodeFrom body 0 [] = .ok (Escape.decode body) :=
  decodeFrom_of_decodes (Escape.decodes_decode body) rfl []

theorem extent_eq (hi : i ≤ s.length) : extent s i =
    .ok ((Lexeme.scan (s.drop i)).kind, i + (Lexeme.scan (s.drop i)).text.length) := by
  cases hrest : s.drop i with
  | nil =>
    rw [extent, List.getElem?_eq_none (List.drop_eq_nil_iff.1 hrest)]
    rfl
  | cons b rest =>
    have hrest' := drop_succ hrest
    rw [extent, getElem?_of_drop hrest, Lexeme.scan]
    dsimp only
    split_ifs with h₁ h₂ h₃ h₄ h₅ h₆
    · rfl
    · rfl
    · rfl
    · rfl
    · rw [skipWhile_eq, hrest', Nat.add_right_comm, Nat.add_assoc]
      rfl
    · have hlength := congrArg List.length hrest
      rw [List.length_drop, List.length_cons] at hlength
      rw [scanString_eq, hrest']
      cases Lexeme.closeString? rest with
      | none =>
        have hend : s.length = i + (b :: rest).length := by
          rw [List.length_cons]
          omega
        rw [hend]
        rfl
      | some p =>
        change Except.ok _ = Except.ok (_, i + (p.1.length + 1))
        rw [← Nat.add_assoc, Nat.add_right_comm]
        rfl
    · rw [skipWhile_eq, hrest', Nat.add_right_comm, Nat.add_assoc]
      rfl

end Access

end Indexed

namespace Cursor

/-- The cursor stands in a text, at its offset. -/
structure Within (input : Bytes) (c : Cursor) : Prop where
  offset_le : c.offset ≤ input.length
  drop_eq : input.drop c.offset = c.rest

variable {input : Bytes} {c : Cursor}

theorem within_origin (input : Bytes) : Within input ⟨input, 0⟩ := ⟨Nat.zero_le _, rfl⟩

theorem Within.move {x rest : Bytes} (h : c.Within input) (hx : x ++ rest = c.rest) :
    Within input ⟨rest, c.offset + x.length⟩ := by
  have hlength := congrArg List.length h.drop_eq
  rw [List.length_drop, ← hx, List.length_append] at hlength
  have hle := h.offset_le
  constructor
  · dsimp only
    omega
  · rw [← List.drop_drop, h.drop_eq, ← hx, List.drop_left]

theorem Within.skipBlanks (h : c.Within input) : c.skipBlanks.Within input :=
  h.move List.takeWhile_append_dropWhile

theorem skipWhile_eq_skipBlanks (h : c.Within input) :
    Indexed.skipWhile input Byte.isBlank c.offset = .ok c.skipBlanks.offset := by
  rw [Indexed.skipWhile_eq, h.drop_eq]
  rfl

theorem Within.advance (h : c.Within input) : c.advance.Within input :=
  (h.move (Lexeme.scan_append c.rest)).skipBlanks

theorem nextToken_eq (h : c.Within input) :
    Indexed.nextToken input c.offset = .ok (c.token, c.advance.offset) := by
  have hscan := Lexeme.scan_append c.rest
  have hnext := skipWhile_eq_skipBlanks (h.move hscan)
  have htext := Indexed.slice_eq h.offset_le (h.drop_eq.trans hscan.symm)
  rw [Indexed.nextToken, Indexed.extent_eq h.offset_le, h.drop_eq]
  change (Indexed.skipWhile input Byte.isBlank _ >>= _) = _
  rw [hnext]
  change (Indexed.slice input _ _ >>= _) = _
  rw [htext]
  rfl

theorem remaining_eq (h : c.Within input) : Indexed.remaining input c.offset = .ok c.rest := by
  have hrest : input.drop c.offset = c.rest ++ [] := by rw [h.drop_eq, List.append_nil]
  have hslice := Indexed.slice_eq h.offset_le hrest
  have hlength := congrArg List.length h.drop_eq
  rw [List.length_drop] at hlength
  have hend : c.offset + c.rest.length = input.length := by
    have hle := h.offset_le
    omega
  rwa [hend] at hslice

theorem within_iterate (input : Bytes) (n : Nat) :
    (Cursor.advance^[n] (Cursor.start input)).Within input := by
  induction n with
  | zero => exact (within_origin input).skipBlanks
  | succ n ih =>
    rw [Function.iterate_succ_apply']
    exact ih.advance

end Cursor

end Sexpr
