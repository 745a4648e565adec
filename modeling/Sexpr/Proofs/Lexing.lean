import Mathlib.Tactic.SplitIfs
import Sexpr.Proofs.Literal
import Sexpr.Token.Cursor

/-! # Blanks and lexemes

The tokens of a text are described by a relation that peels off one blank or one lexeme at a time.
A lexeme is recognized by what it consists of and by the byte behind it, which must not extend it.
So a text can be cut in front of a token, and continued behind its end by anything that is set off
from it, without a change to the tokens before.
-/

namespace Sexpr

/-- Bytes that a token of a kind takes along if they follow it directly. -/
def Token.Kind.takes : Token.Kind → UInt8 → Bool
  | integer => Byte.isDigit
  | symbol => Byte.isSymbolic
  | _ => fun _ => false

namespace Lexeme

/-- A text does not extend a token of a kind that stands in front of it. -/
def Ends (k : Token.Kind) (rest : Bytes) : Prop := ∀ b, rest.head? = some b → k.takes b = false

theorem head?_dropWhile (p : UInt8 → Bool) (s : Bytes) (b : UInt8)
    (h : (s.dropWhile p).head? = some b) : p b = false := by
  have hs := List.head?_dropWhile_not p s
  rw [h] at hs
  simpa using hs

theorem ends_scan (s : Bytes) : Ends (scan s).kind (scan s).rest := by
  intro b hb
  fun_cases scan s with
  | case6 c s h₁ h₂ h₃ h₄ h₅ =>
    simp_all only [scan, run]
    exact head?_dropWhile _ _ _ hb
  | case9 c s h₁ h₂ h₃ h₄ h₅ h₆ =>
    simp_all only [scan, run]
    exact head?_dropWhile _ _ _ hb
  | _ => simp_all [scan, single, Token.Kind.takes]

theorem closeString?_append {s body rest : Bytes} (h : closeString? s = some (body, rest))
    (other : Bytes) : closeString? (body ++ other) = some (body, other) := by
  rcases exists_body_of_closeString? h with ⟨inside, hinside, rfl⟩
  rw [List.append_assoc]
  exact closeString?_of_body hinside other

theorem takeWhile_append {p : UInt8 → Bool} {s rest : Bytes} (hs : ∀ b ∈ s, p b = true)
    (hrest : ∀ b, rest.head? = some b → p b = false) :
    (s ++ rest).takeWhile p = s ∧ (s ++ rest).dropWhile p = rest := by
  rw [List.takeWhile_append_of_pos hs, List.dropWhile_append_of_pos hs]
  cases rest with
  | nil => simp
  | cons b rest => simp [hrest b rfl]

/-- The lexeme is not a string without closing mark, which takes along whatever follows it. -/
def Closed (k : Token.Kind) (text : Bytes) : Prop :=
  k = .invalid → text.head? ≠ some Byte.quotation

theorem closed_of_ne_invalid {k : Token.Kind} (hk : k ≠ .invalid) (text : Bytes) : Closed k text :=
  fun h => absurd h hk

/-- A lexeme stays the same if other bytes follow it that do not extend it either. -/
theorem scan_append_of_ends {b : UInt8} {s text rest other : Bytes} {k : Token.Kind}
    (hs : scan (b :: s) = ⟨k, text, rest⟩) (hclosed : Closed k text) (hother : Ends k other) :
    scan (text ++ other) = ⟨k, text, other⟩ := by
  have hextend (p : UInt8 → Bool) (hp : ∀ c, other.head? = some c → p c = false) :=
    takeWhile_append (List.all_eq_true.1 (List.all_takeWhile (p := p) (l := s))) hp
  simp only [scan] at hs
  split_ifs at hs with h₁ h₂ h₃ h₄ h₅ h₆
  · cases hs
    simp [scan, single, h₁]
  · cases hs
    simp [scan, single, h₁, h₂]
  · cases hs
    simp [scan, single, h₁, h₂, h₃]
  · cases hs
    simp [scan, single, h₁, h₂, h₃, h₄]
  · cases hs
    rcases hextend Byte.isDigit hother with ⟨htake, hdrop⟩
    simp [scan, h₁, h₂, h₃, h₄, h₅, run, htake, hdrop]
  · split at hs
    · rename_i body rest' hclose
      cases hs
      simp [scan, h₁, h₂, h₃, h₄, h₅, h₆, closeString?_append hclose]
    · cases hs
      exact absurd (congrArg some (eq_of_beq h₆)) (hclosed rfl)
  · cases hs
    rcases hextend Byte.isSymbolic hother with ⟨htake, hdrop⟩
    simp [scan, h₁, h₂, h₃, h₄, h₅, h₆, run, htake, hdrop]

theorem append_of_scan {s text rest : Bytes} {k : Token.Kind} (hs : scan s = ⟨k, text, rest⟩) :
    text ++ rest = s := by
  have happend := scan_append s
  rwa [hs] at happend

theorem text_ne_nil_of_scan {b : UInt8} {s text rest : Bytes} {k : Token.Kind}
    (hs : scan (b :: s) = ⟨k, text, rest⟩) : text ≠ [] := by
  have hne := text_scan_ne_nil (List.cons_ne_nil b s)
  rwa [hs] at hne

theorem rest_eq_nil_of_unclosed {b : UInt8} {s text rest : Bytes}
    (hs : scan (b :: s) = ⟨.invalid, text, rest⟩) (htext : text.head? = some Byte.quotation) :
    rest = [] := by
  simp only [scan] at hs
  split_ifs at hs with h₁ h₂ h₃ h₄ h₅ h₆
  · cases hs
    cases htext
    cases h₁
  · cases hs
  · cases hs
  · cases hs
  · cases hs
  · split at hs <;> cases hs
    rfl
  · cases hs

/-- Text that extends no token, whatever its kind. -/
def SetOff (s : Bytes) : Prop := ∀ b, s.head? = some b → Byte.isSymbolic b = false

theorem setOff_nil : SetOff [] := by
  simp [SetOff]

theorem SetOff.ends {s : Bytes} (h : SetOff s) (k : Token.Kind) : Ends k s := by
  intro b hb
  have hsymbolic := h b hb
  cases k with
  | integer =>
    have hall : ∀ b, Byte.isSymbolic b = false → Byte.isDigit b = false := by
      apply Byte.forall_of_fin
      decide +kernel
    exact hall b hsymbolic
  | symbol => exact hsymbolic
  | _ => rfl

theorem ends_append {k : Token.Kind} {s other : Bytes} (hs : Ends k s) (hother : SetOff other) :
    Ends k (s ++ other) := by
  cases s with
  | nil => exact hother.ends k
  | cons b s => exact hs

/-- A lexeme is recognized again if what follows it is cut somewhere and set off there. -/
theorem scan_append_of_setOff {b : UInt8} {s text rest other : Bytes} {k : Token.Kind}
    (hs : scan (b :: s) = ⟨k, text, rest⟩) (hclosed : Closed k text) (n : Nat)
    (hother : SetOff other) :
    scan (text ++ (rest.take n ++ other)) = ⟨k, text, rest.take n ++ other⟩ := by
  apply scan_append_of_ends hs hclosed
  apply ends_append _ hother
  have hrest := ends_scan (b :: s)
  rw [hs] at hrest
  intro c hc
  rw [List.head?_take] at hc
  split at hc
  · cases hc
  · exact hrest c hc

end Lexeme

open Lexeme (scan Closed SetOff)

/-- The tokens of a text that starts at an offset. -/
inductive Lexes : Bytes → Nat → List Token → Prop
  | done {offset} : Lexes [] offset []
  | blank {b s offset ts} (hb : Byte.isBlank b = true) (h : Lexes s (offset + 1) ts) :
    Lexes (b :: s) offset ts
  | token {b s offset k text rest ts} (hb : Byte.isBlank b = false)
      (hs : scan (b :: s) = ⟨k, text, rest⟩) (h : Lexes rest (offset + text.length) ts) :
    Lexes (b :: s) offset (⟨k, text, offset⟩ :: ts)

def Token.shift (n : Nat) (t : Token) : Token := { t with offset := t.offset + n }

namespace Lexes

variable {s other : Bytes} {offset : Nat} {t : Token} {ts us : List Token}

theorem unique (h : Lexes s offset ts) (h' : Lexes s offset us) : ts = us := by
  induction h generalizing us with
  | done => cases h'; rfl
  | blank hb _ ih =>
    cases h' with
    | blank _ h' => exact ih h'
    | token hb' => cases hb.symm.trans hb'
  | token hb hs _ ih =>
    cases h' with
    | blank hb' => cases hb.symm.trans hb'
    | token _ hs' h' =>
      cases hs.symm.trans hs'
      rw [ih h']

theorem skipBlanks_blank {b : UInt8} (hb : Byte.isBlank b = true) (s : Bytes) (offset : Nat) :
    Cursor.skipBlanks ⟨b :: s, offset⟩ = Cursor.skipBlanks ⟨s, offset + 1⟩ := by
  simp only [Cursor.skipBlanks, List.dropWhile_cons_of_pos hb, List.takeWhile_cons_of_pos hb,
    List.length_cons, Cursor.mk.injEq, true_and]
  omega

theorem skipBlanks_token {b : UInt8} (hb : Byte.isBlank b = false) (s : Bytes) (offset : Nat) :
    Cursor.skipBlanks ⟨b :: s, offset⟩ = ⟨b :: s, offset⟩ := by
  simp [Cursor.skipBlanks, hb]

theorem tokens_skipBlanks (s : Bytes) (offset : Nat) :
    Lexes s offset (Cursor.skipBlanks ⟨s, offset⟩).tokens := by
  induction hn : s.length using Nat.strongRecOn generalizing s offset with
  | _ n ih =>
    cases s with
    | nil =>
      rw [Cursor.tokens]
      exact .done
    | cons b s =>
      cases hb : Byte.isBlank b with
      | true =>
        rw [skipBlanks_blank hb]
        exact .blank hb (ih s.length (by simp [← hn]) s _ rfl)
      | false =>
        rw [skipBlanks_token hb, Cursor.tokens, dif_neg (List.cons_ne_nil b s)]
        have hs : scan (b :: s) =
          ⟨(scan (b :: s)).kind, (scan (b :: s)).text, (scan (b :: s)).rest⟩ := rfl
        refine .token hb hs (ih _ ?_ _ _ rfl)
        have happend := congrArg List.length (Lexeme.scan_append (b :: s))
        have htext := List.length_pos_iff.2 (Lexeme.text_scan_ne_nil (List.cons_ne_nil b s))
        rw [List.length_append] at happend
        omega

/-- The relation and the walk of a cursor yield the same tokens. -/
theorem iff_eq_all {input : Bytes} : Lexes input 0 ts ↔ Token.all input = ts :=
  ⟨fun h => (tokens_skipBlanks input 0).unique h, fun h => h ▸ tokens_skipBlanks input 0⟩

theorem offset_bounds (h : Lexes s offset ts) (ht : t ∈ ts) :
    offset ≤ t.offset ∧ t.offset + t.text.length ≤ offset + s.length := by
  induction h with
  | done => simp at ht
  | blank _ _ ih =>
    have hbounds := ih ht
    simp only [List.length_cons]
    omega
  | token hb hs h ih =>
    have hlength := congrArg List.length (Lexeme.append_of_scan hs)
    rw [List.length_append] at hlength
    rcases List.mem_cons.1 ht with rfl | ht
    · exact ⟨Nat.le_refl _, by dsimp only; omega⟩
    · have hbounds := ih ht
      omega

theorem exists_scan (h : Lexes s offset ts) (ht : t ∈ ts) :
    ∃ b s rest, Byte.isBlank b = false ∧ scan (b :: s) = ⟨t.kind, t.text, rest⟩ := by
  induction h with
  | done => simp at ht
  | blank _ _ ih => exact ih ht
  | token hb hs _ ih =>
    rcases List.mem_cons.1 ht with rfl | ht
    · exact ⟨_, _, _, hb, hs⟩
    · exact ih ht

theorem cons {b : UInt8} {text rest : Bytes} {k : Token.Kind} (hb : Byte.isBlank b = false)
    (hs : scan (b :: s) = ⟨k, text, rest⟩) (hother : scan (text ++ other) = ⟨k, text, other⟩)
    (h : Lexes other (offset + text.length) ts) :
    Lexes (text ++ other) offset (⟨k, text, offset⟩ :: ts) := by
  have happend := Lexeme.append_of_scan hs
  cases text with
  | nil => exact absurd rfl (Lexeme.text_ne_nil_of_scan hs)
  | cons c text =>
    cases happend
    exact .token hb hother h

theorem closed_of_append {pre post : List Token} (h : Lexes s offset (pre ++ t :: post)) :
    ∀ u ∈ pre, Closed u.kind u.text := by
  generalize hts : pre ++ t :: post = ts at h
  induction h generalizing pre with
  | done => simp at hts
  | blank _ _ ih => exact ih hts
  | @token b s offset k text rest ts _ hs h ih =>
    cases pre with
    | nil => simp
    | cons u pre =>
      cases hts
      apply List.forall_mem_cons.2 ⟨_, ih rfl⟩
      rintro rfl hquotation
      rw [Lexeme.rest_eq_nil_of_unclosed hs hquotation] at h
      cases pre <;> cases h

theorem exists_cut {pre post : List Token} (h : Lexes s offset (pre ++ t :: post))
    (hclosed : ∀ u ∈ pre, Closed u.kind u.text) :
    ∃ x y, x ++ y = s ∧ offset + x.length = t.offset ∧ Lexes x offset pre ∧
      Lexes y t.offset (t :: post) := by
  generalize hts : pre ++ t :: post = ts at h
  induction h generalizing pre with
  | done => simp at hts
  | @blank b s offset ts hb _ ih =>
    rcases ih hclosed hts with ⟨x, y, rfl, hlength, hx, hy⟩
    refine ⟨b :: x, y, rfl, ?_, .blank hb hx, hy⟩
    rw [← hlength, List.length_cons]
    omega
  | @token b s offset k text rest ts hb hs h ih =>
    cases pre with
    | nil =>
      cases hts
      exact ⟨[], b :: s, rfl, rfl, .done, .token hb hs h⟩
    | cons u pre =>
      cases hts
      rcases ih (fun v hv => hclosed v (List.mem_cons_of_mem _ hv)) rfl with
        ⟨x, y, rfl, hlength, hx, hy⟩
      have hscan := Lexeme.scan_append_of_setOff hs (hclosed _ List.mem_cons_self) x.length
        Lexeme.setOff_nil
      rw [List.take_left, List.append_nil] at hscan
      refine ⟨text ++ x, y, ?_, ?_, cons hb hs hscan hx, hy⟩
      · rw [List.append_assoc]
        exact Lexeme.append_of_scan hs
      · rw [← hlength, List.length_append, Nat.add_assoc]

theorem exists_split (h : Lexes s offset (ts ++ us)) (hclosed : ∀ t ∈ ts, Closed t.kind t.text) :
    ∃ x y, x ++ y = s ∧ Lexes x offset ts ∧ Lexes y (offset + x.length) us := by
  cases us with
  | nil =>
    rw [List.append_nil] at h
    exact ⟨s, [], List.append_nil s, h, .done⟩
  | cons u us =>
    rcases h.exists_cut hclosed with ⟨x, y, hs, hlength, hx, hy⟩
    exact ⟨x, y, hs, hx, hlength ▸ hy⟩

theorem take {pre post : List Token} (h : Lexes s offset (pre ++ t :: post))
    (hclosed : ∀ u ∈ pre, Closed u.kind u.text) :
    Lexes (s.take (t.offset - offset)) offset pre := by
  rcases h.exists_cut hclosed with ⟨x, y, rfl, hlength, hx, _⟩
  rwa [← hlength, Nat.add_sub_cancel_left, List.take_left]

theorem exists_rest {s : Bytes} (h : Lexes s t.offset (t :: ts)) :
    ∃ rest, t.text ++ rest = s ∧ Lexes rest (t.offset + t.text.length) ts := by
  rcases t with ⟨k, text, offset⟩
  cases h with
  | blank _ h => exact absurd (h.offset_bounds List.mem_cons_self).1 (Nat.not_succ_le_self _)
  | token _ hs h => exact ⟨_, Lexeme.append_of_scan hs, h⟩

/-- Text that is set off from the text before adds its own tokens. -/
theorem append (h : Lexes s offset ts) (hclosed : ∀ t ∈ ts, Closed t.kind t.text)
    (hother : SetOff other) (h' : Lexes other (offset + s.length) us) :
    Lexes (s ++ other) offset (ts ++ us) := by
  induction h with
  | done => exact h'
  | @blank b s offset ts hb _ ih =>
    apply Lexes.blank hb
    apply ih hclosed
    rwa [List.length_cons, Nat.add_comm s.length, ← Nat.add_assoc] at h'
  | @token b s offset k text rest ts hb hs _ ih =>
    have happend := Lexeme.append_of_scan hs
    have hscan := Lexeme.scan_append_of_setOff hs (hclosed _ List.mem_cons_self) rest.length hother
    rw [List.take_length] at hscan
    rw [← happend, List.length_append, ← Nat.add_assoc] at h'
    rw [← happend, List.append_assoc]
    exact cons hb hs hscan (ih (fun t ht => hclosed t (List.mem_cons_of_mem _ ht)) h')

/-- Text that is set off from a text leaves the tokens up to one that is closed. -/
theorem exists_append {pre post : List Token} (h : Lexes s offset (pre ++ t :: post))
    (hclosed : Closed t.kind t.text) (hother : SetOff other) :
    ∃ later, Lexes (s ++ other) offset (pre ++ t :: later) := by
  generalize hts : pre ++ t :: post = ts at h
  induction h generalizing pre with
  | done => simp at hts
  | blank hb _ ih =>
    rcases ih hts with ⟨later, hlater⟩
    exact ⟨later, .blank hb hlater⟩
  | @token b s offset k text rest ts hb hs h ih =>
    have happend := Lexeme.append_of_scan hs
    have hscan (hclosed : Closed k text) :=
      Lexeme.scan_append_of_setOff hs hclosed rest.length hother
    rw [List.take_length] at hscan
    rw [← happend, List.append_assoc]
    cases pre with
    | nil =>
      cases hts
      exact ⟨_, cons hb hs (hscan hclosed) (tokens_skipBlanks _ _)⟩
    | cons u pre =>
      have hwhole := h.token hb hs
      rw [← hts] at hwhole
      have hu := hwhole.closed_of_append u List.mem_cons_self
      cases hts
      rcases ih rfl with ⟨later, hlater⟩
      exact ⟨later, cons hb hs (hscan hu) hlater⟩

theorem shift (h : Lexes s offset ts) (n : Nat) :
    Lexes s (offset + n) (ts.map (Token.shift n)) := by
  induction h with
  | done => exact .done
  | blank hb _ ih =>
    rw [Nat.add_right_comm] at ih
    exact .blank hb ih
  | token hb hs _ ih =>
    rw [Nat.add_right_comm] at ih
    exact .token hb hs ih

end Lexes

end Sexpr
