import Mathlib.Data.List.Induction
import Mathlib.Data.List.TakeWhile
import Sexpr.Parser.Stack
import Sexpr.Proofs.Lexing
import Sexpr.Proofs.Numeral
import Sexpr.Proofs.Tree

/-! # What tokens contribute

A token that was found in a text is refused on its own account only if it is invalid or a numeral
that denotes no 64-bit number. The text of a symbol is one symbol again wherever it is written.
-/

namespace Sexpr

namespace Utf8

@[simp] theorem decode?_encode (s : String) : decode? (encode s) = some s := by
  simp only [decode?, encode, Array.toArray_toList, String.fromUTF8?]
  exact dif_pos s.isValidUTF8

theorem isValidUTF8_of_ascii {bytes : Bytes} (h : ∀ b ∈ bytes, b < 0x80) :
    ByteArray.IsValidUTF8 ⟨bytes.toArray⟩ := by
  have hchar : ∀ b : UInt8, b < 0x80 →
      (Char.ofNat b.toNat).utf8Size = 1 ∧ (Char.ofNat b.toNat).toUInt8 = b := by
    apply Byte.forall_of_fin
    decide +kernel
  induction bytes using List.reverseRecOn with
  | nil => exact ByteArray.isValidUTF8_empty
  | append_singleton bytes b ih =>
    rcases hchar b (h b (by simp)) with ⟨hsize, hb⟩
    have hpush := (ih fun c hc => h c (by simp [hc])).push hsize
    rw [hb] at hpush
    have happend : (⟨bytes.toArray⟩ : ByteArray).push b = ⟨(bytes ++ [b]).toArray⟩ :=
      congrArg ByteArray.mk (List.push_toArray bytes b)
    rwa [happend] at hpush

theorem decode?_of_ascii {bytes : Bytes} (h : ∀ b ∈ bytes, b < 0x80) :
    ∃ s, decode? bytes = some s := by
  unfold decode? String.fromUTF8?
  rw [dif_pos (isValidUTF8_of_ascii h)]
  exact ⟨_, rfl⟩

theorem decodeLossy_nil : decodeLossy [] = "" := by
  have hdecode : decode? [] = some "" := decode?_encode ""
  simp [decodeLossy, hdecode]

theorem decodeLossy_ne_empty {bytes : Bytes} (h : bytes ≠ []) : decodeLossy bytes ≠ "" := by
  intro hempty
  unfold decodeLossy at hempty
  split at hempty
  · rename_i s hs
    have hencode := encode_of_decode? hs
    rw [hempty] at hencode
    exact h hencode.symm
  · cases bytes with
    | nil => exact h rfl
    | cons b s =>
      rw [segments] at hempty
      simp at hempty

end Utf8

/-- Text that is recognized as one symbol. -/
structure SymbolText (text : Bytes) : Prop where
  nonempty : text ≠ []
  symbolic : ∀ b ∈ text, Byte.isSymbolic b = true
  first : ∀ b, text.head? = some b →
    b ≠ Byte.minus ∧ Byte.isDigit b = false ∧ b ≠ Byte.apostrophe

instance (text : Bytes) : Decidable (SymbolText text) :=
  decidable_of_iff
    (text ≠ [] ∧ text.all Byte.isSymbolic = true ∧
      text.head?.all (fun b => b != Byte.minus && !Byte.isDigit b && b != Byte.apostrophe) = true)
    ⟨fun h => ⟨h.1, List.all_eq_true.1 h.2.1, by simpa [Option.all_eq_true, and_assoc] using h.2.2⟩,
      fun h => ⟨h.nonempty, List.all_eq_true.2 h.symbolic,
        by simpa [Option.all_eq_true, and_assoc] using h.first⟩⟩

theorem Byte.isSymbolic_iff {b : UInt8} : Byte.isSymbolic b = true ↔
    Byte.isBlank b = false ∧ b < Byte.delete ∧ b ≠ Byte.leftParen ∧ b ≠ Byte.rightParen ∧
      b ≠ Byte.quotation := by
  simp [Byte.isSymbolic, and_assoc]

theorem SymbolText.ascii {text : Bytes} (h : SymbolText text) : ∀ b ∈ text, b < 0x80 := by
  intro b hb
  have hdelete := (Byte.isSymbolic_iff.1 (h.symbolic b hb)).2.1
  rw [UInt8.lt_iff_toNat_lt] at hdelete ⊢
  exact hdelete.trans (by decide)

namespace Lexeme

theorem run_eq {k : Token.Kind} {p : UInt8 → Bool} {s : Bytes} (hs : ∀ b ∈ s, p b = true)
    (b : UInt8) : run k p b s = ⟨k, b :: s, []⟩ := by
  rw [run, List.takeWhile_eq_self_iff.2 hs, List.dropWhile_eq_nil_iff.2 hs]

theorem scan_symbolText {b : UInt8} {s : Bytes} (h : SymbolText (b :: s)) :
    scan (b :: s) = ⟨.symbol, b :: s, []⟩ := by
  obtain ⟨hblank, hdelete, hleft, hright, hquotation⟩ :=
    Byte.isSymbolic_iff.1 (h.symbolic b List.mem_cons_self)
  rcases h.first b rfl with ⟨hminus, hdigit, hapostrophe⟩
  have hlow : ¬ Byte.delete ≤ b := UInt8.not_le.2 hdelete
  simp [scan, hblank, hlow, hleft, hright, hapostrophe, hminus, hdigit, hquotation,
    run_eq fun c hc => h.symbolic c (List.mem_cons_of_mem _ hc)]

theorem isBlank_eq_false_of_scan {b : UInt8} {s text rest : Bytes} {k : Token.Kind}
    (h : scan (b :: s) = ⟨k, text, rest⟩) (hk : k ≠ .invalid) : Byte.isBlank b = false := by
  by_contra hb
  rw [Bool.not_eq_false] at hb
  simp only [scan, hb, Bool.true_or, if_true, single] at h
  cases h
  exact hk rfl

theorem scan_literal (contents : Bytes) :
    scan (Escape.literal contents) = ⟨.string, Escape.literal contents, []⟩ := by
  have hclose := closeString?_of_body (body_encode contents) []
  simp only [Escape.literal, List.cons_append]
  rw [scan, hclose]
  rfl

/-- A numeral is one integer: a digit is a visible character without a meaning of its own. -/
theorem scan_numeral {text : Bytes} {n : Int} (h : Decimal.Numeral text n) :
    scan text = ⟨.integer, text, []⟩ := by
  cases h with
  | minus hne hds => exact run_eq hds Byte.minus
  | plain hne hds =>
    cases text with
    | nil => exact absurd rfl hne
    | cons b s =>
      have hvisible : ∀ b : UInt8, Byte.isDigit b = true → Byte.isBlank b = false ∧
          ¬ Byte.delete ≤ b ∧ b ≠ Byte.leftParen ∧ b ≠ Byte.rightParen ∧ b ≠ Byte.apostrophe := by
        apply Byte.forall_of_fin
        decide +kernel
      have hb := hds b List.mem_cons_self
      rcases hvisible b hb with ⟨hblank, hdelete, hleft, hright, hapostrophe⟩
      simp [scan, hblank, hdelete, hleft, hright, hapostrophe, hb,
        run_eq fun c hc => hds c (List.mem_cons_of_mem _ hc)]

theorem symbolText_of_scan {b : UInt8} {s text rest : Bytes}
    (h : scan (b :: s) = ⟨.symbol, text, rest⟩) : SymbolText text := by
  simp only [scan] at h
  split_ifs at h with h₁ h₂ h₃ h₄ h₅ h₆
  · cases h
  · cases h
  · cases h
  · cases h
  · cases h
  · split at h <;> cases h
  · cases h
    simp only [Bool.or_eq_true, decide_eq_true_eq, not_or, Bool.not_eq_true, UInt8.not_le,
      beq_iff_eq] at *
    refine ⟨List.cons_ne_nil _ _, ?_, ?_⟩ <;> intro c hc
    · rcases List.mem_cons.1 hc with rfl | hc
      · exact Byte.isSymbolic_iff.2 ⟨h₁.1, h₁.2, h₂, h₃, h₆⟩
      · exact List.all_eq_true.1 List.all_takeWhile c hc
    · cases hc
      exact ⟨h₅.1, h₅.2, h₄⟩

theorem exists_of_scan_string {b : UInt8} {s text rest : Bytes}
    (h : scan (b :: s) = ⟨.string, text, rest⟩) :
    ∃ body, text = Byte.quotation :: body ++ [Byte.quotation] := by
  simp only [scan] at h
  split_ifs at h with h₁ h₂ h₃ h₄ h₅ h₆
  · cases h
  · cases h
  · cases h
  · cases h
  · cases h
  · split at h
    · rename_i body rest' hclose
      cases h
      rcases exists_body_of_closeString? hclose with ⟨contents, _, rfl⟩
      exact ⟨contents, by rw [eq_of_beq h₆]; rfl⟩
    · cases h
  · cases h

theorem kind_scan_ne_endOfInput (b : UInt8) (s : Bytes) : (scan (b :: s)).kind ≠ .endOfInput := by
  simp only [scan]
  split_ifs
  all_goals try simp [single, run]
  split <;> simp

end Lexeme

namespace Token

def Kind.isAtom : Kind → Bool
  | integer => true
  | string => true
  | symbol => true
  | _ => false

def Scanned (t : Token) : Prop :=
  ∃ b s rest, Byte.isBlank b = false ∧ Lexeme.scan (b :: s) = ⟨t.kind, t.text, rest⟩

/-- A token that has a role. -/
def Acceptable (t : Token) : Prop := ∃ role, t.role = .ok role

theorem Acceptable.kind_ne_invalid {t : Token} (h : t.Acceptable) : t.kind ≠ .invalid := by
  intro hk
  rcases h with ⟨role, hrole⟩
  simp [Token.role, hk, refuse] at hrole

theorem scanned_of_mem_all {input : Bytes} {t : Token} (h : t ∈ all input) : t.Scanned :=
  (Lexes.iff_eq_all.2 rfl).exists_scan h

theorem Scanned.kind_ne_endOfInput {t : Token} (h : t.Scanned) : t.kind ≠ .endOfInput := by
  rcases h with ⟨b, s, rest, _, hs⟩
  have hkind := Lexeme.kind_scan_ne_endOfInput b s
  rwa [hs] at hkind

theorem Scanned.text_ne_nil {t : Token} (h : t.Scanned) : t.text ≠ [] := by
  rcases h with ⟨b, s, rest, _, hs⟩
  exact Lexeme.text_ne_nil_of_scan hs

theorem role_string {t : Token} {body : Bytes} (hk : t.kind = .string)
    (ht : t.text = Byte.quotation :: body ++ [Byte.quotation]) :
    t.role = .ok (.atom (.string (Escape.decode body))) := by
  simp [role, hk, ht]

theorem role_symbol {t : Token} {name : String} (hk : t.kind = .symbol)
    (hname : Utf8.encode name = t.text) : t.role = .ok (.atom (.symbol name)) := by
  simp [role, hk, ← hname]

theorem role_integer {t : Token} {v : Int64} (hk : t.kind = .integer)
    (hv : Decimal.read? t.text = some v) : t.role = .ok (.atom (.integer v)) := by
  simp [role, hk, hv]

theorem Scanned.string {t : Token} (h : t.Scanned) (hk : t.kind = .string) :
    ∃ body, t.text = Byte.quotation :: body ++ [Byte.quotation] ∧
      t.role = .ok (.atom (.string (Escape.decode body))) := by
  rcases h with ⟨b, s, rest, _, hs⟩
  rw [hk] at hs
  rcases Lexeme.exists_of_scan_string hs with ⟨body, hbody⟩
  exact ⟨body, hbody, role_string hk hbody⟩

theorem Scanned.symbol {t : Token} (h : t.Scanned) (hk : t.kind = .symbol) :
    SymbolText t.text ∧
      ∃ name, Utf8.encode name = t.text ∧ t.role = .ok (.atom (.symbol name)) := by
  rcases h with ⟨b, s, rest, _, hs⟩
  rw [hk] at hs
  have hsymbol := Lexeme.symbolText_of_scan hs
  rcases Utf8.decode?_of_ascii hsymbol.ascii with ⟨name, hname⟩
  have hencode := Utf8.encode_of_decode? hname
  exact ⟨hsymbol, name, hencode, role_symbol hk hencode⟩

theorem role_leftParen {t : Token} (hk : t.kind = .leftParen) : t.role = .ok .opening := by
  simp [role, hk]

theorem role_rightParen {t : Token} (hk : t.kind = .rightParen) : t.role = .ok .closing := by
  simp [role, hk]

theorem role_quote {t : Token} (hk : t.kind = .quote) : t.role = .ok .quoting := by
  simp [role, hk]

theorem Scanned.acceptable_iff {t : Token} (h : t.Scanned) :
    t.Acceptable ↔ t.kind ≠ .invalid ∧
      (t.kind = .integer → ∃ n, Decimal.Numeral t.text n ∧ -2 ^ 63 ≤ n ∧ n ≤ 2 ^ 63 - 1) := by
  cases hk : t.kind with
  | endOfInput => exact absurd hk h.kind_ne_endOfInput
  | invalid => simp [Acceptable, role, hk, refuse]
  | integer =>
    simp only [Acceptable, role, hk, ← Decimal.read?_isSome_iff]
    cases Decimal.read? t.text <;> simp [refuse]
  | string =>
    rcases h.string hk with ⟨body, _, hrole⟩
    simp [Acceptable, hrole]
  | symbol =>
    rcases h.symbol hk with ⟨_, name, _, hrole⟩
    simp [Acceptable, hrole]
  | _ => simp [Acceptable, role, hk]

theorem cause_of_role {t : Token} {b : Blame} (h : t.role = .error (.failure b)) :
    b.cause = .endOfInput ∨ b.cause = .invalidToken ∨ b.cause = .numericOverflow := by
  unfold role at h
  split at h
  all_goals try split at h
  all_goals cases h
  all_goals simp

def Kind.Suits (k : Kind) : Role → Prop
  | .atom _ => k.isAtom = true
  | .opening => k = .leftParen
  | .closing => k = .rightParen
  | .quoting => k = .quote

theorem suits_of_role {t : Token} {role : Role} (h : t.role = .ok role) : t.kind.Suits role := by
  cases hk : t.kind with
  | integer | string | symbol =>
    simp only [Token.role, hk] at h
    split at h <;> cases h
    rfl
  | endOfInput | invalid => simp [Token.role, hk, refuse] at h
  | _ =>
    simp only [Token.role, hk] at h
    cases h
    rfl

end Token

end Sexpr
