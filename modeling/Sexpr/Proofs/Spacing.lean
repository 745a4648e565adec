import Sexpr.Proofs.Decomposition
import Sexpr.Proofs.Relocation

/-! # Texts with other blanks

Where a lexeme ends depends on the byte behind it only, and a blank ends every lexeme. So the blanks
of a text can be replaced by others, and put where there were none, as long as tokens that were set
apart stay so. The tokens remain, each of them moved, and a parse comes to the same with them. A
string without closing mark is an exception, for it takes all blanks along.
-/

namespace Sexpr

open Lexeme (Ends)

/-- A lexeme remains in front of other text that does not extend it, unless it is a string without
closing mark. -/
theorem IsLexeme.of_ends {k : Token.Kind} {text rest other : Bytes} (h : IsLexeme k text rest)
    (hclosed : k = .invalid → text.head? ≠ some Byte.quotation) (hother : Ends k other) :
    IsLexeme k text other := by
  cases h with
  | leftParen => exact .leftParen
  | rightParen => exact .rightParen
  | quote => exact .quote
  | integer hb hdigits _ => exact .integer hb hdigits hother
  | string hbody => exact .string hbody
  | unclosed _ => exact absurd rfl (hclosed rfl)
  | symbol htext _ => exact .symbol htext hother
  | invalid hb => exact .invalid hb

theorem IsLexeme.ends {k : Token.Kind} {text rest : Bytes} (h : IsLexeme k text rest) :
    Ends k rest := by
  cases h with
  | integer _ _ hrest => exact hrest
  | symbol _ hrest => exact hrest
  | _ => exact fun _ _ => rfl

/-- The same tokens with other blanks behind them. Tokens that are set apart stay so, and behind the
last one the blanks may go. -/
inductive Respaced : List (Token × Bytes) → List (Token × Bytes) → Prop
  | nil : Respaced [] []
  | cons {t w w' ps qs} (hw : IsBlank w') (hapart : ps ≠ [] → w ≠ [] → w' ≠ [])
      (h : Respaced ps qs) : Respaced ((t, w) :: ps) ((t, w') :: qs)

namespace Segmented

variable {offset : Nat} {w w' : Bytes} {k : Token.Kind} {ps qs : List (Token × Bytes)}

theorem head?_weave (h : Segmented offset w ps) (hqs : Respaced ps qs) :
    (weave [] qs).head? = (weave [] ps).head? := by
  cases hqs with
  | nil => rfl
  | @cons t v v' ps qs =>
    rcases (h.exists_cons List.mem_cons_self).2 with ⟨b, s, htext, _⟩
    dsimp only at htext
    rw [weave_cons, weave_cons, htext]
    rfl

theorem ends_respaced (h : Segmented offset w ps) (hqs : Respaced ps qs) (hw : IsBlank w')
    (hapart : ps ≠ [] → w ≠ [] → w' ≠ []) (hends : Ends k (weave w ps)) :
    Ends k (weave w' qs) := by
  cases w' with
  | cons b w' =>
    apply Lexeme.SetOff.ends
    intro c hc
    cases hc
    have hb := (isBlank_cons.1 hw).1
    simp [Byte.isSymbolic, hb]
  | nil =>
    intro b hb
    rw [h.head?_weave hqs] at hb
    by_cases hps : ps = []
    · subst hps
      cases hb
    · by_cases hw : w = []
      · subst hw
        exact hends b hb
      · exact absurd rfl (hapart hps hw)

theorem respaced (hqs : Respaced ps qs) (h : Segmented offset w ps)
    (hclosed : ∀ p ∈ ps, p.1.kind = .invalid → p.1.text.head? ≠ some Byte.quotation)
    (hw : IsBlank w') (offset' : Nat) :
    ∃ rs, weave w' rs = weave w' qs ∧ Segmented offset' w' rs ∧
      rs.map (Token.signature ∘ Prod.fst) = ps.map (Token.signature ∘ Prod.fst) := by
  induction hqs generalizing offset w offset' w' with
  | nil => exact ⟨[], rfl, .nil hw, rfl⟩
  | @cons t v v' ps qs hv hapart hqs ih =>
    cases h with
    | cons _ _ ht h =>
      have hends := h.ends_respaced hqs hv hapart ht.ends
      rcases ih h (fun p hp => hclosed p (List.mem_cons_of_mem _ hp)) hv
        (offset' + w'.length + t.text.length) with ⟨rs, hweave, hrs, hsig⟩
      refine ⟨(⟨t.kind, t.text, offset' + w'.length⟩, v') :: rs, ?_, .cons hw rfl ?_ hrs, ?_⟩
      · rw [weave_cons, weave_cons, hweave]
      · rw [hweave]
        exact ht.of_ends (hclosed _ List.mem_cons_self) hends
      · rw [List.map_cons, List.map_cons, hsig]
        rfl

end Segmented

namespace Token

variable {u v : Bytes}

/-- Tokens that have the same number in two texts, and differ at most in where they stand. -/
def Counterparts (u v : Bytes) (t t' : Token) : Prop :=
  t.signature = t'.signature ∧ ∃ n : Nat, (stream u)[n]? = some t ∧ (stream v)[n]? = some t'

theorem counterparts_all (h : (all u).map signature = (all v).map signature) :
    List.Forall₂ (Counterparts u v) (all u) (all v) := by
  have hlength := congrArg List.length h
  rw [List.length_map, List.length_map] at hlength
  apply List.forall₂_iff_get.2
  refine ⟨hlength, fun i hu hv => ⟨?_, i, ?_, ?_⟩⟩
  · have hget := congrArg (·[i]?) h
    simpa [hu, hv] using hget
  · rw [stream, List.getElem?_append_left hu]
    exact List.getElem?_eq_getElem hu
  · rw [stream, List.getElem?_append_left hv]
    exact List.getElem?_eq_getElem hv

theorem counterparts_eof (h : (all u).map signature = (all v).map signature) :
    Counterparts u v (eof u) (eof v) := by
  have hlength := congrArg List.length h
  rw [List.length_map, List.length_map] at hlength
  refine ⟨rfl, (all u).length, ?_, ?_⟩
  · simp [stream]
  · simp [stream, hlength]

end Token

/-- Outcomes for two texts: the same reference, or failures for the same cause at tokens that have
the same number. -/
inductive Parsed.Same (u v : Bytes) :
    Except (Halt ParseFailure) Ref → Except (Halt ParseFailure) Ref → Prop
  | ok (r : Ref) : Same u v (.ok r) (.ok r)
  | error (c : Cause) {t t'} (h : Token.Counterparts u v t t') : Same u v
      (.error (.failure (Blame.locate u ⟨c, t⟩))) (.error (.failure (Blame.locate v ⟨c, t'⟩)))

theorem parse_of_signature {u v : Bytes}
    (h : (Token.all u).map Token.signature = (Token.all v).map Token.signature)
    (a : Arena) (maxDepth : Nat) :
    Parsed.Same u v (parse u a maxDepth).result (parse v a maxDepth).result ∧
      (parse v a maxDepth).arena = (parse u a maxDepth).arena := by
  rcases parse_above u a maxDepth with ⟨hu, harena, _⟩
  rcases parse_alike (fun _ _ ht => ht.1) (Token.counterparts_all h) (Token.counterparts_eof h) a
    maxDepth with ⟨hv, harena', _⟩
  refine ⟨?_, harena'.trans harena.symm⟩
  generalize (parse u a.fresh maxDepth).result = r at hu hv
  generalize (parse u a maxDepth).result = ru at hu ⊢
  generalize (parse v a maxDepth).result = rv at hv ⊢
  cases hv with
  | ok r =>
    cases hu
    exact .ok _
  | error c ht =>
    generalize hblame : Blame.locate u _ = f at hu
    cases hu with
    | error c' ht' =>
      subst ht'
      rw [← hblame]
      exact .error c ht

/-- Blanks make no difference, as long as no string is left open. They may be replaced by any others
between tokens that they set apart, put where there were none, and added or removed at either end.
The text has the same tokens then, and it comes to the same in every arena and with every number of
levels: the same nodes are added, and there is the same result, or the token with the same number is
refused for the same cause. -/
theorem parse_respaced {input w w' : Bytes} {ps qs : List (Token × Bytes)}
    (h : Decomposes input w ps)
    (hclosed : ∀ t ∈ Token.all input, t.kind = .invalid → t.text.head? ≠ some Byte.quotation)
    (hw : IsBlank w') (hqs : Respaced ps qs) :
    let other := weave w' qs
    (Token.all other).map Token.signature = (Token.all input).map Token.signature ∧
      ∀ a maxDepth,
        Parsed.Same input other (parse input a maxDepth).result (parse other a maxDepth).result ∧
          (parse other a maxDepth).arena = (parse input a maxDepth).arena := by
  intro other
  have hall := h.all_eq
  have hclosed' (p : Token × Bytes) (hp : p ∈ ps) :
      p.1.kind = .invalid → p.1.text.head? ≠ some Byte.quotation := by
    apply hclosed
    rw [hall]
    exact List.mem_map_of_mem hp
  rcases Segmented.respaced hqs h.parts hclosed' hw 0 with ⟨rs, hweave, hrs, hsig⟩
  have hall' := Decomposes.all_eq ⟨hweave, hrs⟩
  have htokens : (Token.all other).map Token.signature = (Token.all input).map Token.signature := by
    rw [hall, hall', List.map_map, List.map_map, hsig]
  exact ⟨htokens, fun a maxDepth => parse_of_signature htokens.symm a maxDepth⟩

/-- Control bytes set tokens apart, also a symbol from a string directly behind it. -/
theorem parse_respaced_control_bytes :
    let input : Bytes := [97, 34, 115, 34, 32, 49]
    let other : Bytes := [0, 97, 10, 34, 115, 34, 1, 49, 31]
    (Token.all other).map Token.signature =
        [(.symbol, [97]), (.string, [34, 115, 34]), (.integer, [49])] ∧
      Parsed.Same input other (parse input { limit := some 2 } 0).result
        (parse other { limit := some 2 } 0).result ∧
      (parse other { limit := some 2 } 0).arena = (parse input { limit := some 2 } 0).arena := by
  intro input other
  have h : Decomposes input [] [(⟨.symbol, [97], 0⟩, []), (⟨.string, [34, 115, 34], 1⟩, [32]),
      (⟨.integer, [49], 5⟩, [])] :=
    ⟨rfl, .cons isBlank_nil rfl (.symbol (by decide) (by rintro _ ⟨⟩; rfl))
      (.cons isBlank_nil rfl (.string (.plain (by decide) (by decide) .nil))
        (.cons (by decide) rfl (.integer (.inr rfl) nofun nofun) (.nil isBlank_nil)))⟩
  have hall := h.all_eq
  have hqs : Respaced [(⟨.symbol, [97], 0⟩, []), (⟨.string, [34, 115, 34], 1⟩, [32]),
      (⟨.integer, [49], 5⟩, [])] [(⟨.symbol, [97], 0⟩, [10]), (⟨.string, [34, 115, 34], 1⟩, [1]),
      (⟨.integer, [49], 5⟩, [31])] :=
    .cons (by decide) (by simp) (.cons (by decide) (by simp) (.cons (by decide) (by simp) .nil))
  have hw : IsBlank [0] := by decide
  rcases parse_respaced h (by simp [hall]) hw hqs with ⟨htokens, hparse⟩
  rw [hall] at htokens
  exact ⟨htokens, hparse { limit := some 2 } 0⟩

end Sexpr
