import Mathlib.Logic.Relation
import Sexpr.Proofs.Joining
import Sexpr.Proofs.Limit
import Sexpr.Proofs.Readable

/-! # Quoted forms spelled out

A quote mark in front of a form and the list of the symbol `quote` and the form have the same tree.
So one can be written for the other in any place of a text. The tokens of the text around them do
not change if blanks set the new tokens apart.
-/

namespace Sexpr

open Form (listTree)
open Lexeme (Closed SetOff)

namespace Token

def signatures (s : Bytes) : List (Kind × Bytes) := (all s).map signature

variable {x y w s : Bytes} {offset : Nat} {ts us : List Token}

theorem signatures_of_lexes (h : Lexes s offset ts) : signatures s = ts.map signature := by
  have hall : Lexes s 0 (all s) := Lexes.iff_eq_all.2 rfl
  have hshift := hall.shift offset
  rw [Nat.zero_add] at hshift
  rw [h.unique hshift, List.map_map, signature_comp_shift, signatures]

theorem signatures_append (hclosed : ∀ p ∈ signatures x, Closed p.1 p.2) (hy : SetOff y) :
    signatures (x ++ y) = signatures x ++ signatures y := by
  have hx : Lexes x 0 (all x) := Lexes.iff_eq_all.2 rfl
  have hbehind := Lexes.tokens_skipBlanks y (0 + x.length)
  rw [signatures_of_lexes (hx.append (List.forall_mem_map.1 hclosed) hy hbehind), List.map_append,
    signatures, signatures_of_lexes hbehind]

theorem signatures_of_isBlank (hw : IsBlank w) (s : Bytes) :
    signatures (w ++ s) = signatures s := by
  have hs := Lexes.tokens_skipBlanks s (0 + w.length)
  rw [signatures_of_lexes (lexes_of_blank hw hs), signatures_of_lexes hs]

theorem signatures_single {b : UInt8} {k : Kind} (hb : Byte.isBlank b = false)
    (hscan : Lexeme.scan (b :: s) = ⟨k, [b], s⟩) :
    signatures (b :: s) = (k, [b]) :: signatures s := by
  have hs := Lexes.tokens_skipBlanks s 1
  have hall : Lexes (b :: s) 0 (⟨k, [b], 0⟩ :: _) := .token hb hscan hs
  rw [signatures_of_lexes hall, signatures_of_lexes hs]
  rfl

theorem signatures_quoteName (hs : SetOff s) : signatures (Utf8.encode "quote" ++ s) =
    (.symbol, Utf8.encode "quote") :: signatures s := by
  have hname : Lexes (Utf8.encode "quote") 0 [⟨.symbol, Utf8.encode "quote", 0⟩] :=
    .token rfl (Lexeme.scan_symbolText symbolText_quote) .done
  rw [signatures_append _ hs, signatures_of_lexes hname]
  · rfl
  · rw [signatures_of_lexes hname]
    simp [signature, Closed]

theorem Scanned.quote {t : Token} (h : t.Scanned) (hk : t.kind = .quote) :
    t.text = [Byte.apostrophe] := by
  rcases h with ⟨b, s, rest, hb, hs⟩
  rw [hk] at hs
  generalize t.text = text at hs ⊢
  cases IsLexeme.of_scan hb hs
  rfl

end Token

def Form.quoteList (opening : Terminal .leftParen) (symbol : AtomToken) (form : Form)
    (closing : Terminal .rightParen) : Form :=
  .list opening [.atom symbol, form] closing

/-- The second text has, in place of the quote mark and a form of the first text, the list of the
symbol `quote` and the form, and the same tokens otherwise. -/
inductive SpellsOut (u v : Bytes) : Prop
  | intro (before after : List Token) (mark : Terminal .quote) (opening : Terminal .leftParen)
    (symbol : AtomToken) (form : Form) (closing : Terminal .rightParen)
    (hname : symbol.1.signature = (.symbol, Utf8.encode "quote"))
    (hu : Token.signatures u =
      (before ++ ((Form.quote mark form).tokens ++ after)).map Token.signature)
    (hv : Token.signatures v =
      (before ++ ((Form.quoteList opening symbol form closing).tokens ++ after)).map
        Token.signature)

/-- Text of the list of the symbol `quote` and a form, with blanks between the tokens. -/
def quoteListText (w₁ w₂ form w₃ : Bytes) : Bytes :=
  Byte.leftParen :: (w₁ ++ (Utf8.encode "quote" ++ (w₂ ++ (form ++ (w₃ ++ [Byte.rightParen])))))

section Spelling

variable {u v : Bytes} {d : Nat} {mark : Terminal .quote} {opening : Terminal .leftParen}
  {symbol : AtomToken} {form : Form} {closing : Terminal .rightParen}

theorem Form.tree_quoteList (hname : symbol.1.signature = (.symbol, Utf8.encode "quote")) :
    (quoteList opening symbol form closing).tree = (quote mark form).tree := by
  have hrole := Token.role_symbol (congrArg Prod.fst hname) (congrArg Prod.snd hname).symm
  rw [quoteList, tree, tree, listTree, listTree, listTree, tree, node_of_role hrole]
  rfl

theorem Form.forall_tokens_quoteList {p : Token → Prop} :
    (∀ t ∈ (quoteList opening symbol form closing).tokens, p t) ↔
      p opening.1 ∧ p symbol.1 ∧ (∀ t ∈ form.tokens, p t) ∧ p closing.1 := by
  rw [quoteList, forall_tokens_list, forall_listTokens_cons, forall_listTokens_cons,
    forall_tokens_atom]
  simp [listTokens, and_assoc]

/-- Texts that are read into forms with the same trees. -/
def ReadAlike (u v : Bytes) : Prop := ∀ d forms,
  (Outline.top []).read d (Token.all u) = .ok (.top forms) →
    ∃ forms', (Outline.top []).read d (Token.all v) = .ok (.top forms') ∧
      listTree forms = listTree forms'

theorem ReadAlike.refl (u : Bytes) : ReadAlike u u := fun _ forms h => ⟨forms, h, rfl⟩

theorem ReadAlike.trans {w : Bytes} (huv : ReadAlike u v) (hvw : ReadAlike v w) :
    ReadAlike u w := by
  intro d forms hread
  rcases huv d forms hread with ⟨forms₁, hread₁, htree₁⟩
  rcases hvw d forms₁ hread₁ with ⟨forms₂, hread₂, htree₂⟩
  exact ⟨forms₂, hread₂, htree₁.trans htree₂⟩

theorem ReadAlike.of_exchange {form form' : Form} {before after : List Token}
    (htree : form.tree = form'.tree)
    (hok : (∀ t ∈ form.tokens, t.Acceptable) → ∀ t ∈ form'.tokens, t.Acceptable)
    (hu : Token.signatures u = (before ++ (form.tokens ++ after)).map Token.signature)
    (hv : Token.signatures v = (before ++ (form'.tokens ++ after)).map Token.signature) :
    ReadAlike u v := by
  intro d forms hread
  rcases Outline.read_of_signature hu hread with ⟨forms₁, hread₁, htree₁⟩
  have hform : ∀ t ∈ form.tokens, t.Acceptable := fun t ht =>
    (Outline.tokens_read hread₁).2 t (by simp [ht])
  rcases Outline.read_of_exchange htree (hok hform) hread₁ with ⟨forms₂, hread₂, htree₂⟩
  rcases Outline.read_of_signature hv.symm hread₂ with ⟨forms₃, hread₃, htree₃⟩
  exact ⟨forms₃, hread₃, htree₁.trans (htree₂.trans htree₃)⟩

theorem SpellsOut.readAlike (h : SpellsOut u v) : ReadAlike u v ∧ ReadAlike v u := by
  rcases h with ⟨before, after, mark, opening, symbol, form, closing, hname, hu, hv⟩
  have htree : (Form.quoteList opening symbol form closing).tree = (Form.quote mark form).tree :=
    Form.tree_quoteList hname
  have hrole := Token.role_symbol (congrArg Prod.fst hname) (congrArg Prod.snd hname).symm
  constructor
  · apply ReadAlike.of_exchange htree.symm _ hu hv
    rw [Form.forall_tokens_quote, Form.forall_tokens_quoteList]
    intro hok
    exact ⟨⟨_, Token.role_leftParen opening.2⟩, ⟨_, hrole⟩, hok.2,
      ⟨_, Token.role_rightParen closing.2⟩⟩
  · apply ReadAlike.of_exchange htree _ hv hu
    rw [Form.forall_tokens_quote, Form.forall_tokens_quoteList]
    intro hok
    exact ⟨⟨_, Token.role_quote mark.2⟩, hok.2.2.1⟩

theorem readAlike_of_eqvGen (h : Relation.EqvGen SpellsOut u v) :
    ReadAlike u v ∧ ReadAlike v u := by
  induction h with
  | rel u v h => exact h.readAlike
  | refl u => exact ⟨.refl u, .refl u⟩
  | symm u v _ ih => exact ih.symm
  | trans u v w _ _ ihuv ihvw =>
    exact ⟨ihuv.1.trans ihvw.1, ihvw.2.trans ihuv.2⟩

theorem ReadAlike.exists_parse {limit : Option Nat} {r : Ref} (h : ReadAlike u v)
    (hr : (parse u { limit := limit } d).result = .ok r) :
    ∃ s, (parse v { limit := limit } d).result = .ok s ∧
      (parse u { limit := limit } d).arena.equal r
        (parse v { limit := limit } d).arena s = .ok true ∧
      (parse v { limit := limit } d).arena.size = (parse u { limit := limit } d).arena.size := by
  rcases parse_eq_ok_iff.1 hr with ⟨forms, hread, hroom, rfl⟩
  rcases h d forms hread with ⟨forms', hread', htree⟩
  have hsize := Outline.listSize_eq_of_read hread hread' htree
  have hroom' := hsize ▸ hroom
  refine ⟨_, parse_eq_ok_iff.2 ⟨forms', hread', hroom', rfl⟩, ?_, ?_⟩
  · rw [Arena.equal_eq (unfolds_parse hread hroom) (unfolds_parse hread' hroom'), htree,
      decide_eq_true rfl]
  · rw [size_parse hread hroom, size_parse hread' hroom', hsize]

theorem signatures_quoteListText {w₁ w₂ w₃ y z : Bytes} (hw₁ : IsBlank w₁) (hw₂ : IsBlank w₂)
    (hne : w₂ ≠ []) (hw₃ : IsBlank w₃) (hclosed : ∀ p ∈ Token.signatures y, Closed p.1 p.2) :
    Token.signatures (quoteListText w₁ w₂ y w₃ ++ z) =
      (.leftParen, [Byte.leftParen]) :: (.symbol, Utf8.encode "quote") ::
        (Token.signatures y ++ (.rightParen, [Byte.rightParen]) :: Token.signatures z) := by
  have hclosing : SetOff (w₃ ++ Byte.rightParen :: z) := by
    apply setOff_append hw₃
    rintro _ ⟨⟩
    rfl
  simp only [quoteListText, List.cons_append, List.append_assoc, List.nil_append]
  rw [Token.signatures_single rfl rfl, Token.signatures_of_isBlank hw₁,
    Token.signatures_quoteName (setOff_of_isBlank hw₂ hne _), Token.signatures_of_isBlank hw₂,
    Token.signatures_append hclosed hclosing, Token.signatures_of_isBlank hw₃,
    Token.signatures_single rfl rfl]

/-- Any quote mark in front of a form can be spelled out in the text. -/
theorem spellsOut_of_all {before after : List Token}
    (h : Token.all u = before ++ ((Form.quote mark form).tokens ++ after)) :
    ∃ x y z, u = x ++ Byte.apostrophe :: (y ++ z) ∧ x.length = mark.1.offset ∧
      Token.signatures y = form.tokens.map Token.signature ∧
      ∀ w₀ w₁ w₂ w₃ w₄, IsBlank w₀ → IsBlank w₁ → IsBlank w₂ → w₂ ≠ [] → IsBlank w₃ → IsBlank w₄ →
        SpellsOut u (x ++ (w₀ ++ (quoteListText w₁ w₂ y w₃ ++ (w₄ ++ z)))) := by
  have hu : Lexes u 0 (before ++ mark.1 :: (form.tokens ++ after)) := Lexes.iff_eq_all.2 h
  have hmem : mark.1 ∈ Token.all u := by simp [h, Form.tokens]
  have hmark := (Token.scanned_of_mem_all hmem).quote mark.2
  have hbefore := hu.closed_of_append
  have hform : ∀ t ∈ form.tokens, Closed t.kind t.text := fun t ht =>
    Lexeme.closed_of_ne_invalid (form.kind_ne_invalid t ht) t.text
  rcases hu.exists_cut hbefore with ⟨x, s, rfl, hlength, hx, hs⟩
  rcases hs.exists_rest with ⟨rest, rfl, hrest⟩
  rcases hrest.exists_split hform with ⟨y, z, rfl, hy, hz⟩
  have hsigx := Token.signatures_of_lexes hx
  have hsigy := Token.signatures_of_lexes hy
  refine ⟨x, y, z, ?_, ?_, hsigy, ?_⟩
  · rw [hmark]
    rfl
  · rw [← hlength, Nat.zero_add]
  intro w₀ w₁ w₂ w₃ w₄ hw₀ hw₁ hw₂ hne hw₃ hw₄
  have hopening : SetOff (w₀ ++ (quoteListText w₁ w₂ y w₃ ++ (w₄ ++ z))) := by
    apply setOff_append hw₀
    rintro _ ⟨⟩
    rfl
  have hsigv : Token.signatures (x ++ (w₀ ++ (quoteListText w₁ w₂ y w₃ ++ (w₄ ++ z)))) =
      before.map Token.signature ++ (.leftParen, [Byte.leftParen]) ::
        (.symbol, Utf8.encode "quote") :: (form.tokens.map Token.signature ++
          (.rightParen, [Byte.rightParen]) :: after.map Token.signature) := by
    rw [Token.signatures_append _ hopening, Token.signatures_of_isBlank hw₀,
      signatures_quoteListText hw₁ hw₂ hne hw₃, Token.signatures_of_isBlank hw₄, hsigx, hsigy,
      Token.signatures_of_lexes hz]
    · rw [hsigy]
      exact List.forall_mem_map.2 hform
    · rw [hsigx]
      exact List.forall_mem_map.2 hbefore
  refine .intro before after mark ⟨⟨.leftParen, [Byte.leftParen], 0⟩, rfl⟩
    ⟨⟨.symbol, Utf8.encode "quote", 0⟩, rfl⟩ form ⟨⟨.rightParen, [Byte.rightParen], 0⟩, rfl⟩ rfl
    (congrArg (List.map Token.signature) h) ?_
  rw [hsigv]
  simp [Form.quoteList, Form.tokens, Form.listTokens, Token.signature]

/-- A quote mark in front of a form is short for the list of the symbol `quote` and the form. Each
mark of a text can be spelled out so, with any blanks that set the tokens apart. However many forms
are spelled in the one way or the other, the texts are parsed into empty arenas with the same limits
on levels and nodes or not at all, and the results are equal and have as many nodes. -/
theorem parse_quote_spelled_out :
    (∀ (u : Bytes) (before after : List Token) (mark : Terminal .quote) (form : Form),
      Token.all u = before ++ ((Form.quote mark form).tokens ++ after) →
        ∃ x y z, u = x ++ Byte.apostrophe :: (y ++ z) ∧ x.length = mark.1.offset ∧
          Token.signatures y = form.tokens.map Token.signature ∧
          ∀ w₀ w₁ w₂ w₃ w₄, IsBlank w₀ → IsBlank w₁ → IsBlank w₂ → w₂ ≠ [] → IsBlank w₃ →
            IsBlank w₄ → SpellsOut u (x ++ (w₀ ++ (quoteListText w₁ w₂ y w₃ ++ (w₄ ++ z))))) ∧
    ∀ u v, Relation.EqvGen SpellsOut u v → ∀ (limit : Option Nat) (maxDepth : Nat),
      let short := parse u { limit := limit } maxDepth
      let long := parse v { limit := limit } maxDepth
      ((∃ r, short.result = .ok r) ↔ ∃ s, long.result = .ok s) ∧
        ∀ r s, short.result = .ok r → long.result = .ok s →
          short.arena.equal r long.arena s = .ok true ∧ long.arena.size = short.arena.size := by
  refine ⟨fun u before after mark form => spellsOut_of_all, ?_⟩
  intro u v h limit maxDepth short long
  rcases readAlike_of_eqvGen h with ⟨huv, hvu⟩
  refine ⟨⟨?_, ?_⟩, ?_⟩
  · rintro ⟨r, hr⟩
    rcases huv.exists_parse hr with ⟨s, hs, _⟩
    exact ⟨s, hs⟩
  · rintro ⟨s, hs⟩
    rcases hvu.exists_parse hs with ⟨r, hr, _⟩
    exact ⟨r, hr⟩
  · intro r s hr hs
    rcases huv.exists_parse hr with ⟨s', hs', hequal, hsize⟩
    cases hs.symm.trans hs'
    exact ⟨hequal, hsize⟩

/-- The inner mark of `''a`, which needs two levels and eight nodes in either spelling. -/
theorem parse_quote_spelled_out_below_quote :
    SpellsOut [39, 39, 97] (39 :: quoteListText [] [32] [97] []) ∧
      (∃ s, (parse (39 :: quoteListText [] [32] [97] []) { limit := some 8 } 2).result = .ok s ∧
        (parse [39, 39, 97] { limit := some 8 } 2).arena.equal ⟨8⟩
          (parse (39 :: quoteListText [] [32] [97] []) { limit := some 8 } 2).arena s = .ok true ∧
        (parse (39 :: quoteListText [] [32] [97] []) { limit := some 8 } 2).arena.size = 8) ∧
      (¬ ∃ s, (parse (39 :: quoteListText [] [32] [97] []) { limit := some 7 } 2).result = .ok s) ∧
      ¬ ∃ s,
        (parse (39 :: quoteListText [] [32] [97] []) { limit := some 8 } 1).result = .ok s := by
  have hall : Token.all [39, 39, 97] =
      [⟨.quote, [39], 0⟩, ⟨.quote, [39], 1⟩, ⟨.symbol, [97], 2⟩] :=
    Lexes.iff_eq_all.1 (.token rfl rfl (.token rfl rfl (.token rfl rfl .done)))
  have hspelled : SpellsOut [39, 39, 97] (39 :: quoteListText [] [32] [97] []) := by
    rcases parse_quote_spelled_out.1 [39, 39, 97] [⟨.quote, [39], 0⟩] [] ⟨⟨.quote, [39], 1⟩, rfl⟩
      (.atom ⟨⟨.symbol, [97], 2⟩, rfl⟩) hall with ⟨x, y, z, htext, hlength, hy, hspell⟩
    rcases List.length_eq_one_iff.1 hlength with ⟨c, rfl⟩
    rw [List.singleton_append, List.cons.injEq, List.cons.injEq] at htext
    rcases htext with ⟨rfl, _, hyz⟩
    have hne : y ≠ [] := by
      rintro rfl
      have hdone : Lexes [] 0 [] := .done
      rw [Token.signatures_of_lexes hdone] at hy
      cases hy
    cases y with
    | nil => exact absurd rfl hne
    | cons b y =>
      cases y <;> cases z <;> cases hyz
      exact hspell [] [] [32] [] [] (by decide) (by decide) (by decide) (by decide) (by decide)
        (by decide)
  have hparse := parse_quote_spelled_out.2 _ _ (.rel _ _ hspelled)
  have hshort : parse [39, 39, 97] { limit := some 8 } 2 =
      ⟨.ok ⟨8⟩, ⟨#[.symbol "a", .symbol "quote", .pair ⟨1⟩ Ref.nil, .pair ⟨2⟩ ⟨3⟩, .symbol "quote",
        .pair ⟨4⟩ Ref.nil, .pair ⟨5⟩ ⟨6⟩, .pair ⟨7⟩ Ref.nil], some 8⟩,
        Token.stream [39, 39, 97]⟩ := by
    rw [parse, Token.stream, hall]
    rfl
  refine ⟨hspelled, ?_, ?_, ?_⟩
  · have hfits := hparse (some 8) 2
    rw [hshort] at hfits ⊢
    rcases hfits.1.1 ⟨_, rfl⟩ with ⟨s, hs⟩
    exact ⟨s, hs, hfits.2 _ s rfl hs⟩
  · rw [← (hparse (some 7) 2).1]
    rintro ⟨r, hr⟩
    rw [parse, hall] at hr
    cases hr
  · rw [← (hparse (some 8) 1).1]
    rintro ⟨r, hr⟩
    rw [parse, hall] at hr
    cases hr

end Spelling

end Sexpr
