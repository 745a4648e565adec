import Sexpr.Proofs.Readable
import Sexpr.Proofs.TreeText

/-! # Reading what is written

The written form of a readable tree consists of the tokens of a form with the same tree, whatever
follows, as long as it is set off. The separators between the forms of a document set them off.
-/

namespace Sexpr

open Form (listTree listTokens)
open Lexeme (SetOff)

/-- The text is the text of a form with this tree wherever it is set off from what follows. -/
def ReadsAs (text : Bytes) (t : Tree) : Prop :=
  ∀ offset rest us, SetOff rest → Lexes rest (offset + text.length) us →
    ∃ form : Form, form.tree = t ∧ (∀ u ∈ form.tokens, u.Acceptable) ∧
      Lexes (text ++ rest) offset (form.tokens ++ us)

/-- The text is the text of the last elements of a list with this tree, and closes the list. -/
def ClosesAs (text : Bytes) (t : Tree) : Prop :=
  ∀ offset rest us, Lexes rest (offset + text.length) us →
    ∃ (forms : List Form) (closing : Terminal .rightParen), listTree forms = t ∧
      (∀ u ∈ listTokens forms, u.Acceptable) ∧
        Lexes (text ++ rest) offset (listTokens forms ++ closing.1 :: us)

variable {x y : Bytes} {t u : Tree}

theorem closesAs_nil : ClosesAs [Byte.rightParen] .nil := by
  intro offset rest us h
  exact ⟨[], ⟨⟨.rightParen, [Byte.rightParen], offset⟩, rfl⟩, rfl, by simp [listTokens],
    .token rfl rfl h⟩

theorem closesAs_pair (hx : ReadsAs x t) (hy : ClosesAs y u) (hoff : ∀ rest, SetOff (y ++ rest)) :
    ClosesAs (x ++ y) (.pair t u) := by
  intro offset rest us h
  rw [List.length_append, ← Nat.add_assoc] at h
  rcases hy (offset + x.length) rest us h with ⟨forms, closing, hforms, hok, htail⟩
  rcases hx offset (y ++ rest) _ (hoff rest) htail with ⟨form, hform, hhead, hlexes⟩
  refine ⟨form :: forms, closing, ?_, Form.forall_listTokens_cons.2 ⟨hhead, hok⟩, ?_⟩
  · rw [listTree, hform, hforms]
  · rwa [List.append_assoc, listTokens, List.append_assoc]

theorem closesAs_space (h : ClosesAs x t) : ClosesAs (Byte.space :: x) t := by
  intro offset rest us hrest
  rw [List.length_cons, Nat.add_comm x.length, ← Nat.add_assoc] at hrest
  rcases h (offset + 1) rest us hrest with ⟨forms, closing, hforms, hok, hlexes⟩
  exact ⟨forms, closing, hforms, hok, .blank rfl hlexes⟩

theorem readsAs_list (h : ClosesAs x t) : ReadsAs (Byte.leftParen :: x) t := by
  intro offset rest us _ hrest
  rw [List.length_cons, Nat.add_comm x.length, ← Nat.add_assoc] at hrest
  rcases h (offset + 1) rest us hrest with ⟨forms, closing, hforms, hok, hlexes⟩
  refine ⟨.list ⟨⟨.leftParen, [Byte.leftParen], offset⟩, rfl⟩ forms closing, hforms, ?_, ?_⟩
  · rw [Form.forall_tokens_list]
    exact ⟨⟨_, Token.role_leftParen rfl⟩, hok, ⟨_, Token.role_rightParen closing.2⟩⟩
  · simp only [Form.tokens, List.cons_append, List.append_assoc, List.nil_append]
    exact .token rfl rfl hlexes

theorem readsAs_atom {b : UInt8} {s : Bytes} {k : Token.Kind} {node : Node}
    (hscan : Lexeme.scan (b :: s) = ⟨k, x, []⟩)
    (hrole : ∀ offset, Token.role ⟨k, x, offset⟩ = .ok (.atom node)) :
    ReadsAs x (.ofAtom node) := by
  intro offset rest us hoff hrest
  have hok : Token.Acceptable ⟨k, x, offset⟩ := ⟨_, hrole offset⟩
  refine ⟨.atom ⟨⟨k, x, offset⟩, Token.suits_of_role (hrole offset)⟩, ?_, ?_, ?_⟩
  · rw [Form.tree, Form.node_of_role (hrole offset)]
  · exact Form.forall_tokens_atom.2 hok
  · have hscan' := Lexeme.scan_append_of_ends hscan
      (Lexeme.closed_of_ne_invalid hok.kind_ne_invalid x) (hoff.ends k)
    exact .cons (Lexeme.isBlank_eq_false_of_scan hscan hok.kind_ne_invalid) hscan hscan' hrest

theorem readsAs_string (contents : Bytes) :
    ReadsAs (Escape.literal contents) (.string contents) := by
  have hrole (offset : Nat) : Token.role ⟨.string, Escape.literal contents, offset⟩ =
      .ok (.atom (.string contents)) := by
    rw [Token.role_string rfl rfl, Escape.decode_encode]
  exact readsAs_atom (Lexeme.scan_literal contents) hrole

theorem readsAs_symbol {name : String} (h : SymbolText (Utf8.encode name)) :
    ReadsAs (Utf8.encode name) (.symbol name) := by
  have hrole (offset : Nat) : Token.role ⟨.symbol, Utf8.encode name, offset⟩ =
      .ok (.atom (.symbol name)) := Token.role_symbol rfl rfl
  cases htext : Utf8.encode name with
  | nil => exact absurd htext h.nonempty
  | cons b s =>
    rw [htext] at h hrole
    exact readsAs_atom (Lexeme.scan_symbolText h) hrole

theorem readsAs_integer (v : Int64) : ReadsAs (Decimal.print v) (.integer v) := by
  have hrole (offset : Nat) : Token.role ⟨.integer, Decimal.print v, offset⟩ =
      .ok (.atom (.integer v)) := Token.role_integer rfl (Decimal.read?_print v)
  have hscan : Lexeme.scan (Decimal.print v) = ⟨.integer, Decimal.print v, []⟩ :=
    Lexeme.scan_numeral (Decimal.numeral_ofInt v.toInt)
  cases htext : Decimal.print v with
  | nil =>
    rw [htext] at hscan
    cases hscan
  | cons b s =>
    rw [htext] at hscan hrole
    exact readsAs_atom hscan hrole

theorem setOff_tailText (t : Tree) (rest : Bytes) : SetOff (t.tailText ++ rest) := by
  intro b hb
  cases t <;> cases hb <;> rfl

/-- What is written of a readable tree is read as this tree. -/
theorem readsAs_text (h : t.Readable) :
    ReadsAs t.text t ∧ (t.IsList → ClosesAs t.tailText t) := by
  induction t with
  | nil => exact ⟨readsAs_list closesAs_nil, fun _ => closesAs_nil⟩
  | pair first rest ihfirst ihrest =>
    have hitems := closesAs_pair (ihfirst h.1).1 ((ihrest h.2.1).2 h.2.2) (setOff_tailText rest)
    exact ⟨readsAs_list hitems, fun _ => closesAs_space hitems⟩
  | string contents => exact ⟨readsAs_string contents, False.elim⟩
  | symbol name => exact ⟨readsAs_symbol h, False.elim⟩
  | integer v => exact ⟨readsAs_integer v, False.elim⟩

theorem lexes_of_blank {separator : Bytes} (hblank : ∀ b ∈ separator, Byte.isBlank b = true)
    {rest : Bytes} {offset : Nat} {ts : List Token}
    (h : Lexes rest (offset + separator.length) ts) : Lexes (separator ++ rest) offset ts := by
  induction separator generalizing offset with
  | nil => exact h
  | cons b separator ih =>
    rw [List.length_cons, Nat.add_comm separator.length, ← Nat.add_assoc] at h
    exact .blank (hblank b List.mem_cons_self)
      (ih (fun c hc => hblank c (List.mem_cons_of_mem _ hc)) h)

theorem lexes_framedText {ts : List Tree} (hts : ∀ t ∈ ts, t.Readable) (separator : Bytes)
    (hblank : ∀ b ∈ separator, Byte.isBlank b = true) (offset : Nat) :
    ∃ forms : List Form, forms.map Form.tree = ts ∧ (∀ u ∈ listTokens forms, u.Acceptable) ∧
      Lexes (Tree.framedText separator ts) offset (listTokens forms) := by
  induction ts generalizing separator offset with
  | nil => exact ⟨[], rfl, by simp [listTokens], .done⟩
  | cons t ts ih =>
    have hnewline : ∀ b ∈ [Byte.newline], Byte.isBlank b = true :=
      List.forall_mem_singleton.2 rfl
    rcases ih (fun u hu => hts u (List.mem_cons_of_mem _ hu)) [Byte.newline] hnewline
      (offset + separator.length + t.text.length + 1) with ⟨forms, hforms, hok, htail⟩
    have hoff : SetOff (Byte.newline :: Tree.framedText [Byte.newline] ts) := by
      intro b hb
      cases hb
      rfl
    rcases (readsAs_text (hts t List.mem_cons_self)).1 (offset + separator.length) _ _ hoff
      (.blank rfl htail) with ⟨form, hform, hhead, hlexes⟩
    refine ⟨form :: forms, ?_, Form.forall_listTokens_cons.2 ⟨hhead, hok⟩, ?_⟩
    · rw [List.map_cons, hform, hforms]
    · rw [Tree.framedText, List.append_assoc, List.append_assoc]
      exact lexes_of_blank hblank hlexes

theorem exists_derived_text (h : t.Readable) : ∃ form : Form, form.tree = t ∧
    (∀ u ∈ form.tokens, u.Acceptable) ∧ listTokens [form] = Token.all t.text := by
  rcases (readsAs_text h).1 0 [] [] Lexeme.setOff_nil .done with ⟨form, hform, hok, hlexes⟩
  rw [List.append_nil] at hlexes
  exact ⟨form, hform, hok, (Lexes.iff_eq_all.1 hlexes).symm⟩

theorem exists_derived_documentText {ts : List Tree} (h : ∀ t ∈ ts, t.Readable) :
    ∃ forms : List Form, forms.map Form.tree = ts ∧ (∀ u ∈ listTokens forms, u.Acceptable) ∧
      listTokens forms = Token.all (Tree.documentText ts) := by
  rcases lexes_framedText h [] (by simp) 0 with ⟨forms, hforms, hok, hlexes⟩
  exact ⟨forms, hforms, hok, (Lexes.iff_eq_all.1 hlexes).symm⟩

end Sexpr
