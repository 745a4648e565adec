import Mathlib.Data.List.MinMax
import Sexpr.Proofs.CanonicalLiteral
import Sexpr.Proofs.Cells
import Sexpr.Proofs.Identity

/-! # The paragraphs of a written document

What is written of parsed forms has printable bytes only, so every form takes up exactly one line
and no line of a form is empty. Cutting the document at its empty lines gives back the texts of the
forms, and each of them is parsed by itself with the levels that the document was parsed with.
-/

namespace Sexpr

open Escape (IsPrintable)
open Form (listTokens listTree listDepth)

/-- The rows of lines of a text that empty lines set off. -/
def Document.paragraphs (text : Bytes) : List (List Bytes) :=
  ((text.splitOn Byte.newline).splitOn []).filter (· ≠ [])

section Printable

variable {text : Bytes} {n : Int} {t : Tree}

theorem Escape.printable_of_isSymbolic {b : UInt8} (h : Byte.isSymbolic b = true) :
    IsPrintable b := by
  revert b
  apply Byte.forall_of_fin
  decide +kernel

theorem Escape.printable_of_isDigit {b : UInt8} (h : Byte.isDigit b = true) : IsPrintable b := by
  revert b
  apply Byte.forall_of_fin
  decide +kernel

theorem Escape.printable_literal (contents : Bytes) : ∀ b ∈ literal contents, IsPrintable b := by
  have hmark : IsPrintable Byte.quotation := by decide
  rw [literal, List.forall_mem_append, List.forall_mem_cons, List.forall_mem_singleton]
  exact ⟨⟨hmark, printable_encode contents⟩, hmark⟩

theorem Decimal.Numeral.printable (h : Numeral text n) :
    text ≠ [] ∧ ∀ b ∈ text, IsPrintable b := by
  have hdigits {ds : Bytes} (hds : ∀ b ∈ ds, Byte.isDigit b = true) : ∀ b ∈ ds, IsPrintable b :=
    fun b hb => Escape.printable_of_isDigit (hds b hb)
  cases h with
  | plain hne hds => exact ⟨hne, hdigits hds⟩
  | minus hne hds => exact ⟨List.cons_ne_nil _ _, List.forall_mem_cons.2 ⟨by decide, hdigits hds⟩⟩

theorem Tree.printable_atomText (h : t.Readable) : ∀ b ∈ t.atomText, IsPrintable b := by
  cases t with
  | nil => exact List.forall_mem_cons.2 ⟨by decide, List.forall_mem_singleton.2 (by decide)⟩
  | pair => exact fun _ hb => absurd hb List.not_mem_nil
  | string contents => exact Escape.printable_literal contents
  | symbol name => exact fun b hb => Escape.printable_of_isSymbolic (h.symbolic b hb)
  | integer v => exact (Decimal.numeral_ofInt v.toInt).printable.2

theorem Tree.printable_text (h : t.Readable) :
    (∀ b ∈ t.text, IsPrintable b) ∧ ∀ b ∈ t.tailText, IsPrintable b := by
  induction t with
  | nil => exact ⟨printable_atomText h, List.forall_mem_singleton.2 (by decide)⟩
  | pair first rest ihfirst ihrest =>
    have hfirst := (ihfirst h.1).1
    have hrest := (ihrest h.2.1).2
    simp only [text, tailText, List.cons_append, List.forall_mem_cons, List.forall_mem_append]
    exact ⟨⟨by decide, hfirst, hrest⟩, by decide, hfirst, hrest⟩
  | _ =>
    have hatom := printable_atomText h
    have hspace : IsPrintable Byte.space := by decide
    simp only [text, tailText, List.forall_mem_append, List.forall_mem_cons]
    exact ⟨hatom, ⟨⟨hspace, by decide, hspace, List.forall_mem_nil _⟩, hatom⟩, by decide,
      List.forall_mem_nil _⟩

theorem Tree.text_ne_nil (h : t.Readable) : t.text ≠ [] := by
  cases t with
  | nil | pair | string => exact List.cons_ne_nil _ _
  | symbol name => exact h.nonempty
  | integer v => exact (Decimal.numeral_ofInt v.toInt).printable.1

theorem Tree.printable_framedText {ts : List Tree} (h : ∀ t ∈ ts, t.Readable) {separator : Bytes}
    (hseparator : ∀ b ∈ separator, b = Byte.newline) :
    ∀ b ∈ framedText separator ts, b = Byte.newline ∨ IsPrintable b := by
  induction ts generalizing separator with
  | nil => exact fun _ hb => absurd hb List.not_mem_nil
  | cons t ts ih =>
    rw [List.forall_mem_cons] at h
    have htext := (printable_text h.1).1
    have hlater := ih h.2 (List.forall_mem_singleton.2 rfl)
    rw [framedText, List.forall_mem_append, List.forall_mem_append, List.forall_mem_append,
      List.forall_mem_singleton]
    exact ⟨⟨⟨fun b hb => .inl (hseparator b hb), fun b hb => .inr (htext b hb)⟩, .inl rfl⟩, hlater⟩

theorem Tree.newline_not_mem_text (h : t.Readable) : Byte.newline ∉ t.text := by
  intro hmem
  exact absurd ((printable_text h).1 _ hmem) (by decide)

end Printable

section Framing

variable {texts : List Bytes}

theorem Tree.documentText_of_ne_nil {ts : List Tree} (h : ts ≠ []) : documentText ts =
    [Byte.newline, Byte.newline].intercalate (ts.map text) ++ [Byte.newline] := by
  induction ts with
  | nil => exact absurd rfl h
  | cons t ts ih =>
    cases ts with
    | nil => simp
    | cons u ts =>
      rw [documentText_cons_cons, ih (List.cons_ne_nil u ts)]
      simp [List.intercalate_cons_cons]

def Document.lines (texts : List Bytes) : List Bytes := [[]].intercalate (texts.map ([·]) ++ [[]])

theorem Document.lines_cons (text : Bytes) (texts : List Bytes) :
    lines (text :: texts) = text :: [] :: lines texts := by
  have hne : texts.map ([·]) ++ [[]] ≠ [] := List.append_ne_nil_of_right_ne_nil _ (by simp)
  rw [lines, List.map_cons, List.cons_append, List.intercalate_cons_of_ne_nil hne]
  rfl

theorem Document.lines_ne_nil (h : texts ≠ []) : lines texts ≠ [] := by
  cases texts with
  | nil => exact absurd rfl h
  | cons text texts =>
    rw [lines_cons]
    exact List.cons_ne_nil _ _

theorem Document.intercalate_lines (h : texts ≠ []) :
    [Byte.newline].intercalate (lines texts) =
      [Byte.newline, Byte.newline].intercalate texts ++ [Byte.newline] := by
  induction texts with
  | nil => exact absurd rfl h
  | cons text texts ih =>
    rw [lines_cons, List.intercalate_cons_cons]
    by_cases hlast : texts = []
    · subst hlast
      simp [lines]
    · rw [List.intercalate_cons_of_ne_nil (lines_ne_nil hlast), ih hlast,
        List.intercalate_cons_of_ne_nil hlast]
      simp

theorem Document.paragraphs_framed (hne : texts ≠ [])
    (h : ∀ text ∈ texts, text ≠ [] ∧ Byte.newline ∉ text) :
    paragraphs ([Byte.newline, Byte.newline].intercalate texts ++ [Byte.newline]) =
      texts.map ([·]) := by
  have hlines : ∀ line ∈ lines texts, Byte.newline ∉ line := by
    clear hne
    induction texts with
    | nil => simp [lines]
    | cons text texts ih =>
      rw [List.forall_mem_cons] at h
      rw [lines_cons, List.forall_mem_cons, List.forall_mem_cons]
      exact ⟨h.1.2, List.not_mem_nil, ih h.2⟩
  have hrows : ∀ row ∈ texts.map ([·]) ++ [[]], [] ∉ row := by
    rw [List.forall_mem_append, List.forall_mem_map]
    refine ⟨fun text htext => ?_, by simp⟩
    simpa using (h text htext).1.symm
  rw [paragraphs, ← intercalate_lines hne, List.splitOn_intercalate _ hlines (lines_ne_nil hne),
    lines, List.splitOn_intercalate _ hrows (List.append_ne_nil_of_right_ne_nil _ (by simp))]
  have hkept : (texts.map ([·])).filter (· ≠ []) = texts.map ([·]) := by
    rw [List.filter_eq_self, List.forall_mem_map]
    simp
  rw [List.filter_append, hkept]
  simp

end Framing

section Parsed

variable {a c : Arena} {r : Ref} {t : Tree} {input : Bytes} {d : Nat}

theorem Tree.depth_lt_of_mem {ts : List Tree} (h : t ∈ ts) : t.depth < (ofList ts).depth := by
  rw [depth_ofList, Nat.lt_succ_iff]
  exact List.le_max_of_le' 0 (List.mem_map_of_mem h) le_rfl

theorem Tree.size_lt_of_mem {ts : List Tree} (h : t ∈ ts) : t.size < (ofList ts).size := by
  induction ts with
  | nil => exact absurd h List.not_mem_nil
  | cons u ts ih =>
    rw [ofList, size]
    obtain rfl | hmem := List.mem_cons.1 h
    · omega
    · have hlt := ih hmem
      omega

theorem bounds_of_read {forms : List Form}
    (h : (Outline.top []).read d (Token.all input) = .ok (.top forms)) :
    ∀ t ∈ forms.map Form.tree, t.depth ≤ d ∧ t.size < Form.listSize forms := by
  intro t ht
  obtain ⟨htokens, hok, hdepth⟩ := Outline.read_eq_top_iff.1 h
  have hlt := Tree.depth_lt_of_mem ht
  have hsize := Tree.size_lt_of_mem ht
  rw [← Form.listTree_eq, Form.depth_listTree forms (htokens ▸ hok)] at hlt
  rw [← Form.listTree_eq, Form.size_listTree forms (htokens ▸ hok)] at hsize
  exact ⟨(Nat.le_of_lt_succ hlt).trans hdepth, hsize⟩

theorem exists_trees_of_parse (h : (parse input a d).result = .ok r) :
    ∃ ts, (∀ t ∈ ts, t.Readable ∧ t.depth ≤ d ∧ t.size < (parse input a d).arena.size - a.size) ∧
      a.HasRoom ((parse input a d).arena.size - a.size) ∧
      (parse input a d).arena.Unfolds r (.ofList ts) := by
  obtain ⟨forms, hread, hreadable, hroom, hunfolds, hsize⟩ := exists_forms_of_parse h
  have hbounds := bounds_of_read hread
  rw [hsize, Nat.add_sub_cancel_left]
  exact ⟨_, fun t ht => ⟨hreadable t ht, hbounds t ht⟩, hroom, hunfolds⟩

theorem parse_text (hreadable : t.Readable) (hdepth : t.depth ≤ d)
    (hroom : a.HasRoom (t.size + 1)) :
    ∃ r, (parse t.text a d).result = .ok r ∧
      (parse t.text a d).arena.Unfolds r (.ofList [t]) := by
  obtain ⟨form, rfl, hok, htokens⟩ := exists_derived_text hreadable
  rw [Form.depth_tree form hok] at hdepth
  rw [Form.size_tree form hok] at hroom
  have hok' : ∀ u ∈ listTokens [form], u.Acceptable := by
    rwa [listTokens, listTokens, List.append_nil]
  have hdepth' : listDepth [form] ≤ d := by
    rwa [listDepth, listDepth, Nat.max_zero]
  obtain ⟨r, hr, hunfolds, _⟩ := parse_of_derived htokens hok' hdepth' hroom
  exact ⟨r, hr, hunfolds⟩

end Parsed

/-- Parsed forms are written in printable bytes, one form on a line and an empty line between two of
them. No form has an empty text, and no text of a form has a newline, so the document falls into the
texts of the forms at its empty lines. Each of these is parsed by itself, with the levels that the
whole was parsed with, into a list of one form, which is equal to the one that was written. A fresh
arena will do for this, or any that has room for as many nodes as were added for the whole. -/
theorem writeAll_frames_parsed_forms (input : Bytes) (a : Arena) (maxDepth : Nat) {r : Ref}
    (h : (parse input a maxDepth).result = .ok r) :
    let arena := (parse input a maxDepth).arena
    ∃ forms texts output, arena.items r = .ok forms ∧
      List.Forall₂ (fun form text => arena.print form = .ok text) forms texts ∧
      Document.writeAll Device.sink {} arena r = ⟨output, .ok (), { flushes := 1 }⟩ ∧
      (∀ b ∈ output, b = Byte.newline ∨ 0x20 ≤ b ∧ b ≤ 0x7e) ∧
      (output = [] ↔ forms = []) ∧
      (forms ≠ [] →
        output = [Byte.newline, Byte.newline].intercalate texts ++ [Byte.newline]) ∧
      (∀ text ∈ texts, text ≠ [] ∧ Byte.newline ∉ text) ∧
      Document.paragraphs output = texts.map ([·]) ∧
      ({} : Arena).HasRoom (arena.size - a.size) ∧
      List.Forall₂ (fun form text => ∀ b : Arena, b.HasRoom (arena.size - a.size) →
        ∃ s e, (parse text b maxDepth).result = .ok s ∧
          (parse text b maxDepth).arena.IsSingleton s e ∧
            arena.equal form (parse text b maxDepth).arena e = .ok true) forms texts := by
  intro arena
  obtain ⟨ts, hts, hroom, hunfolds⟩ := exists_trees_of_parse h
  have hreadable : ∀ t ∈ ts, t.Readable := fun t ht => (hts t ht).1
  obtain ⟨items, hitems, htrees⟩ := Arena.items_eq hunfolds
  rw [Tree.elements_ofList] at htrees
  have htexts : ∀ text ∈ ts.map Tree.text, text ≠ [] ∧ Byte.newline ∉ text := by
    rw [List.forall_mem_map]
    exact fun t ht =>
      ⟨Tree.text_ne_nil (hreadable t ht), Tree.newline_not_mem_text (hreadable t ht)⟩
  have hempty : items = [] ↔ ts = [] := by
    rw [← List.length_eq_zero_iff, htrees.length_eq, List.length_eq_zero_iff]
  refine ⟨items, ts.map Tree.text, Tree.documentText ts, hitems, ?_,
    Document.writeAll_unbounded hunfolds, ?_, ?_, ?_, htexts, ?_, ?_, ?_⟩
  · rw [List.forall₂_map_right_iff]
    exact htrees.imp fun _ _ => Arena.print_eq
  · exact Tree.printable_framedText hreadable fun _ hb => absurd hb List.not_mem_nil
  · rw [hempty]
    cases ts with
    | nil => exact iff_of_true rfl rfl
    | cons t ts => simp [Tree.documentText, Tree.framedText]
  · rw [Ne, hempty]
    exact Tree.documentText_of_ne_nil
  · by_cases hne : ts = []
    · subst hne
      rfl
    · rw [Tree.documentText_of_ne_nil hne]
      exact Document.paragraphs_framed (by simpa using hne) htexts
  · exact Arena.hasRoom_empty.2 (hroom.trans ((Nat.sub_le _ _).trans a.capacity_le_mostNodes))
  · rw [List.forall₂_map_right_iff]
    apply ((List.forall₂_and_left _ _).2 ⟨hts, htrees.flip⟩).flip.imp
    rintro form t ⟨⟨hreadable, hdepth, hsize⟩, hform⟩ b hroom
    obtain ⟨s, hs, hlist⟩ := parse_text hreadable hdepth (hroom.mono hsize)
    obtain ⟨e, he, hagain⟩ := hlist.isSingleton
    exact ⟨s, e, hs, he, by rw [Arena.equal_eq hform hagain, decide_eq_true rfl]⟩

/-- A quoted symbol and a symbol on one line are written as two paragraphs. -/
theorem writeAll_frames_parsed_forms_two_symbols :
    let p := parse [39, 97, 32, 98] {} 1
    p.result = .ok ⟨5⟩ ∧
      ∃ output, Document.writeAll Device.sink {} p.arena ⟨5⟩ =
          ⟨output, .ok (), { flushes := 1 }⟩ ∧
        Document.paragraphs output = [[[40, 113, 117, 111, 116, 101, 32, 97, 41]], [[98]]] := by
  intro p
  have hparse : p = ⟨.ok ⟨5⟩, ⟨#[.symbol "a", .symbol "quote", .pair ⟨1⟩ Ref.nil, .pair ⟨2⟩ ⟨3⟩,
      .pair ⟨4⟩ ⟨7⟩, .symbol "b", .pair ⟨6⟩ Ref.nil], none⟩, Token.stream [39, 97, 32, 98]⟩ := by
    have hall : Token.all [39, 97, 32, 98] =
        [⟨.quote, [39], 0⟩, ⟨.symbol, [97], 1⟩, ⟨.symbol, [98], 3⟩] :=
      Lexes.iff_eq_all.1 (.token rfl rfl (.token rfl rfl (.blank rfl (.token rfl rfl .done))))
    simp only [p]
    rw [parse, Token.stream, hall]
    rfl
  have hresult : p.result = .ok ⟨5⟩ := by rw [hparse]
  have hitems : p.arena.items ⟨5⟩ = .ok [⟨4⟩, ⟨6⟩] := by
    rw [hparse]
    rfl
  have hquote : p.arena.print ⟨4⟩ = .ok [40, 113, 117, 111, 116, 101, 32, 97, 41] := by
    rw [hparse]
    rfl
  have hsymbol : p.arena.print ⟨6⟩ = .ok [98] := by
    rw [hparse]
    rfl
  obtain ⟨forms, texts, output, hforms, hprints, hwritten, _, _, _, _, hparagraphs, _⟩ :=
    writeAll_frames_parsed_forms [39, 97, 32, 98] {} 1 hresult
  cases hitems.symm.trans hforms
  cases hprints with
  | cons htext hprints =>
    cases hprints with
    | cons hother hprints =>
      cases hprints
      cases hquote.symm.trans htext
      cases hsymbol.symm.trans hother
      exact ⟨hresult, output, hwritten, hparagraphs⟩

end Sexpr
