import Sexpr.Proofs.Building
import Sexpr.Proofs.Rereading

/-! # Printing and parsing

Printing a value and parsing the text yields an equal value again if and only if the value is
readable, and the levels that parsing needs are the depth of the value. A document that is written
for the result of a parse is parsed with the same levels into an equal result of the same size, so
writing it again changes nothing.
-/

namespace Sexpr

open Form (listTree listTokens listDepth listSize listRef listNodes)

variable {a : Arena} {input : Bytes} {d : Nat} {forms : List Form}

def Arena.IsSingleton (a : Arena) (r element : Ref) : Prop :=
  ∃ rest, a.get? r = some (.pair element rest) ∧ a.get? rest = some .nil

theorem parse_of_derived (htokens : listTokens forms = Token.all input)
    (hok : ∀ t ∈ listTokens forms, t.Acceptable) (hdepth : listDepth forms ≤ d)
    (hroom : a.HasRoom (listSize forms)) :
    ∃ r, (parse input a d).result = .ok r ∧
      (parse input a d).arena.Unfolds r (listTree forms) ∧
        (parse input a d).arena.size = a.size + listSize forms := by
  have hread := Outline.read_eq_top_iff.2 ⟨htokens, htokens ▸ hok, hdepth⟩
  exact ⟨_, parse_eq_ok_iff.2 ⟨forms, hread, hroom, rfl⟩, unfolds_parse hread hroom,
    size_parse hread hroom⟩

theorem parse_too_deep (htokens : listTokens forms = Token.all input)
    (hok : ∀ t ∈ listTokens forms, t.Acceptable) (hdepth : d < listDepth forms)
    (hroom : a.HasRoom (listSize forms)) :
    ∃ e, (parse input a d).result = .error (.failure e) ∧ e.cause = .nestingTooDeep := by
  rcases (Outline.leads_placeAll d forms (.top []) trivial hok).2 hdepth with ⟨t, ht⟩
  rw [← Form.tokenCost_listTokens] at hroom
  rw [htokens] at ht hroom
  exact ⟨_, result_parse_of_error hroom ht, rfl⟩

theorem readable_of_read (h : (Outline.top []).read d (Token.all input) = .ok (.top forms)) :
    (listTree forms).Readable := by
  rcases Outline.read_eq_top_iff.1 h with ⟨htokens, hok, _⟩
  apply Form.readable_listTree
  intro t ht
  rw [htokens] at ht
  exact ⟨Token.scanned_of_mem_all ht, hok t ht⟩

theorem Arena.IsSingleton.unfolds {r e : Ref} {t : Tree} (he : a.IsSingleton r e)
    (h : a.Unfolds r t) : ∃ u, t = .ofList [u] ∧ a.Unfolds e u := by
  rcases he with ⟨rest, hnode, hrest⟩
  cases h with
  | pair h hfirst htail =>
    cases h.symm.trans hnode
    cases htail.unique (.nil hrest)
    exact ⟨_, rfl, hfirst⟩
  | _ h => cases h.symm.trans hnode

theorem Arena.Unfolds.isSingleton {r : Ref} {u : Tree} (h : a.Unfolds r (.ofList [u])) :
    ∃ e, a.IsSingleton r e ∧ a.Unfolds e u := by
  cases h with
  | pair h hfirst hrest =>
    cases hrest with
    | nil hrest => exact ⟨_, ⟨_, h, hrest⟩, hfirst⟩

/-- A value without missing nodes and circles can always be printed. If it is readable and an arena
can hold its nodes and the cell of a list around it, the text is parsed exactly if as many levels
are allowed as the value is deep, into one form that is equal to the value; otherwise the nesting is
too deep. If it is not readable, no form that the text is parsed into is equal to it. -/
theorem parse_print_equal_iff_readable (a : Arena) (v : Ref) (h : a.Sound v) :
    ∃ t text, a.Unfolds v t ∧ a.print v = .ok text ∧
      (a.Readable v → t.size < Arena.mostNodes → ∀ maxDepth,
        (t.depth ≤ maxDepth → ∃ r e, (parse text {} maxDepth).result = .ok r ∧
          (parse text {} maxDepth).arena.IsSingleton r e ∧
          a.equal v (parse text {} maxDepth).arena e = .ok true) ∧
        (maxDepth < t.depth → ∃ e, (parse text {} maxDepth).result = .error (.failure e) ∧
          e.cause = .nestingTooDeep)) ∧
      (¬ a.Readable v → ∀ maxDepth r e, (parse text {} maxDepth).result = .ok r →
        (parse text {} maxDepth).arena.IsSingleton r e →
          a.equal v (parse text {} maxDepth).arena e = .ok false) := by
  rcases h.exists_unfolds with ⟨t, ht⟩
  refine ⟨t, t.text, ht, Arena.print_eq ht, ?_, ?_⟩
  · intro hreadable hsize maxDepth
    rcases exists_derived_text ((Arena.readable_iff ht).1 hreadable) with ⟨form, rfl, hok, htokens⟩
    have hdepth : form.tree.depth = listDepth [form] := by
      rw [Form.depth_tree form hok, listDepth, listDepth, Nat.max_zero]
    have hok' : ∀ u ∈ listTokens [form], u.Acceptable := by
      rwa [listTokens, listTokens, List.append_nil]
    have hroom : ({} : Arena).HasRoom (listSize [form]) := by
      rw [Form.size_tree form hok] at hsize
      exact Arena.hasRoom_empty.2 hsize
    constructor
    · intro hle
      rcases parse_of_derived htokens hok' (hdepth ▸ hle) hroom with ⟨r, hr, hunfolds, _⟩
      rcases Arena.Unfolds.isSingleton hunfolds with ⟨e, he, hform⟩
      refine ⟨r, e, hr, he, ?_⟩
      rw [Arena.equal_eq ht hform, decide_eq_true rfl]
    · intro hlt
      exact parse_too_deep htokens hok' (hdepth ▸ hlt) hroom
  · intro hreadable maxDepth r e hr he
    rcases parse_eq_ok_iff.1 hr with ⟨forms, hread, hroom, rfl⟩
    rcases he.unfolds (unfolds_parse hread hroom) with ⟨u, hu, hform⟩
    have hall := readable_of_read hread
    rw [hu, Tree.readable_ofList] at hall
    have hne : t ≠ u := by
      rintro rfl
      exact hreadable ((Arena.readable_iff ht).2 (hall t (List.mem_singleton_self t)))
    rw [Arena.equal_eq ht hform, decide_eq_false hne]

/-- The list `((a) a)`, of which the last cell is shared, and the pair `(a . a)`. -/
def listAndPair : Arena :=
  { nodes := #[.symbol "a", .pair ⟨1⟩ Ref.nil, .pair ⟨2⟩ ⟨2⟩, .pair ⟨1⟩ ⟨1⟩] }

theorem listAndPair.unfolds_list :
    listAndPair.Unfolds ⟨3⟩ (.ofList [.ofList [.symbol "a"], .symbol "a"]) := by
  have hcell : listAndPair.Unfolds ⟨2⟩ (.ofList [.symbol "a"]) :=
    .pair rfl (.symbol rfl) (.nil rfl)
  exact .pair rfl hcell hcell

theorem listAndPair.unfolds_pair : listAndPair.Unfolds ⟨4⟩ (.pair (.symbol "a") (.symbol "a")) :=
  .pair rfl (.symbol rfl) (.symbol rfl)

theorem listAndPair.readable_list : listAndPair.Readable ⟨3⟩ := by
  have hsymbol : SymbolText (Utf8.encode "a") := by decide
  rw [Arena.readable_iff listAndPair.unfolds_list]
  simp [Tree.ofList, Tree.Readable, Tree.IsList, hsymbol]

theorem listAndPair.not_readable_pair : ¬ listAndPair.Readable ⟨4⟩ := by
  rw [Arena.readable_iff listAndPair.unfolds_pair]
  exact fun h => h.2.2

theorem parse_print_listAndPair :
    (listAndPair.Sound ⟨3⟩ ∧ listAndPair.Readable ⟨3⟩ ∧
      ∃ text, listAndPair.print ⟨3⟩ = .ok text ∧
        (∃ r e, (parse text {} 2).result = .ok r ∧ (parse text {} 2).arena.IsSingleton r e ∧
          listAndPair.equal ⟨3⟩ (parse text {} 2).arena e = .ok true) ∧
        ∃ e, (parse text {} 1).result = .error (.failure e) ∧ e.cause = .nestingTooDeep) ∧
    listAndPair.Sound ⟨4⟩ ∧ ¬ listAndPair.Readable ⟨4⟩ ∧
      ∃ text, listAndPair.print ⟨4⟩ = .ok text ∧ (parse text {} 1).result = .ok ⟨7⟩ ∧
        (parse text {} 1).arena.IsSingleton ⟨7⟩ ⟨2⟩ ∧
          listAndPair.equal ⟨4⟩ (parse text {} 1).arena ⟨2⟩ = .ok false := by
  constructor
  · have hsound := listAndPair.unfolds_list.sound
    rcases parse_print_equal_iff_readable listAndPair ⟨3⟩ hsound with
      ⟨t, text, ht, hprint, hparse, _⟩
    cases ht.unique listAndPair.unfolds_list
    have hlevels := hparse listAndPair.readable_list (by decide)
    exact ⟨hsound, listAndPair.readable_list, text, hprint, (hlevels 2).1 (by decide),
      (hlevels 1).2 (by decide)⟩
  · have hsound := listAndPair.unfolds_pair.sound
    have hall : Token.all [40, 97, 32, 46, 32, 97, 41] =
        [⟨.leftParen, [40], 0⟩, ⟨.symbol, [97], 1⟩, ⟨.symbol, [46], 3⟩, ⟨.symbol, [97], 5⟩,
          ⟨.rightParen, [41], 6⟩] :=
      Lexes.iff_eq_all.1 (.token rfl rfl (.token rfl rfl (.blank rfl (.token rfl rfl
        (.blank rfl (.token rfl rfl (.token rfl rfl .done)))))))
    have hresult : (parse [40, 97, 32, 46, 32, 97, 41] {} 1).result = .ok ⟨7⟩ := by
      rw [parse, hall]
      rfl
    have hsingleton : (parse [40, 97, 32, 46, 32, 97, 41] {} 1).arena.IsSingleton ⟨7⟩ ⟨2⟩ := by
      rw [parse, hall]
      exact ⟨Ref.nil, rfl, rfl⟩
    rcases parse_print_equal_iff_readable listAndPair ⟨4⟩ hsound with
      ⟨t, text, _, hprint, _, hparse⟩
    have htext : text = [40, 97, 32, 46, 32, 97, 41] :=
      Except.ok.inj (hprint.symm.trans (Arena.print_eq listAndPair.unfolds_pair))
    subst htext
    exact ⟨hsound, listAndPair.not_readable_pair, _, hprint, hresult, hsingleton,
      hparse listAndPair.not_readable_pair 1 ⟨7⟩ ⟨2⟩ hresult hsingleton⟩

/-- What is written of the result of a parse is parsed with the same levels into an equal result
with as many nodes, and the same is written of it. -/
theorem parse_writeAll_fixpoint (input : Bytes) (maxDepth : Nat) {r : Ref}
    (h : (parse input {} maxDepth).result = .ok r) :
    ∃ text, Document.writeAll Device.sink {} (parse input {} maxDepth).arena r =
        ⟨text, .ok (), { flushes := 1 }⟩ ∧
      ∃ r', (parse text {} maxDepth).result = .ok r' ∧
        (parse input {} maxDepth).arena.equal r (parse text {} maxDepth).arena r' = .ok true ∧
        (parse text {} maxDepth).arena.size = (parse input {} maxDepth).arena.size ∧
        Document.writeAll Device.sink {} (parse text {} maxDepth).arena r' =
          ⟨text, .ok (), { flushes := 1 }⟩ := by
  rcases parse_eq_ok_iff.1 h with ⟨forms, hread, hroom, rfl⟩
  have hunfolds := unfolds_parse hread hroom
  have hreadable := readable_of_read hread
  rcases Outline.read_eq_top_iff.1 hread with ⟨htokens, hok, hdepth⟩
  rw [← htokens] at hok
  have htree := Form.listTree_eq forms
  rw [htree] at hunfolds
  rw [htree, Tree.readable_ofList] at hreadable
  rcases exists_derived_documentText hreadable with ⟨forms', hforms, hok', htokens'⟩
  have htree' : listTree forms' = listTree forms := by
    rw [Form.listTree_eq, Form.listTree_eq, hforms]
  have hdepth' : listDepth forms' ≤ maxDepth := by
    have hlevels := Form.depth_listTree forms' hok'
    rw [htree', Form.depth_listTree forms hok] at hlevels
    omega
  have hsize : listSize forms' = listSize forms := by
    rw [← Form.size_listTree forms' hok', htree', Form.size_listTree forms hok]
  rcases parse_of_derived htokens' hok' hdepth' (hsize ▸ hroom) with ⟨r', hr', hunfolds', hsize'⟩
  rw [htree', htree] at hunfolds'
  refine ⟨_, Document.writeAll_unbounded hunfolds, r', hr', ?_, ?_,
    Document.writeAll_unbounded hunfolds'⟩
  · rw [Arena.equal_eq hunfolds hunfolds', decide_eq_true rfl]
  · rw [hsize', size_parse hread hroom, hsize]

theorem parse_writeAll_quoted_list :
    (parse [39, 40, 45, 48, 32, 34, 92, 113, 34, 41] {} 2).result = .ok ⟨8⟩ ∧
      ∃ text, Document.writeAll Device.sink {}
          (parse [39, 40, 45, 48, 32, 34, 92, 113, 34, 41] {} 2).arena ⟨8⟩ =
            ⟨text, .ok (), { flushes := 1 }⟩ ∧
        ∃ r', (parse text {} 2).result = .ok r' ∧
          Document.writeAll Device.sink {} (parse text {} 2).arena r' =
            ⟨text, .ok (), { flushes := 1 }⟩ := by
  have hall : Token.all [39, 40, 45, 48, 32, 34, 92, 113, 34, 41] =
      [⟨.quote, [39], 0⟩, ⟨.leftParen, [40], 1⟩, ⟨.integer, [45, 48], 2⟩,
        ⟨.string, [34, 92, 113, 34], 5⟩, ⟨.rightParen, [41], 9⟩] :=
    Lexes.iff_eq_all.1 (.token rfl rfl (.token rfl rfl (.token rfl rfl (.blank rfl
      (.token rfl rfl (.token rfl rfl .done))))))
  have hresult : (parse [39, 40, 45, 48, 32, 34, 92, 113, 34, 41] {} 2).result = .ok ⟨8⟩ := by
    rw [parse, hall]
    rfl
  rcases parse_writeAll_fixpoint _ 2 hresult with ⟨text, htext, r', hr', _, _, hagain⟩
  exact ⟨hresult, text, htext, r', hr', hagain⟩

end Sexpr
