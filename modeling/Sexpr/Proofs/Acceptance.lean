import Sexpr.Proofs.Building

/-! # What is accepted, and what it means

A text is accepted if its tokens are derived from forms by the grammar, the integers fit, no list or
quote lies too deep, and the arena has room for the nodes that the tokens cost. The result then
denotes what the forms mean.
-/

namespace Sexpr

open Form

variable {d : Nat} {input : Bytes} {forms : List Form}

theorem listDepth_le_iff_shallow : listDepth forms ≤ d ↔ Shallow d (listLevels 0 forms) := by
  rw [shallow_listLevels_iff, Nat.sub_zero]

theorem acceptable_iff_of_derived (h : listTokens forms = Token.all input) :
    (∀ t ∈ Token.all input, t.Acceptable) ↔ ∀ t ∈ Token.all input, t.kind = .integer →
      ∃ n, Decimal.Numeral t.text n ∧ -2 ^ 63 ≤ n ∧ n ≤ 2 ^ 63 - 1 := by
  constructor
  · intro hok t ht
    exact ((Token.scanned_of_mem_all ht).acceptable_iff.1 (hok t ht)).2
  · intro hfits t ht
    have hvalid := list_kind_ne_invalid forms t (h ▸ ht)
    exact (Token.scanned_of_mem_all ht).acceptable_iff.2 ⟨hvalid, hfits t ht⟩

theorem eq_of_derived {other : List Form}
    (h : (Outline.top []).read d (Token.all input) = .ok (.top forms))
    (hother : listTokens other = Token.all input) : other = forms := by
  rcases Outline.read_eq_top_iff.1 h with ⟨_, hok, _⟩
  have hleads := Outline.leads_placeAll d other (.top []) trivial (hother ▸ hok)
  rw [Outline.placeAll_top, List.nil_append, hother] at hleads
  by_cases hdepth : listDepth other ≤ d
  · have hread := hleads.1 hdepth
    rw [h] at hread
    cases hread
    rfl
  · rcases hleads.2 (Nat.not_le.1 hdepth) with ⟨t, ht⟩
    cases h.symm.trans ht

theorem denotes_iff_of_read (h : (Outline.top []).read d (Token.all input) = .ok (.top forms))
    (trees : List Tree) : List.Forall₂ Denotes forms trees ↔ trees = forms.map tree := by
  rcases Outline.read_eq_top_iff.1 h with ⟨htokens, hok, _⟩
  apply denotes_forms_iff
  intro t ht
  rw [htokens] at ht
  exact ⟨Token.scanned_of_mem_all ht, hok t ht⟩

/-- A text is read into a list exactly if its tokens are derived from forms, its integers fit into
64 bits, less than the allowed number of lists and quotes surround each of its lists and quotes, and
there is room for as many nodes as its tokens cost. Whatever forms its tokens are derived from, the
result is the list of what these mean, and they mean nothing else. -/
theorem parse_accepts_iff_derived (input : Bytes) (a : Arena) (maxDepth : Nat) :
    ((∃ r, (parse input a maxDepth).result = .ok r) ↔
      (∃ forms, listTokens forms = Token.all input ∧
        (∀ t ∈ Token.all input, t.kind = .integer →
          ∃ n, Decimal.Numeral t.text n ∧ -2 ^ 63 ≤ n ∧ n ≤ 2 ^ 63 - 1) ∧
        Shallow maxDepth (listLevels 0 forms)) ∧
      a.HasRoom (tokenCost (Token.all input))) ∧
    ∀ r, (parse input a maxDepth).result = .ok r →
      ∀ forms, listTokens forms = Token.all input →
        ∃ trees, (∀ others, List.Forall₂ Denotes forms others ↔ others = trees) ∧
          (parse input a maxDepth).arena.Unfolds r (Tree.ofList trees) := by
  have hcost {forms : List Form} (htokens : listTokens forms = Token.all input) :
      tokenCost (Token.all input) = listSize forms := by
    rw [← htokens, tokenCost_listTokens]
  refine ⟨⟨?_, ?_⟩, ?_⟩
  · rintro ⟨r, hr⟩
    rcases parse_eq_ok_iff.1 hr with ⟨forms, hread, hroom, _⟩
    rcases Outline.read_eq_top_iff.1 hread with ⟨htokens, hok, hdepth⟩
    rw [hcost htokens]
    exact ⟨⟨forms, htokens, (acceptable_iff_of_derived htokens).1 hok,
      listDepth_le_iff_shallow.1 hdepth⟩, hroom⟩
  · rintro ⟨⟨forms, htokens, hfits, hshallow⟩, hroom⟩
    rw [hcost htokens] at hroom
    have hread := Outline.read_eq_top_iff.2 ⟨htokens, (acceptable_iff_of_derived htokens).2 hfits,
      listDepth_le_iff_shallow.2 hshallow⟩
    exact ⟨_, parse_eq_ok_iff.2 ⟨forms, hread, hroom, rfl⟩⟩
  · intro r hr forms hforms
    rcases parse_eq_ok_iff.1 hr with ⟨others, hread, hroom, rfl⟩
    cases eq_of_derived hread hforms
    refine ⟨forms.map tree, denotes_iff_of_read hread, ?_⟩
    rw [← listTree_eq]
    exact unfolds_parse hread hroom

def quotedInList : Form :=
  .list ⟨⟨.leftParen, [40], 0⟩, rfl⟩
    [.quote ⟨⟨.quote, [39], 1⟩, rfl⟩ (.atom ⟨⟨.symbol, [97], 2⟩, rfl⟩),
      .atom ⟨⟨.integer, [55], 4⟩, rfl⟩]
    ⟨⟨.rightParen, [41], 5⟩, rfl⟩

theorem parse_accepts_quotedInList :
    ({} : Arena).HasRoom (tokenCost (listTokens [quotedInList])) ∧
      ∃ r, (parse [40, 39, 97, 32, 55, 41] {} 2).result = .ok r ∧
        ∃ trees, (∀ others, List.Forall₂ Denotes [quotedInList] others ↔ others = trees) ∧
          (parse [40, 39, 97, 32, 55, 41] {} 2).arena.Unfolds r (Tree.ofList trees) := by
  have hlexes : Lexes [40, 39, 97, 32, 55, 41] 0 (listTokens [quotedInList]) :=
    .token rfl rfl (.token rfl rfl (.token rfl rfl (.blank rfl
      (.token rfl rfl (.token rfl rfl .done)))))
  have htokens := (Lexes.iff_eq_all.1 hlexes).symm
  have hfits : ∀ t ∈ Token.all [40, 39, 97, 32, 55, 41], t.kind = .integer →
      ∃ n, Decimal.Numeral t.text n ∧ -2 ^ 63 ≤ n ∧ n ≤ 2 ^ 63 - 1 := by
    rw [← htokens]
    simp only [quotedInList, listTokens, tokens, List.cons_append, List.nil_append,
      List.append_nil, List.forall_mem_cons]
    simp
    have hdigit : ∀ b ∈ ([55] : Bytes), Byte.isDigit b = true := List.forall_mem_singleton.2 rfl
    exact ⟨_, .plain (List.cons_ne_nil _ _) hdigit, by decide, by decide⟩
  have hshallow : Shallow 2 (listLevels 0 [quotedInList]) := by
    simp [quotedInList, listLevels, levels, Shallow, Token.Kind.opens]
  have hroom : ({} : Arena).HasRoom (tokenCost (listTokens [quotedInList])) := by
    decide
  have haccepts := parse_accepts_iff_derived [40, 39, 97, 32, 55, 41] {} 2
  rcases haccepts.1.2 ⟨⟨[quotedInList], htokens, hfits, hshallow⟩, htokens ▸ hroom⟩ with ⟨r, hr⟩
  exact ⟨hroom, r, hr, haccepts.2 r hr [quotedInList] htokens⟩

end Sexpr
