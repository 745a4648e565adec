import Sexpr.Proofs.Acceptance
import Sexpr.Proofs.RoundTrip

/-! # Every node of a parse is used once

The nodes that are added for a text are those of its forms. Each of them is reached from the list of
forms, and one slot leads to it, apart from the first cell of the list, to which none does. So there
are no more nodes than the forms need and none is shared. Their number is found by counting tokens.
-/

namespace Sexpr

open Form (listTokens listRef listNodes listSize)

namespace Form

variable {a : Arena}

theorem count_cons_mk (r : Ref) (rs : List Ref) (i : Nat) :
    (r :: rs).count ⟨i⟩ = rs.count ⟨i⟩ + if r.index = i then 1 else 0 := by
  rcases r with ⟨j⟩
  simp [List.count_cons]

mutual

/-- Among the reference to a form and the slots of its nodes, each of its nodes occurs once. -/
theorem count_ref_nodes : ∀ (form : Form) (base : Nat) {i : Nat}, i ≠ 0 →
    (form.ref base :: (form.nodes base).flatMap Node.slots).count ⟨i⟩ =
      if base < i ∧ i ≤ base + form.size then 1 else 0
  | .atom t, base, i, hi => by
    rw [size]
    simp only [ref, nodes, List.flatMap_singleton, t.1.slots_node, count_cons_mk, List.count_nil]
    split_ifs <;> omega
  | .list _ forms _, base, i, hi => by
    have hforms := count_listRef_listNodes forms base Ref.nil hi
    have hnil : ¬ Ref.nil.index = i := Ne.symm hi
    rw [if_neg hnil, Nat.add_zero] at hforms
    exact hforms
  | .quote mark form, base, i, hi => by
    have hform := count_ref_nodes form base hi
    have hnil : ¬ Ref.nil.index = i := Ne.symm hi
    have href : (Form.quote mark form).ref base = ⟨base + form.size + 3⟩ := rfl
    rw [size, href]
    simp only [nodes, List.flatMap_append, List.flatMap_cons, List.flatMap_nil, Node.slots,
      List.count_append, List.cons_append, List.nil_append, count_cons_mk, List.count_nil,
      if_neg hnil] at hform ⊢
    split_ifs at hform ⊢ <;> omega

theorem count_listRef_listNodes : ∀ (forms : List Form) (base : Nat) (next : Ref) {i : Nat},
    i ≠ 0 → (listRef base next forms :: (listNodes base next forms).flatMap Node.slots).count ⟨i⟩ =
      (if base < i ∧ i ≤ base + listSize forms then 1 else 0) + if next.index = i then 1 else 0
  | [], base, next, i, hi => by
    rw [listSize]
    simp only [listRef, listNodes, List.flatMap_nil, count_cons_mk, List.count_nil]
    split_ifs <;> omega
  | form :: forms, base, next, i, hi => by
    have hform := count_ref_nodes form base hi
    have hforms := count_listRef_listNodes forms (base + form.size + 1) next hi
    have href : listRef base next (form :: forms) = ⟨base + form.size + 1⟩ := rfl
    rw [listSize, href]
    simp only [listNodes, List.flatMap_append, List.flatMap_cons, Node.slots,
      List.count_append, List.cons_append, List.nil_append, count_cons_mk] at hform hforms ⊢
    split_ifs at hform hforms ⊢ <;> omega

end

mutual

theorem reaches_of_holds : ∀ (form : Form) (base : Nat), a.Holds base (form.nodes base) →
    ∀ i, base < i → i ≤ base + form.size → a.Reaches (form.ref base) ⟨i⟩
  | .atom _, base, _, i, hlt, hle => by
    rw [show i = base + 1 by simp only [size] at hle; omega]
    exact .refl
  | .list _ forms _, base, h, i, hlt, hle => reaches_listRef forms base h i hlt hle
  | .quote _ form, base, h, i, hlt, hle => by
    rw [nodes, Arena.holds_append, length_nodes] at h
    rcases h with ⟨hform, hrest⟩
    have hlast : a.Points ⟨base + form.size + 3⟩ ⟨base + form.size + 2⟩ :=
      ⟨_, hrest 2 _ rfl, by simp [Node.slots]⟩
    have hsymbol : a.Points ⟨base + form.size + 3⟩ ⟨base + form.size + 1⟩ :=
      ⟨_, hrest 2 _ rfl, by simp [Node.slots]⟩
    have hquoted : a.Points ⟨base + form.size + 2⟩ (form.ref base) :=
      ⟨_, hrest 1 _ rfl, by simp [Node.slots]⟩
    simp only [size] at hle
    by_cases hi : i ≤ base + form.size
    · exact .head hlast (.head hquoted (reaches_of_holds form base hform i hlt hi))
    · obtain rfl | rfl | rfl : i = base + form.size + 1 ∨ i = base + form.size + 2 ∨
          i = base + form.size + 3 := by omega
      · exact .single hsymbol
      · exact .single hlast
      · exact .refl

theorem reaches_listRef : ∀ (forms : List Form) (base : Nat) {next : Ref},
    a.Holds base (listNodes base next forms) →
      ∀ i, base < i → i ≤ base + listSize forms → a.Reaches (listRef base next forms) ⟨i⟩
  | [], _, _, _, _, hlt, hle => absurd hlt (Nat.not_lt.2 hle)
  | form :: forms, base, next, h, i, hlt, hle => by
    rw [listNodes, Arena.holds_append, Arena.holds_cons, length_nodes] at h
    rcases h with ⟨hform, hcell, hforms⟩
    have hfirst : a.Points ⟨base + form.size + 1⟩ (form.ref base) :=
      ⟨_, hcell, by simp [Node.slots]⟩
    have hrest : a.Points ⟨base + form.size + 1⟩ (listRef (base + form.size + 1) next forms) :=
      ⟨_, hcell, by simp [Node.slots]⟩
    simp only [listSize] at hle
    by_cases hi : i ≤ base + form.size
    · exact .head hfirst (reaches_of_holds form base hform i hlt hi)
    · by_cases hi' : i = base + form.size + 1
      · rw [hi']
        exact .refl
      · exact .head hrest (reaches_listRef forms _ hforms i (by omega) (by omega))

end

end Form

/-- The nodes of a parse into an empty arena are laid out as its forms determine, and as no other
forms that its tokens are derived from do: the nodes of each element of a list come before its cell,
and those of a quoted form before the list around it. Hence every node is reached from the result,
every one but the first cell of the result is referred to once, all chains of cells end in the empty
list, and the number of nodes follows from the numbers of tokens. -/
theorem parse_lays_out_forms (input : Bytes) (maxDepth : Nat) {r : Ref}
    (h : (parse input {} maxDepth).result = .ok r) :
    ∃ forms, (∀ others, listTokens others = Token.all input ↔ others = forms) ∧
      (parse input {} maxDepth).arena.nodes.toList = listNodes 0 Ref.nil forms ∧
      r = listRef 0 Ref.nil forms ∧
      (∀ i, 0 < i → i ≤ (parse input {} maxDepth).arena.size →
        (parse input {} maxDepth).arena.Reaches r ⟨i⟩) ∧
      (∀ i, 0 < i → i ≤ (parse input {} maxDepth).arena.size →
        ((parse input {} maxDepth).arena.nodes.toList.flatMap Node.slots).count ⟨i⟩ =
          if r = ⟨i⟩ then 0 else 1) ∧
      (∀ s first rest, (parse input {} maxDepth).arena.get? s = some (.pair first rest) →
        (parse input {} maxDepth).arena.IsChain s) ∧
      (parse input {} maxDepth).arena.size =
        2 * (Token.all input).countP (·.kind.isAtom) +
          (Token.all input).countP (·.kind = .leftParen) +
            3 * (Token.all input).countP (·.kind = .quote) := by
  rcases parse_eq_ok_iff.1 h with ⟨forms, hread, hroom, rfl⟩
  have htokens := (Outline.read_eq_top_iff.1 hread).1
  have harena : (parse input {} maxDepth).arena = ({} : Arena).extend (listNodes 0 Ref.nil forms) :=
    arena_parse hread hroom
  have hunfolds := unfolds_parse hread hroom
  have hnodes : (parse input {} maxDepth).arena.nodes.toList = listNodes 0 Ref.nil forms := by
    rw [harena]
    simp [Arena.extend]
  have hsize : (parse input {} maxDepth).arena.size = listSize forms :=
    (size_parse hread hroom).trans (Nat.zero_add _)
  have hreaches (i : Nat) (hlt : 0 < i) (hle : i ≤ (parse input {} maxDepth).arena.size) :
      (parse input {} maxDepth).arena.Reaches (listRef 0 Ref.nil forms) ⟨i⟩ := by
    rw [hsize] at hle
    rw [harena]
    exact Form.reaches_listRef forms 0 (Arena.holds_extend {} _) i hlt (by omega)
  refine ⟨forms, fun others => ⟨eq_of_derived hread, ?_⟩, hnodes, rfl, hreaches, ?_, ?_, ?_⟩
  · rintro rfl
    exact htokens
  · intro i hlt hle
    have hcount := Form.count_listRef_listNodes forms 0 Ref.nil (Nat.ne_of_gt hlt)
    have hnil : ¬ Ref.nil.index = i := Nat.ne_of_lt hlt
    have hin : 0 < i ∧ i ≤ 0 + listSize forms := ⟨hlt, by omega⟩
    have hroot : listRef ({} : Arena).size Ref.nil forms = ⟨i⟩ ↔
        (listRef 0 Ref.nil forms).index = i := ⟨congrArg Ref.index, congrArg Ref.mk⟩
    rw [Form.count_cons_mk, if_pos hin, if_neg hnil] at hcount
    rw [hnodes]
    simp only [hroot]
    split_ifs at hcount ⊢ <;> omega
  · intro s first rest hs
    have hle := Arena.index_le_size (Option.isSome_of_mem hs)
    have hlt : 0 < s.index := by
      rcases s with ⟨_ | i⟩
      · cases hs
      · exact Nat.succ_pos i
    have hreadable := (Arena.readable_iff hunfolds).2 (readable_of_read hread)
    exact hreadable.chains s first rest (hreaches s.index hlt hle) hs
  · rw [hsize, ← Form.tokenCost_listTokens, htokens]
    rfl

/-- The text `('a ())` has a cell that follows its quoted symbol and one that refers to no node. -/
theorem parse_lays_out_quote_and_empty_list :
    (parse [40, 39, 97, 32, 40, 41, 41] {} 2).result = .ok ⟨7⟩ ∧
      (parse [40, 39, 97, 32, 40, 41, 41] {} 2).arena.nodes = #[.symbol "a", .symbol "quote",
        .pair ⟨1⟩ Ref.nil, .pair ⟨2⟩ ⟨3⟩, .pair ⟨4⟩ ⟨6⟩, .pair Ref.nil Ref.nil,
        .pair ⟨5⟩ Ref.nil] ∧
      (parse [40, 39, 97, 32, 40, 41, 41] {} 2).arena.Reaches ⟨7⟩ ⟨1⟩ ∧
      (parse [40, 39, 97, 32, 40, 41, 41] {} 2).arena.size = 2 * 1 + 2 + 3 * 1 := by
  have hall : Token.all [40, 39, 97, 32, 40, 41, 41] = [⟨.leftParen, [40], 0⟩, ⟨.quote, [39], 1⟩,
      ⟨.symbol, [97], 2⟩, ⟨.leftParen, [40], 4⟩, ⟨.rightParen, [41], 5⟩, ⟨.rightParen, [41], 6⟩] :=
    Lexes.iff_eq_all.1 (.token rfl rfl (.token rfl rfl (.token rfl rfl (.blank rfl
      (.token rfl rfl (.token rfl rfl (.token rfl rfl .done)))))))
  have hparse : (parse [40, 39, 97, 32, 40, 41, 41] {} 2).result = .ok ⟨7⟩ ∧
      (parse [40, 39, 97, 32, 40, 41, 41] {} 2).arena.nodes = #[.symbol "a", .symbol "quote",
        .pair ⟨1⟩ Ref.nil, .pair ⟨2⟩ ⟨3⟩, .pair ⟨4⟩ ⟨6⟩, .pair Ref.nil Ref.nil,
        .pair ⟨5⟩ Ref.nil] := by
    rw [parse, hall]
    exact ⟨rfl, rfl⟩
  rcases parse_lays_out_forms _ 2 hparse.1 with ⟨forms, _, _, _, hreaches, _, _, hsize⟩
  have hle : 1 ≤ (parse [40, 39, 97, 32, 40, 41, 41] {} 2).arena.size := by
    rw [hsize, hall]
    decide
  refine ⟨hparse.1, hparse.2, hreaches 1 Nat.zero_lt_one hle, ?_⟩
  rw [hsize, hall]
  rfl

end Sexpr
