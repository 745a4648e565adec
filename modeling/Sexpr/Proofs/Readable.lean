import Sexpr.Proofs.Form

/-! # Values that can be read

A value is readable if all its lists are proper and all its symbols are written as one symbol. This
depends only on the tree of the value, and the tree of every form that is accepted is readable.
-/

namespace Sexpr

/-- All lists are proper and the names of all symbols are recognized as symbols. -/
def Tree.Readable : Tree → Prop
  | pair first rest => first.Readable ∧ rest.Readable ∧ rest.IsList
  | symbol name => SymbolText (Utf8.encode name)
  | _ => True

theorem Tree.readable_ofList {ts : List Tree} :
    (Tree.ofList ts).Readable ↔ ∀ t ∈ ts, t.Readable := by
  induction ts with
  | nil => simp [ofList, Readable]
  | cons t ts ih => simp [ofList, Readable, ih]

namespace Arena

/-- The chain of cells from a reference on ends in the empty list. -/
inductive IsChain (a : Arena) : Ref → Prop
  | nil {r} (h : a.get? r = some .nil) : IsChain a r
  | pair {r first rest} (h : a.get? r = some (.pair first rest)) (hrest : IsChain a rest) :
    IsChain a r

/-- Every cell that a reference leads to is part of a proper list, and every symbol has a text that
is recognized as a symbol. -/
structure Readable (a : Arena) (r : Ref) : Prop where
  chains : ∀ s first rest, a.Reaches r s → a.get? s = some (.pair first rest) → a.IsChain s
  symbols : ∀ s name, a.Reaches r s → a.get? s = some (.symbol name) →
    SymbolText (Utf8.encode name)

variable {a : Arena} {r s : Ref} {t : Tree}

theorem isChain_iff (h : a.Unfolds r t) : a.IsChain r ↔ t.IsList := by
  induction h with
  | nil h => exact iff_of_true (.nil h) trivial
  | pair h _ _ _ ih =>
    rw [Tree.IsList, ← ih]
    constructor
    · intro hchain
      cases hchain with
      | nil h' => cases h.symm.trans h'
      | pair h' hrest =>
        cases h.symm.trans h'
        exact hrest
    · exact .pair h
  | _ h =>
    apply iff_of_false _ id
    intro hchain
    cases hchain with
    | nil h' => cases h.symm.trans h'
    | pair h' _ => cases h.symm.trans h'

theorem Readable.of_points (h : a.Readable r) (hs : a.Points r s) : a.Readable s where
  chains q first rest hq := h.chains q first rest (hq.head hs)
  symbols q name hq := h.symbols q name (hq.head hs)

theorem Unfolds.readable_of_reaches (h : a.Unfolds r t) (ht : t.Readable) (hs : a.Reaches r s) :
    ∃ u, a.Unfolds s u ∧ u.Readable := by
  induction hs with
  | refl => exact ⟨t, h, ht⟩
  | tail _ hs ih =>
    rcases ih with ⟨u, hu, hreadable⟩
    rcases hs with ⟨node, hnode, hmem⟩
    cases hu with
    | pair h hfirst hrest =>
      cases h.symm.trans hnode
      simp only [Node.slots, List.mem_cons, List.not_mem_nil, or_false] at hmem
      rcases hmem with rfl | rfl
      · exact ⟨_, hfirst, hreadable.1⟩
      · exact ⟨_, hrest, hreadable.2.1⟩
    | _ h =>
      cases h.symm.trans hnode
      simp [Node.slots] at hmem

theorem readable_iff (h : a.Unfolds r t) : a.Readable r ↔ t.Readable := by
  constructor
  · intro hreadable
    induction h with
    | @pair r first rest _ _ h _ hrest ihfirst ihrest =>
      have hchain := hreadable.chains r first rest .refl h
      cases hchain with
      | nil h' => cases h.symm.trans h'
      | pair h' hchain =>
        cases h.symm.trans h'
        exact ⟨ihfirst (hreadable.of_points ⟨_, h, by simp [Node.slots]⟩),
          ihrest (hreadable.of_points ⟨_, h, by simp [Node.slots]⟩), (isChain_iff hrest).1 hchain⟩
    | symbol h => exact hreadable.symbols _ _ .refl h
    | _ => trivial
  · intro ht
    constructor
    · intro s first rest hs hnode
      rcases h.readable_of_reaches ht hs with ⟨u, hu, hreadable⟩
      rw [isChain_iff hu]
      cases hu with
      | pair => exact hreadable.2.2
      | _ h' => cases h'.symm.trans hnode
    · intro s name hs hnode
      rcases h.readable_of_reaches ht hs with ⟨u, hu, hreadable⟩
      cases hu with
      | symbol h' =>
        cases h'.symm.trans hnode
        exact hreadable
      | _ h' => cases h'.symm.trans hnode

end Arena

theorem symbolText_quote : SymbolText (Utf8.encode "quote") := by decide

namespace Form

theorem isList_listTree (forms : List Form) : (listTree forms).IsList := by
  rw [listTree_eq]
  exact Tree.isList_ofList _

theorem readable_atom {t : AtomToken} (hscan : t.1.Scanned) (hok : t.1.Acceptable) :
    (Tree.ofAtom t.1.node).Readable := by
  have hdenotes := denotes_atom hscan hok
  generalize Tree.ofAtom t.1.node = u at hdenotes
  cases hdenotes with
  | symbol hk hname =>
    rw [Tree.Readable, hname]
    exact (hscan.symbol hk).1
  | _ => trivial

mutual

theorem readable_tree : ∀ form : Form, (∀ t ∈ form.tokens, t.Scanned ∧ t.Acceptable) →
    form.tree.Readable
  | .atom _, h => readable_atom (forall_tokens_atom.1 h).1 (forall_tokens_atom.1 h).2
  | .list _ forms _, h => readable_listTree forms (forall_tokens_list.1 h).2.1
  | .quote _ form, h => by
    have hform := readable_tree form (forall_tokens_quote.1 h).2
    exact ⟨symbolText_quote, ⟨hform, trivial, trivial⟩, trivial⟩

theorem readable_listTree : ∀ forms : List Form,
    (∀ t ∈ listTokens forms, t.Scanned ∧ t.Acceptable) → (listTree forms).Readable
  | [], _ => trivial
  | form :: forms, h => by
    have hparts := forall_listTokens_cons.1 h
    exact ⟨readable_tree form hparts.1, readable_listTree forms hparts.2, isList_listTree forms⟩

end

end Form

end Sexpr
