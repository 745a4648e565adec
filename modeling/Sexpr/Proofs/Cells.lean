import Sexpr.Proofs.Limit

/-! # Where the cells of a list lie

A list of references takes one cell for each of them, and the cells lie behind one another. If the
room for them runs out, the cells that were built before are a list of as many items. This is what
building a list comes to, in an arena with or without a limit. The items of a value are read back
from its cells.
-/

namespace Sexpr

namespace Arena

variable {a : Arena} {base : Nat} {next : Ref} {items more : List Ref} {node : Node}

/-- Reference to the first cell of a list, or to what follows the list if it is empty. -/
def cellRef (base : Nat) (next : Ref) : List Ref → Ref
  | [] => next
  | _ :: _ => ⟨base + 1⟩

/-- Cells of a list of which the last one leads to `next`. -/
def cells (base : Nat) (next : Ref) : List Ref → List Node
  | [] => []
  | item :: items => .pair item (cellRef (base + 1) next items) :: cells (base + 1) next items

@[simp] theorem length_cells (base : Nat) (next : Ref) (items : List Ref) :
    (cells base next items).length = items.length := by
  induction items generalizing base with
  | nil => rfl
  | cons item items ih => simp [cells, ih]

theorem cells_append_singleton (base : Nat) (next : Ref) (items : List Ref) (item : Ref) :
    cells base next (items ++ [item]) =
      cells base ⟨base + items.length + 1⟩ items ++ [.pair item next] := by
  induction items generalizing base with
  | nil => rfl
  | cons first items ih =>
    have hlength : base + 1 + items.length + 1 = base + (items.length + 1) + 1 := by omega
    rw [List.cons_append, cells, ih, cells, List.length_cons, hlength, List.cons_append]
    cases items with
    | nil => simp [cellRef]
    | cons second items => rfl

theorem exists_cells_eq (base : Nat) (hne : items ≠ []) : ∃ before item,
    before.length + 1 = items.length ∧
      ∀ next, cells base next items = before ++ [.pair item next] := by
  rcases List.eq_nil_or_concat items with rfl | ⟨init, item, rfl⟩
  · exact absurd rfl hne
  · rw [List.concat_eq_append]
    exact ⟨cells base ⟨base + init.length + 1⟩ init, item, by simp,
      fun next => cells_append_singleton base next init item⟩

end Arena

namespace OpenList

open Arena (cells cellRef)

variable {a c : Arena} {l : OpenList} {items : List Ref} {item : Ref}

/-- List of items whose cells lie behind a number of nodes. -/
def ofItems (base : Nat) (items : List Ref) : OpenList :=
  if items = [] then {} else ⟨⟨base + 1⟩, ⟨base + items.length⟩⟩

theorem head_ofItems (base : Nat) (items : List Ref) :
    (ofItems base items).head = cellRef base Ref.nil items := by
  cases items <;> rfl

theorem append_ofItems (h : (a.extend (cells a.size Ref.nil items)).isFull = false) (item : Ref) :
    (ofItems a.size items).append item (a.extend (cells a.size Ref.nil items)) =
      .ok (ofItems a.size (items ++ [item]))
        (a.extend (cells a.size Ref.nil (items ++ [item]))) := by
  have hsize : (a.extend (cells a.size Ref.nil items)).size = a.size + items.length := by
    rw [Arena.size_extend, Arena.length_cells]
  have hitems : ofItems a.size (items ++ [item]) =
      ⟨⟨a.size + 1⟩, ⟨a.size + (items ++ [item]).length⟩⟩ := if_neg (by simp)
  rw [hitems, Arena.cells_append_singleton, List.length_append, List.length_singleton]
  by_cases hne : items = []
  · subst hne
    rw [append_first h rfl, Arena.extend_extend, hsize]
    rfl
  · rcases Arena.exists_cells_eq a.size hne with ⟨before, x, hlength, hcells⟩
    have hlast : (ofItems a.size items).last = ⟨a.size + before.length + 1⟩ := by
      rw [ofItems, if_neg hne, ← hlength]
      rfl
    rw [append_linked (congrArg a.extend (hcells Ref.nil)) h hlast, hsize, hcells, ofItems,
      if_neg hne]
    rfl

end OpenList

namespace Arena

/-- Items are appended one after another as far as there is room. -/
theorem foldlM_append_eq (a : Arena) (left : List Ref) : ∀ built : List Ref,
    (a.extend (cells a.size Ref.nil built)).InLimit →
    (left.foldlM OpenList.append (.ofItems a.size built) (a.extend (cells a.size Ref.nil built)) =
        .ok (.ofItems a.size (built ++ left)) (a.extend (cells a.size Ref.nil (built ++ left))) ∧
      (a.extend (cells a.size Ref.nil (built ++ left))).InLimit) ∨
    ∃ more rest, left = more ++ rest ∧ rest ≠ [] ∧
      (a.extend (cells a.size Ref.nil (built ++ more))).InLimit ∧
      (a.extend (cells a.size Ref.nil (built ++ more))).isFull = true ∧
      left.foldlM OpenList.append (.ofItems a.size built) (a.extend (cells a.size Ref.nil built)) =
        .error (.failure ⟨a.size + (built ++ more).length⟩)
          (a.extend (cells a.size Ref.nil (built ++ more))) := by
  induction left with
  | nil =>
    intro built hin
    rw [List.append_nil]
    exact .inl ⟨rfl, hin⟩
  | cons item left ih =>
    intro built hin
    rw [List.foldlM_cons]
    cases hfull : (a.extend (cells a.size Ref.nil built)).isFull with
    | true =>
      refine .inr ⟨[], item :: left, rfl, List.cons_ne_nil item left, ?_⟩
      rw [List.append_nil, bind_eq_of_error (OpenList.append_of_full hfull _ item), size_extend,
        length_cells]
      exact ⟨hin, hfull, rfl⟩
    | false =>
      have hin' : (a.extend (cells a.size Ref.nil (built ++ [item]))).InLimit :=
        .of_room hfull rfl (by simp [← Nat.add_assoc])
      rw [bind_eq_of_ok (OpenList.append_ofItems hfull item), List.append_cons built item left]
      rcases ih (built ++ [item]) hin' with hok | ⟨more, rest, rfl, hrest, herror⟩
      · exact .inl hok
      · refine .inr ⟨item :: more, rest, rfl, hrest, ?_⟩
        rwa [List.append_cons built item more]

theorem list_eq {a : Arena} (h : a.InLimit) (items : List Ref) :
    (list items a = .ok (cellRef a.size Ref.nil items) (a.extend (cells a.size Ref.nil items)) ∧
      (a.extend (cells a.size Ref.nil items)).InLimit) ∨
    ∃ built left, items = built ++ left ∧ left ≠ [] ∧
      (a.extend (cells a.size Ref.nil built)).InLimit ∧
      (a.extend (cells a.size Ref.nil built)).isFull = true ∧
      list items a = .error (.failure ⟨a.size + built.length⟩)
        (a.extend (cells a.size Ref.nil built)) := by
  have hbuild := foldlM_append_eq a items []
  rw [cells, extend_nil] at hbuild
  rcases hbuild h with ⟨hok, hin⟩ | ⟨built, left, hitems, hleft, hin, hfull, herror⟩
  · refine .inl ⟨?_, hin⟩
    rw [list, ← OpenList.head_ofItems]
    exact bind_eq_of_ok hok
  · exact .inr ⟨built, left, hitems, hleft, hin, hfull, bind_eq_of_error herror⟩

variable {a : Arena} {base : Nat} {items : List Ref}

theorem unfolds_cellRef {trees : List Tree} (h : a.Holds base (cells base Ref.nil items))
    (hitems : List.Forall₂ a.Unfolds items trees) :
    a.Unfolds (cellRef base Ref.nil items) (.ofList trees) := by
  induction hitems generalizing base with
  | nil => exact .nil rfl
  | cons hitem _ ih =>
    rw [cells, holds_cons] at h
    exact .pair h.1 hitem (ih h.2)

theorem exists_forall₂_unfolds (hitems : ∀ item ∈ items, ∃ t, a.Unfolds item t) :
    ∃ trees, List.Forall₂ a.Unfolds items trees := by
  induction items with
  | nil => exact ⟨[], .nil⟩
  | cons item items ih =>
    rcases hitems item List.mem_cons_self with ⟨t, ht⟩
    rcases ih fun x hx => hitems x (List.mem_cons_of_mem _ hx) with ⟨trees, htrees⟩
    exact ⟨t :: trees, .cons ht htrees⟩

theorem exists_unfolds_of_cells (h : a.Holds base (cells base Ref.nil items))
    (hitems : ∀ item ∈ items, ∃ t, a.Unfolds item t) {i : Nat} (hlt : base < i)
    (hle : i ≤ base + items.length) : ∃ t, a.Unfolds ⟨i⟩ t := by
  induction items generalizing base with
  | nil => exact absurd hlt (Nat.not_lt.2 hle)
  | cons item items ih =>
    by_cases hi : i = base + 1
    · rcases exists_forall₂_unfolds hitems with ⟨trees, htrees⟩
      rw [hi]
      exact ⟨_, unfolds_cellRef h htrees⟩
    · rw [cells, holds_cons] at h
      rw [List.length_cons] at hle
      exact ih h.2 (fun x hx => hitems x (List.mem_cons_of_mem _ hx)) (by omega) (by omega)

theorem itemsWithin_eq {r : Ref} {t : Tree} (h : a.Unfolds r t) {n : Nat} (hn : t.height ≤ n) :
    ∃ items, a.itemsWithin n r = .ok items ∧ List.Forall₂ a.Unfolds items t.elements := by
  induction h generalizing n with
  | pair h hfirst _ _ ih =>
    simp only [Tree.height] at hn
    obtain ⟨n, rfl⟩ : ∃ m, n = m + 1 := ⟨n - 1, by omega⟩
    rcases ih (n := n) (by omega) with ⟨items, hitems, htrees⟩
    exact ⟨_ :: items, by simp [itemsWithin, get_eq_ok h, hitems, Except.map], .cons hfirst htrees⟩
  | _ h =>
    obtain ⟨n, rfl⟩ : ∃ m, n = m + 1 := ⟨n - 1, by simp only [Tree.height] at hn; omega⟩
    exact ⟨[], by simp [itemsWithin, get_eq_ok h], .nil⟩

theorem items_eq {r : Ref} {t : Tree} (h : a.Unfolds r t) :
    ∃ items, a.items r = .ok items ∧ List.Forall₂ a.Unfolds items t.elements :=
  itemsWithin_eq h h.height_le

theorem exists_unfolds_of_mem_items {r item : Ref} {t : Tree} {items : List Ref}
    (h : a.Unfolds r t) (hitems : a.items r = .ok items) (hitem : item ∈ items) :
    ∃ u, a.Unfolds item u ∧ u.height < t.height := by
  rcases items_eq h with ⟨items', hitems', htrees⟩
  cases hitems.symm.trans hitems'
  rcases List.getElem_of_mem hitem with ⟨i, hi, rfl⟩
  have hi' : i < t.elements.length := htrees.length_eq ▸ hi
  exact ⟨t.elements[i], htrees.get hi hi', Tree.height_lt_of_mem_elements (List.getElem_mem hi')⟩

end Arena

end Sexpr
