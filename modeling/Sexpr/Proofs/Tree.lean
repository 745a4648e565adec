import Mathlib.Data.Fintype.EquivFin
import Mathlib.Logic.Relation
import Sexpr.Arena.Equal
import Sexpr.Arena.Reachable

/-! # Values as trees

A reference whose nodes are all present and lead back to none of themselves stands for a finite
tree, in which shared nodes appear once for every path to them. The tree is unique, no path through
it is longer than the arena, and two values are equal exactly if they stand for the same tree.
-/

namespace Sexpr

inductive Tree
  | nil
  | pair (first rest : Tree)
  | string (contents : Bytes)
  | symbol (name : String)
  | integer (value : Int64)
deriving DecidableEq

namespace Tree

/-- Proper list of trees. -/
def ofList : List Tree → Tree
  | [] => nil
  | t :: ts => pair t (ofList ts)

/-- Levels of lists, the empty list being one. -/
def depth : Tree → Nat
  | nil => 1
  | pair first rest => max (first.depth + 1) rest.depth
  | _ => 0

/-- Nodes of the tree; the empty list takes no room. -/
def size : Tree → Nat
  | nil => 0
  | pair first rest => first.size + rest.size + 1
  | _ => 1

/-- Nodes on the longest path. -/
def height : Tree → Nat
  | pair first rest => max first.height rest.height + 1
  | _ => 1

/-- Elements of a list, an improper tail being passed over. -/
def elements : Tree → List Tree
  | pair first rest => first :: rest.elements
  | _ => []

/-- The chain of rests ends in the empty list. -/
def IsList : Tree → Prop
  | nil => True
  | pair _ rest => rest.IsList
  | _ => False

@[simp] theorem isList_ofList (ts : List Tree) : (ofList ts).IsList := by
  induction ts with
  | nil => trivial
  | cons t ts ih => exact ih

@[simp] theorem elements_ofList (ts : List Tree) : (ofList ts).elements = ts := by
  induction ts with
  | nil => rfl
  | cons t ts ih => simp [ofList, elements, ih]

theorem height_lt_of_mem_elements {t u : Tree} (h : u ∈ t.elements) : u.height < t.height := by
  induction t with
  | pair first rest _ ih =>
    rw [elements, List.mem_cons] at h
    rw [height]
    rcases h with rfl | h
    · omega
    · have hlt := ih h
      omega
  | _ => cases h

/-- The depth of a list is one more than the greatest depth of an element. -/
theorem depth_ofList (ts : List Tree) : (ofList ts).depth = (ts.map depth).foldr max 0 + 1 := by
  induction ts with
  | nil => rfl
  | cons t ts ih =>
    simp only [ofList, depth, List.map_cons, List.foldr_cons, ih]
    omega

end Tree

namespace Arena

/-- The tree that a reference stands for. -/
inductive Unfolds (a : Arena) : Ref → Tree → Prop
  | nil {r} (h : a.get? r = some .nil) : Unfolds a r .nil
  | pair {r first rest t u} (h : a.get? r = some (.pair first rest))
      (hfirst : Unfolds a first t) (hrest : Unfolds a rest u) : Unfolds a r (.pair t u)
  | string {r contents} (h : a.get? r = some (.string contents)) : Unfolds a r (.string contents)
  | symbol {r name} (h : a.get? r = some (.symbol name)) : Unfolds a r (.symbol name)
  | integer {r value} (h : a.get? r = some (.integer value)) : Unfolds a r (.integer value)

/-- A node leads to the references in its slots. -/
def Points (a : Arena) (r s : Ref) : Prop := ∃ node, a.get? r = some node ∧ s ∈ node.slots

abbrev Reaches (a : Arena) : Ref → Ref → Prop := Relation.ReflTransGen a.Points

/-- Nothing that a reference leads to is missing or leads back to itself. -/
structure Sound (a : Arena) (r : Ref) : Prop where
  closed : ∀ s, a.Reaches r s → (a.get? s).isSome
  acyclic : ∀ s, a.Reaches r s → ¬ Relation.TransGen a.Points s s

variable {a b : Arena} {r s x y : Ref} {t u : Tree}

theorem get_eq_ok {node : Node} (h : a.get? r = some node) : a.get r = .ok node := by
  simp [get, h]

theorem Unfolds.unique (h : a.Unfolds r t) (h' : a.Unfolds r u) : t = u := by
  induction h generalizing u with
  | pair h _ _ ihfirst ihrest =>
    cases h' with
    | pair h' hfirst hrest =>
      cases h.symm.trans h'
      rw [ihfirst hfirst, ihrest hrest]
    | _ h' => cases h.symm.trans h'
  | _ h => cases h' <;> simp_all

theorem Unfolds.get?_isSome (h : a.Unfolds r t) : (a.get? r).isSome := by
  cases h <;> simp [*]

theorem Unfolds.of_points (h : a.Unfolds r t) (hs : a.Points r s) :
    ∃ u, a.Unfolds s u ∧ u.height < t.height := by
  rcases hs with ⟨node, hnode, hmem⟩
  cases h with
  | pair h hfirst hrest =>
    cases h.symm.trans hnode
    simp only [Node.slots, List.mem_cons, List.not_mem_nil, or_false] at hmem
    rcases hmem with rfl | rfl
    · exact ⟨_, hfirst, by simp only [Tree.height]; omega⟩
    · exact ⟨_, hrest, by simp only [Tree.height]; omega⟩
  | _ h =>
    cases h.symm.trans hnode
    simp [Node.slots] at hmem

theorem Unfolds.of_reaches (h : a.Unfolds r t) (hs : a.Reaches r s) : ∃ u, a.Unfolds s u := by
  induction hs with
  | refl => exact ⟨t, h⟩
  | tail _ hs ih =>
    rcases ih with ⟨u, hu⟩
    rcases hu.of_points hs with ⟨v, hv, _⟩
    exact ⟨v, hv⟩

theorem Unfolds.height_lt_of_transGen (h : a.Unfolds r t)
    (hs : Relation.TransGen a.Points r s) : ∃ u, a.Unfolds s u ∧ u.height < t.height := by
  induction hs with
  | single hs => exact h.of_points hs
  | tail _ hs ih =>
    rcases ih with ⟨u, hu, hut⟩
    rcases hu.of_points hs with ⟨v, hv, hvu⟩
    exact ⟨v, hv, hvu.trans hut⟩

theorem Unfolds.sound (h : a.Unfolds r t) : a.Sound r where
  closed s hs := by
    rcases h.of_reaches hs with ⟨u, hu⟩
    exact hu.get?_isSome
  acyclic s hs hcycle := by
    rcases h.of_reaches hs with ⟨u, hu⟩
    rcases hu.height_lt_of_transGen hcycle with ⟨v, hv, hlt⟩
    rw [hv.unique hu] at hlt
    exact Nat.lt_irrefl _ hlt

theorem index_le_size (h : (a.get? r).isSome) : r.index ≤ a.size := get?_isSome_iff.1 h

/-- References that a sound value leads to. There are finitely many, so leading on ends. -/
private abbrev Within (a : Arena) (r : Ref) := {s : Ref // a.Reaches r s}

private theorem Sound.finite (h : a.Sound r) : Finite (Within a r) := by
  refine Finite.of_injective
    (fun s : Within a r => (⟨s.1.index, Nat.lt_succ_of_le (index_le_size (h.closed s.1 s.2))⟩ :
      Fin (a.size + 1))) ?_
  rintro ⟨⟨i⟩, hi⟩ ⟨⟨j⟩, hj⟩ heq
  simpa using heq

private theorem Sound.wellFounded (h : a.Sound r) :
    WellFounded fun s q : Within a r => Relation.TransGen a.Points q.1 s.1 := by
  have := h.finite
  have htrans : IsTrans (Within a r) fun s q => Relation.TransGen a.Points q.1 s.1 :=
    ⟨fun _ _ _ h₁ h₂ => h₂.trans h₁⟩
  have hirrefl : Std.Irrefl fun s q : Within a r => Relation.TransGen a.Points q.1 s.1 :=
    ⟨fun s => h.acyclic s.1 s.2⟩
  exact Finite.wellFounded_of_trans_of_irrefl _

theorem Sound.exists_unfolds (h : a.Sound r) : ∃ t, a.Unfolds r t := by
  suffices hall : ∀ s : Within a r, ∃ t, a.Unfolds s.1 t from hall ⟨r, .refl⟩
  intro s
  induction s using h.wellFounded.induction with
  | _ s ih =>
    rcases Option.isSome_iff_exists.1 (h.closed s.1 s.2) with ⟨node, hnode⟩
    have hslot (q : Ref) (hq : q ∈ node.slots) : ∃ t, a.Unfolds q t :=
      have hpoints : a.Points s.1 q := ⟨node, hnode, hq⟩
      ih ⟨q, s.2.tail hpoints⟩ (.single hpoints)
    cases node with
    | nil => exact ⟨_, .nil hnode⟩
    | pair first rest =>
      rcases hslot first (by simp [Node.slots]) with ⟨t, ht⟩
      rcases hslot rest (by simp [Node.slots]) with ⟨u, hu⟩
      exact ⟨_, .pair hnode ht hu⟩
    | string contents => exact ⟨_, .string hnode⟩
    | symbol name => exact ⟨_, .symbol hnode⟩
    | integer value => exact ⟨_, .integer hnode⟩

/-- Being closed and free of circles is the same as standing for a tree. -/
theorem sound_iff_unfolds : a.Sound r ↔ ∃ t, a.Unfolds r t :=
  ⟨Sound.exists_unfolds, fun ⟨_, h⟩ => h.sound⟩

open Classical in
/-- Numbers of the nodes that stand for trees of a bounded height. -/
private noncomputable def upTo (a : Arena) (n : Nat) : Finset Nat :=
  (Finset.range (a.size + 1)).filter fun i => ∃ t, a.Unfolds ⟨i⟩ t ∧ t.height ≤ n

private theorem mem_upTo {n : Nat} (h : a.Unfolds r t) : r.index ∈ a.upTo n ↔ t.height ≤ n := by
  have hr := index_le_size h.get?_isSome
  simp only [upTo, Finset.mem_filter, Finset.mem_range, Nat.lt_succ_of_le hr, true_and]
  constructor
  · rintro ⟨u, hu, hle⟩
    rwa [h.unique hu]
  · exact fun hle => ⟨t, h, hle⟩

/-- Each node on a path is higher than the next one, so a path meets no node twice. -/
private theorem Unfolds.height_le_card (h : a.Unfolds r t) :
    t.height ≤ (a.upTo t.height).card := by
  have hmono {m n : Nat} (hmn : m ≤ n) : a.upTo m ⊆ a.upTo n := fun i hi => by
    simp only [upTo, Finset.mem_filter] at hi ⊢
    rcases hi with ⟨hi, v, hv, hle⟩
    exact ⟨hi, v, hv, hle.trans hmn⟩
  induction h with
  | @pair r _ _ t u h hfirst hrest ihfirst ihrest =>
    have hroot : a.Unfolds r (.pair t u) := .pair h hfirst hrest
    have hcard : (a.upTo (max t.height u.height)).card < (a.upTo (Tree.pair t u).height).card := by
      refine Finset.card_lt_card (Finset.ssubset_iff_of_subset (hmono (Nat.le_succ _)) |>.2
        ⟨r.index, (mem_upTo hroot).2 le_rfl, ?_⟩)
      rw [mem_upTo hroot]
      exact Nat.not_succ_le_self _
    have ht := ihfirst.trans (Finset.card_le_card (hmono (le_max_left t.height u.height)))
    have hu := ihrest.trans (Finset.card_le_card (hmono (le_max_right t.height u.height)))
    simp only [Tree.height] at hcard ⊢
    omega
  | nil h => exact Finset.card_pos.2 ⟨_, (mem_upTo (.nil h)).2 le_rfl⟩
  | string h => exact Finset.card_pos.2 ⟨_, (mem_upTo (.string h)).2 le_rfl⟩
  | symbol h => exact Finset.card_pos.2 ⟨_, (mem_upTo (.symbol h)).2 le_rfl⟩
  | integer h => exact Finset.card_pos.2 ⟨_, (mem_upTo (.integer h)).2 le_rfl⟩

theorem Unfolds.height_le (h : a.Unfolds r t) : t.height ≤ a.size + 1 := by
  classical
  calc
    t.height ≤ (a.upTo t.height).card := h.height_le_card
    _ ≤ (Finset.range (a.size + 1)).card := Finset.card_le_card (Finset.filter_subset _ _)
    _ = a.size + 1 := Finset.card_range _

theorem equalWithin_eq {n : Nat} (hx : a.Unfolds x t) (hy : b.Unfolds y u) (hn : t.height ≤ n) :
    equalWithin a b n x y = .ok (decide (t = u)) := by
  induction hx generalizing y u n with
  | @pair _ _ _ t₁ _ h _ _ ihfirst ihrest =>
    obtain ⟨n, rfl⟩ : ∃ m, n = m + 1 := ⟨n - 1, by simp only [Tree.height] at hn; omega⟩
    simp only [Tree.height] at hn
    cases hy with
    | @pair _ _ _ u₁ _ h' hfirst hrest =>
      have hfirst := ihfirst hfirst (n := n) (by omega)
      have hrest := ihrest hrest (n := n) (by omega)
      by_cases heq : t₁ = u₁ <;>
        simp [equalWithin, get_eq_ok h, get_eq_ok h', hfirst, hrest, heq]
    | _ h' => simp [equalWithin, get_eq_ok h, get_eq_ok h']
  | _ h =>
    obtain ⟨n, rfl⟩ : ∃ m, n = m + 1 := ⟨n - 1, by simp only [Tree.height] at hn; omega⟩
    cases hy with
    | _ h' => simp [equalWithin, get_eq_ok h, get_eq_ok h', beq_eq_decide]

theorem equal_eq (hx : a.Unfolds x t) (hy : b.Unfolds y u) :
    a.equal x b y = .ok (decide (t = u)) := by
  apply equalWithin_eq hx hy
  apply hx.height_le.trans
  exact (Nat.le_mul_of_pos_right _ (Nat.succ_pos _)).trans (Nat.le_succ _)

end Arena

end Sexpr
