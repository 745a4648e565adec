import Sexpr.Proofs.Dump
import Sexpr.Proofs.TreeText

/-! # Lists and their items

A list is read back as the items that it was built from, whatever these are. They may refer to no
node at all or to cells of the list itself, for building and reading only pass them on. If there is
room for some of the cells only, those that were built are a list of the first items. A couple is
the same list of two items with its cells the other way round.
-/

namespace Sexpr

namespace Arena

/-- Reading a value as a list gives these items, and reading the first of them only gives as many as
there are. -/
structure Lists (a : Arena) (r : Ref) (items : List Ref) : Prop where
  all : a.items r = .ok items
  front : ∀ n, a.take n r = .ok (items.take n)

/-- The second arena has the nodes of the first, as they were, and behind them one cell for each
item. A cell leads to the next one, and the last one to the empty list. -/
structure AddsCells (a : Arena) (items : List Ref) (b : Arena) : Prop where
  limit : b.limit = a.limit
  size : b.size = a.size + items.length
  keeps : ∀ r, r.index ≤ a.size → b.get? r = a.get? r
  cell : ∀ i item, items[i]? = some item → b.get? ⟨a.size + i + 1⟩ =
    some (.pair item (if i + 1 < items.length then ⟨a.size + i + 2⟩ else Ref.nil))

variable {a b c : Arena} {base most n i : Nat} {next x y item : Ref} {items : List Ref}

theorem getElem?_cells (base : Nat) (hitem : items[i]? = some item) :
    (cells base next items)[i]? =
      some (.pair item (if i + 1 < items.length then ⟨base + i + 2⟩ else next)) := by
  induction items generalizing base i with
  | nil => cases hitem
  | cons first items ih =>
    cases i with
    | zero =>
      cases hitem
      cases items <;> simp [cells, cellRef]
    | succ i =>
      have hcell := ih (base + 1) hitem
      have hindex : base + 1 + i + 2 = base + (i + 1) + 2 := by omega
      rw [hindex] at hcell
      simpa [cells] using hcell

theorem addsCells_extend (a : Arena) (items : List Ref) :
    a.AddsCells items (a.extend (cells a.size Ref.nil items)) where
  limit := rfl
  size := by rw [size_extend, length_cells]
  keeps r hr := by
    obtain ⟨node, hnode⟩ := Option.isSome_iff_exists.1 (get?_isSome_iff.2 hr)
    rw [hnode]
    exact get?_extend_of_some hnode
  cell i item hitem := by
    rw [get?_extend]
    exact getElem?_cells a.size hitem

theorem itemsWithin_cellRef (h : a.Holds base (cells base Ref.nil items)) (hn : items.length < n) :
    a.itemsWithin n (cellRef base Ref.nil items) = .ok items := by
  induction items generalizing base n with
  | nil =>
    obtain ⟨n, rfl⟩ := Nat.exists_eq_add_one.2 hn
    rfl
  | cons item items ih =>
    obtain ⟨n, rfl⟩ := Nat.exists_eq_add_one.2 (Nat.zero_lt_of_lt hn)
    rw [cells, holds_cons] at h
    have hrest := ih h.2 (Nat.lt_of_succ_lt_succ hn)
    rw [cellRef, itemsWithin, get_eq_ok h.1]
    exact congrArg (Except.map (item :: ·)) hrest

theorem take_cellRef (h : a.Holds base (cells base Ref.nil items)) (n : Nat) :
    a.take n (cellRef base Ref.nil items) = .ok (items.take n) := by
  induction items generalizing base n with
  | nil => cases n <;> rfl
  | cons item items ih =>
    cases n with
    | zero => rfl
    | succ n =>
      rw [cells, holds_cons] at h
      rw [cellRef, take, get_eq_ok h.1]
      exact congrArg (Except.map (item :: ·)) (ih h.2 n)

theorem lists_extend (a : Arena) (items : List Ref) :
    (a.extend (cells a.size Ref.nil items)).Lists (cellRef a.size Ref.nil items) items := by
  have hcells := holds_extend a (cells a.size Ref.nil items)
  refine ⟨itemsWithin_cellRef hcells ?_, take_cellRef hcells⟩
  rw [size_extend, length_cells]
  omega

theorem list_of_room (items : List Ref) (hroom : a.HasRoom items.length) :
    list items a =
      .ok (cellRef a.size Ref.nil items) (a.extend (cells a.size Ref.nil items)) := by
  by_cases hne : items = []
  · rw [hne, cells, extend_nil]
    rfl
  · rcases list_eq (hroom.inLimit (List.length_pos_iff.2 hne)) items with
      ⟨hok, _⟩ | ⟨built, left, rfl, hleft, hin, hfull, _⟩
    · exact hok
    · have hcapacity := hin.capacity_eq hfull
      have hpos := List.length_pos_iff.2 hleft
      rw [capacity_extend, size_extend, length_cells] at hcapacity
      rw [HasRoom, room, hcapacity, List.length_append] at hroom
      omega

theorem list_of_full (hfull : a.isFull = true) (hne : items ≠ []) :
    list items a = .error (.failure ⟨a.size⟩) a := by
  cases items with
  | nil => exact absurd rfl hne
  | cons item items =>
    rw [list, List.foldlM_cons, bind_assoc]
    exact bind_eq_of_error (OpenList.append_of_full hfull {} item)

/-- As many items get their cells as there is room for. -/
theorem list_of_lack (items : List Ref) (hlack : ¬ a.HasRoom items.length) :
    let fitting := items.take a.room
    list items a = .error (.failure ⟨a.size + fitting.length⟩)
      (a.extend (cells a.size Ref.nil fitting)) := by
  intro fitting
  by_cases hin : a.InLimit
  · rcases list_eq hin items with ⟨_, hin'⟩ | ⟨built, left, hitems, _, hin', hfull, herror⟩
    · have hroom := hin'.hasRoom_of_extend
      rw [length_cells] at hroom
      exact absurd hroom hlack
    · have hcapacity := hin'.capacity_eq hfull
      rw [capacity_extend, size_extend, length_cells] at hcapacity
      have hbuilt : fitting = built := by
        rw [show fitting = items.take a.room from rfl, room, hcapacity, Nat.add_sub_cancel_left,
          hitems, List.take_left]
      rw [hbuilt]
      exact herror
  · have hle := Nat.le_of_not_le hin
    have hnone : fitting = [] := by
      rw [show fitting = items.take a.room from rfl, room, Nat.sub_eq_zero_of_le hle,
        List.take_zero]
    have hne : items ≠ [] := by
      rintro rfl
      exact hlack a.hasRoom_zero
    rw [hnone, cells, extend_nil]
    exact list_of_full (isFull_iff.2 hle) hne

theorem couple_of_room (hroom : a.HasRoom 2) (x y : Ref) :
    couple x y a =
      .ok ⟨a.size + 2⟩ (a.extend [.pair y Ref.nil, .pair x ⟨a.size + 1⟩]) := by
  have hcouple := (adds_couple a [] x y).fits hroom
  rwa [extend_nil] at hcouple

theorem couple_of_lack (hlack : ¬ a.HasRoom 2) (x y : Ref) :
    ∃ b, couple x y a = .error (.failure ⟨b.size⟩) b ∧ b.size = a.size + a.room := by
  cases hfull : a.isFull with
  | true =>
    refine ⟨a, bind_eq_of_error (alloc_of_full hfull _), ?_⟩
    rw [room, Nat.sub_eq_zero_of_le (isFull_iff.1 hfull), Nat.add_zero]
  | false =>
    have hroom := isFull_eq_false_iff.1 hfull
    have hfull' : (a.extend [.pair y Ref.nil]).isFull = true := by
      rwa [← Bool.not_eq_false, isFull_extend]
    refine ⟨a.extend [.pair y Ref.nil], ?_, ?_⟩
    · exact (bind_eq_of_ok (alloc_of_room hfull _)).trans (alloc_of_full hfull' _)
    · rw [HasRoom] at hroom hlack
      rw [size_extend, List.length_singleton]
      omega

/-- The value was built after one arena was there and before another was. -/
def Built (build : Build Ref) (a : Arena) (r : Ref) (b : Arena) : Prop :=
  ∃ c d, a.GrowsTo c ∧ build c = .ok r d ∧ d.GrowsTo b

variable {r s : Ref} {t u : Tree}

theorem Built.unfolds {build : Build Ref} (h : Built build a r b)
    (hbuild : ∀ c d, a.GrowsTo c → build c = .ok r d → d.Unfolds r t) : b.Unfolds r t := by
  obtain ⟨c, d, hc, hok, hd⟩ := h
  exact (hbuild c d hc hok).growsTo hd

theorem unfolds_couple (h : couple x y a = .ok r b) (hx : a.Unfolds x t) (hy : a.Unfolds y u) :
    b.Unfolds r (.ofList [t, u]) := by
  by_cases hroom : a.HasRoom 2
  · cases (couple_of_room hroom x y).symm.trans h
    have hcells := holds_extend a [.pair y Ref.nil, .pair x ⟨a.size + 1⟩]
    have hrest : (a.extend [.pair y Ref.nil, .pair x ⟨a.size + 1⟩]).Unfolds ⟨a.size + 1⟩
        (.ofList [u]) := .pair (hcells 0 _ rfl) (hy.extend _) (.nil rfl)
    exact .pair (hcells 1 _ rfl) (hx.extend _) hrest
  · obtain ⟨_, herror, _⟩ := couple_of_lack hroom x y
    cases herror.symm.trans h

theorem unfolds_list_pair (h : list [x, y] a = .ok r b) (hx : a.Unfolds x t)
    (hy : a.Unfolds y u) : b.Unfolds r (.ofList [t, u]) := by
  by_cases hroom : a.HasRoom 2
  · cases (list_of_room [x, y] hroom).symm.trans h
    exact unfolds_cellRef (holds_extend a _) (.cons (hx.extend _) (.cons (hy.extend _) .nil))
  · cases (list_of_lack [x, y] hroom).symm.trans h

theorem couple_and_list_of_lack (hroom : ¬ a.HasRoom 2) (x y : Ref) : ∃ b c,
    couple x y a = .error (.failure ⟨b.size⟩) b ∧ list [x, y] a = .error (.failure ⟨c.size⟩) c ∧
      b.size = c.size := by
  obtain ⟨b, hcouple, hsize⟩ := couple_of_lack hroom x y
  refine ⟨b, a.extend (cells a.size Ref.nil ([x, y].take a.room)), hcouple, ?_, ?_⟩
  · rw [list_of_lack [x, y] hroom, size_extend, length_cells]
  · rw [hsize, size_extend, length_cells, List.length_take, Nat.min_eq_left]
    exact Nat.le_of_not_le hroom

/-- Building a list and reading it are inverse, whatever the items refer to. A list without items
takes no node. A list of others takes one cell for each of them, in order, and it is read as these
items. If there is room for some cells only, building it fails at the limit, and the cells that it
leaves are a list of as many items. The nodes that were there before stay as they were. A couple is
a list of two items whose cells are built in the opposite order: it takes as many nodes, and where
the items stand for trees, it is equal to the list and has the same written form, wherever the two
are built and whatever is built later. -/
theorem list_reads_back (a : Arena) :
    list [] a = .ok Ref.nil a ∧
    (∀ items, a.HasRoom items.length → ∃ b,
      list items a = .ok (cellRef a.size Ref.nil items) b ∧ a.AddsCells items b ∧
        b.Lists (cellRef a.size Ref.nil items) items) ∧
    (∀ items, ¬ a.HasRoom items.length →
      let fitting := items.take a.room
      ∃ b, list items a = .error (.failure ⟨b.size⟩) b ∧ (a.InLimit → b.size = a.capacity) ∧
        a.AddsCells fitting b ∧ b.Lists (cellRef a.size Ref.nil fitting) fitting) ∧
    ∀ x y,
      (a.HasRoom 2 →
        couple x y a =
          .ok ⟨a.size + 2⟩ (a.extend [.pair y Ref.nil, .pair x ⟨a.size + 1⟩]) ∧
        list [x, y] a =
          .ok ⟨a.size + 1⟩ (a.extend [.pair x ⟨a.size + 2⟩, .pair y Ref.nil])) ∧
      (¬ a.HasRoom 2 → ∃ b c,
        couple x y a = .error (.failure ⟨b.size⟩) b ∧
          list [x, y] a = .error (.failure ⟨c.size⟩) c ∧ b.size = c.size) ∧
      (a.Sound x → a.Sound y → ∀ b c r s, Built (couple x y) a r b → Built (list [x, y]) a s c →
        b.equal r c s = .ok true ∧ c.equal s b r = .ok true ∧
          ∃ text, b.print r = .ok text ∧ c.print s = .ok text) := by
  refine ⟨rfl, ?_, ?_, fun x y => ⟨?_, ?_, ?_⟩⟩
  · intro items hroom
    exact ⟨_, list_of_room items hroom, addsCells_extend a items, lists_extend a items⟩
  · intro items hlack fitting
    have hsize : (a.extend (cells a.size Ref.nil fitting)).size = a.size + fitting.length := by
      rw [size_extend, length_cells]
    refine ⟨_, ?_, fun hin => ?_, addsCells_extend a fitting, lists_extend a fitting⟩
    · rw [hsize]
      exact list_of_lack items hlack
    · rw [HasRoom] at hlack
      rw [InLimit] at hin
      rw [hsize, List.length_take, Nat.min_eq_left (Nat.le_of_not_le hlack), room]
      omega
  · intro hroom
    exact ⟨couple_of_room hroom x y, list_of_room [x, y] hroom⟩
  · intro hroom
    exact couple_and_list_of_lack hroom x y
  · intro hx hy b c r s hcouple hlist
    obtain ⟨t, ht⟩ := hx.exists_unfolds
    obtain ⟨u, hu⟩ := hy.exists_unfolds
    have hr : b.Unfolds r (.ofList [t, u]) := hcouple.unfolds fun d e hd hok =>
      unfolds_couple hok (ht.growsTo hd) (hu.growsTo hd)
    have hs : c.Unfolds s (.ofList [t, u]) := hlist.unfolds fun d e hd hok =>
      unfolds_list_pair hok (ht.growsTo hd) (hu.growsTo hd)
    have hequal := equal_eq hr hs
    have hequal' := equal_eq hs hr
    rw [decide_eq_true rfl] at hequal hequal'
    exact ⟨hequal, hequal', _, print_eq hr, print_eq hs⟩

/-- An item that is the first cell itself and one that is missing, with room for these two only.
Then a couple and a list of the same two items, one behind the other in one arena. -/
theorem list_reads_back_own_cell :
    (∃ b, list [⟨1⟩, ⟨7⟩, Ref.nil] { limit := some 2 } = .error (.failure ⟨2⟩) b ∧
      b.items ⟨1⟩ = .ok [⟨1⟩, ⟨7⟩]) ∧
    ∃ b r s, Built (couple Ref.nil ⟨1⟩) ⟨#[.symbol "a"], none⟩ r b ∧
      Built (list [Ref.nil, ⟨1⟩]) ⟨#[.symbol "a"], none⟩ s b ∧ r ≠ s ∧
      b.equal r b s = .ok true := by
  constructor
  · obtain ⟨b, herror, hsize, _, hlists⟩ :=
      (list_reads_back { limit := some 2 }).2.2.1 [⟨1⟩, ⟨7⟩, Ref.nil] (by decide)
    rw [hsize (by decide)] at herror
    exact ⟨b, herror, hlists.all⟩
  · let a : Arena := ⟨#[.symbol "a"], none⟩
    let b := a.extend [.pair ⟨1⟩ Ref.nil, .pair Ref.nil ⟨2⟩]
    let c := b.extend [.pair Ref.nil ⟨5⟩, .pair ⟨1⟩ Ref.nil]
    have hab : a.GrowsTo b := growsTo_extend (by decide)
    have hbc : b.GrowsTo c := growsTo_extend (by decide)
    have hcouple : Built (couple Ref.nil ⟨1⟩) a ⟨3⟩ c := ⟨a, b, .refl a, rfl, hbc⟩
    have hlist : Built (list [Ref.nil, ⟨1⟩]) a ⟨4⟩ c := ⟨b, c, hab, rfl, .refl c⟩
    have hequal := ((list_reads_back a).2.2.2 Ref.nil ⟨1⟩).2.2 (Unfolds.sound (.nil rfl))
      (Unfolds.sound (.symbol rfl)) c c ⟨3⟩ ⟨4⟩ hcouple hlist
    exact ⟨c, ⟨3⟩, ⟨4⟩, hcouple, hlist, by decide, hequal.1⟩

end Arena

end Sexpr
