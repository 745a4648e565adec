import Sexpr.Arena.Items

/-! # Room in an arena

An arena has room for as many nodes as it may still get. Whatever is built adds nodes behind those
of the arena if there is room for them, and fails for lack of room if there is not. This holds of an
allocation, and it is kept when computations follow one another, so it does not matter at which
allocation the room ends.
-/

namespace Sexpr

section Build

variable {ε σ α β : Type} {x : EStateM ε σ α} {f : α → EStateM ε σ β} {v : α} {e : ε} {s s' : σ}

theorem bind_eq_of_ok (h : x s = .ok v s') : (x >>= f) s = f v s' := by
  simp only [bind, EStateM.bind, h]

theorem bind_eq_of_error (h : x s = .error e s') : (x >>= f) s = .error e s' := by
  simp only [bind, EStateM.bind, h]

theorem bind_eq_error (h : (x >>= f) s = .error e s') :
    x s = .error e s' ∨ ∃ v s₁, x s = .ok v s₁ ∧ f v s₁ = .error e s' := by
  cases hx : x s with
  | error e' s₁ =>
    cases (bind_eq_of_error hx : (x >>= f) s = _).symm.trans h
    exact .inl rfl
  | ok v s₁ => exact .inr ⟨v, s₁, rfl, (bind_eq_of_ok hx).symm.trans h⟩

theorem bind_eq_ok {w : β} (h : (x >>= f) s = .ok w s') :
    ∃ v s₁, x s = .ok v s₁ ∧ f v s₁ = .ok w s' := by
  cases hx : x s with
  | error e s₁ => cases (bind_eq_of_error hx : (x >>= f) s = _).symm.trans h
  | ok v s₁ => exact ⟨v, s₁, rfl, (bind_eq_of_ok hx).symm.trans h⟩

end Build

namespace Arena

/-- Nodes for which there is room. -/
def room (a : Arena) : Nat := a.capacity - a.size

def HasRoom (a : Arena) (n : Nat) : Prop := n ≤ a.room

instance (a : Arena) (n : Nat) : Decidable (a.HasRoom n) := Nat.decLe n a.room

def InLimit (a : Arena) : Prop := a.size ≤ a.capacity

/-- The arena with more nodes behind its own. -/
def extend (a : Arena) (nodes : List Node) : Arena := { a with nodes := a.nodes ++ nodes.toArray }

variable {a b : Arena} {m n most : Nat} {nodes more : List Node} {node : Node}

instance (a : Arena) : Decidable a.InLimit := Nat.decLe a.size a.capacity

theorem capacity_le_mostNodes (a : Arena) : a.capacity ≤ mostNodes := Nat.min_le_right _ _

theorem capacity_le_limit (h : a.limit = some most) : a.capacity ≤ most := by
  rw [capacity, h]
  exact Nat.min_le_left _ _

theorem capacity_of_unlimited (h : a.limit = none) : a.capacity = mostNodes := by
  simp [capacity, h]

@[simp] theorem extend_nil (a : Arena) : a.extend [] = a := by
  simp [extend]

@[simp] theorem size_extend (a : Arena) (nodes : List Node) :
    (a.extend nodes).size = a.size + nodes.length := by
  simp [extend, size]

@[simp] theorem limit_extend (a : Arena) (nodes : List Node) : (a.extend nodes).limit = a.limit :=
  rfl

@[simp] theorem capacity_extend (a : Arena) (nodes : List Node) :
    (a.extend nodes).capacity = a.capacity :=
  rfl

theorem extend_extend (a : Arena) (nodes more : List Node) :
    (a.extend nodes).extend more = a.extend (nodes ++ more) := by
  simp [extend]

theorem isFull_iff : a.isFull = true ↔ a.capacity ≤ a.size := by
  simp [isFull]

theorem isFull_eq_false_iff : a.isFull = false ↔ a.HasRoom 1 := by
  simp only [isFull, decide_eq_false_iff_not, HasRoom, room]
  omega

theorem isFull_extend : (a.extend nodes).isFull = false ↔ a.HasRoom (nodes.length + 1) := by
  simp only [isFull_eq_false_iff, HasRoom, room, capacity_extend, size_extend]
  omega

theorem hasRoom_zero (a : Arena) : a.HasRoom 0 := Nat.zero_le _

theorem hasRoom_empty : ({} : Arena).HasRoom n ↔ n ≤ mostNodes := by
  simp [HasRoom, room, capacity, size]

theorem HasRoom.mono (h : a.HasRoom n) (hmn : m ≤ n) : a.HasRoom m := Nat.le_trans hmn h

theorem HasRoom.inLimit (h : a.HasRoom n) (hn : 0 < n) : a.InLimit := by
  simp only [InLimit, HasRoom, room] at h ⊢
  omega

theorem hasRoom_extend (h : a.HasRoom nodes.length) :
    (a.extend nodes).HasRoom n ↔ a.HasRoom (nodes.length + n) := by
  simp only [HasRoom, room, capacity_extend, size_extend] at h ⊢
  omega

theorem InLimit.hasRoom_iff (h : a.InLimit) : a.HasRoom n ↔ a.size + n ≤ a.capacity := by
  simp only [InLimit, HasRoom, room] at h ⊢
  omega

theorem InLimit.of_le (h : a.size + n ≤ a.capacity) : a.InLimit :=
  Nat.le_trans (Nat.le_add_right _ _) h

theorem InLimit.extend (h : a.InLimit) (hroom : a.HasRoom nodes.length) :
    (a.extend nodes).InLimit := by
  rwa [InLimit, size_extend, capacity_extend, ← h.hasRoom_iff]

theorem InLimit.of_extend (h : (a.extend nodes).InLimit) : a.InLimit := by
  simp only [InLimit, capacity_extend, size_extend] at h ⊢
  omega

theorem InLimit.hasRoom_of_extend (h : (a.extend nodes).InLimit) : a.HasRoom nodes.length := by
  simp only [InLimit, HasRoom, room, capacity_extend, size_extend] at h ⊢
  omega

theorem InLimit.of_room (hroom : a.isFull = false) (hcapacity : b.capacity = a.capacity)
    (hsize : b.size = a.size + 1) : b.InLimit := by
  rw [InLimit, hcapacity, hsize]
  rwa [← Bool.not_eq_true, isFull_iff, Nat.not_le] at hroom

theorem InLimit.capacity_eq (h : a.InLimit) (hfull : a.isFull = true) : a.capacity = a.size :=
  Nat.le_antisymm (isFull_iff.1 hfull) h

/-- No more nodes fit if the limit is reached, or if all numbers are used up. -/
theorem InLimit.capacity_eq_iff (h : a.InLimit) :
    a.capacity = a.size ↔ a.limit = some a.size ∨ a.size = mostNodes := by
  rw [InLimit, capacity] at h
  rw [capacity]
  cases hlimit : a.limit with
  | none =>
    rw [hlimit, Option.getD_none] at h
    simp
    omega
  | some most =>
    rw [hlimit, Option.getD_some] at h
    simp
    omega

theorem inLimit_new (limit : Option Nat) : ({ limit := limit } : Arena).InLimit := Nat.zero_le _

theorem alloc_of_room (h : a.isFull = false) (node : Node) :
    alloc node a = .ok ⟨a.size + 1⟩ (a.extend [node]) := by
  rw [alloc, h, if_neg Bool.false_ne_true]
  simp [extend]

theorem alloc_of_full (h : a.isFull = true) (node : Node) :
    alloc node a = .error (.failure ⟨a.size⟩) a := by
  rw [alloc, h, if_pos rfl]

/-- A computation makes a value and adds nodes to an arena if there is room for them. Otherwise it
halts for lack of room. -/
structure Adds {ε α : Type} (a : Arena) (lack : ε → Prop) (r : EStateM.Result ε Arena α) (v : α)
    (nodes : List Node) : Prop where
  fits : a.HasRoom nodes.length → r = .ok v (a.extend nodes)
  lacks : ¬ a.HasRoom nodes.length → ∃ e b, r = .error e b ∧ lack e

section Adds

variable {ε α β : Type} {lack : ε → Prop} {r : EStateM.Result ε Arena α} {x : EStateM ε Arena α}
  {f : α → EStateM ε Arena β} {v : α} {w : β}

theorem Adds.of_ok (hroom : a.HasRoom nodes.length) (h : r = .ok v (a.extend nodes)) :
    Adds a lack r v nodes :=
  ⟨fun _ => h, fun hlack => absurd hroom hlack⟩

/-- Of two computations in a row, the first one may be all for which there is room. -/
theorem Adds.bind (hx : Adds a lack (x b) v nodes) (hle : nodes.length ≤ more.length)
    (hf : a.HasRoom nodes.length → Adds a lack (f v (a.extend nodes)) w more) :
    Adds a lack ((x >>= f) b) w more := by
  by_cases hroom : a.HasRoom nodes.length
  · rw [bind_eq_of_ok (hx.fits hroom)]
    exact hf hroom
  · refine ⟨fun hmore => absurd (hmore.mono hle) hroom, fun _ => ?_⟩
    rcases hx.lacks hroom with ⟨e, c, herror, hlack⟩
    exact ⟨e, c, bind_eq_of_error herror, hlack⟩

/-- When nodes are built, only an allocation can fail. -/
def LacksRoom (halt : Halt Exhausted) : Prop := ∃ e, halt = .failure e

theorem adds_alloc (a : Arena) (nodes : List Node) (node : Node) :
    Adds a LacksRoom (alloc node (a.extend nodes)) ⟨a.size + nodes.length + 1⟩
      (nodes ++ [node]) := by
  refine ⟨fun hroom => ?_, fun hlack => ?_⟩
  · rw [List.length_append, List.length_singleton, ← isFull_extend] at hroom
    rw [alloc_of_room hroom, size_extend, extend_extend]
  · rw [List.length_append, List.length_singleton, ← isFull_extend, Bool.not_eq_false] at hlack
    exact ⟨_, _, alloc_of_full hlack node, _, rfl⟩

theorem adds_couple (a : Arena) (nodes : List Node) (x y : Ref) :
    Adds a LacksRoom (couple x y (a.extend nodes)) ⟨a.size + nodes.length + 2⟩
      (nodes ++ [.pair y Ref.nil, .pair x ⟨a.size + nodes.length + 1⟩]) := by
  apply (adds_alloc a nodes (.pair y Ref.nil)).bind (by simp)
  intro _
  have hfirst := adds_alloc a (nodes ++ [.pair y Ref.nil]) (.pair x ⟨a.size + nodes.length + 1⟩)
  rwa [List.append_assoc, List.length_append, List.length_singleton] at hfirst

end Adds

end Arena

end Sexpr
