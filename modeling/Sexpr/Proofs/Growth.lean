import Sexpr.Arena.Dump
import Sexpr.Proofs.Cells

/-! # How arenas grow

Whatever is built in an arena, nodes are only added to it, behind those that are there and no more
than are allowed, and nothing is built that is left out or runs in a circle unless the references
that it is built from are. If building halts, the halt tells the truth about the arena that it
leaves. Each allocation has these properties, they are kept in a row of computations, and so lists
and dumps have them.
-/

namespace Sexpr

namespace Arena

def Grounded (a : Arena) : Prop := ∀ r, (a.get? r).isSome → ∃ t, a.Unfolds r t

/-- The second arena has the nodes of the first and others behind them. -/
structure GrowsTo (a b : Arena) : Prop where
  adds : ∃ nodes, b = a.extend nodes
  inLimit : a.InLimit → b.InLimit

def Fresh (a : Arena) (r : Ref) (b : Arena) : Prop := a.size < r.index ∧ r.index ≤ b.size

variable {a b c : Arena} {r : Ref} {node : Node} {nodes : List Node} {t : Tree}

theorem GrowsTo.refl (a : Arena) : a.GrowsTo a := ⟨⟨[], (extend_nil a).symm⟩, id⟩

theorem GrowsTo.trans (h : a.GrowsTo b) (h' : b.GrowsTo c) : a.GrowsTo c := by
  rcases h with ⟨⟨nodes, rfl⟩, hlimit⟩
  rcases h' with ⟨⟨more, rfl⟩, hlimit'⟩
  exact ⟨⟨nodes ++ more, extend_extend a nodes more⟩, hlimit' ∘ hlimit⟩

theorem GrowsTo.size_le (h : a.GrowsTo b) : a.size ≤ b.size := by
  rcases h.adds with ⟨nodes, rfl⟩
  rw [size_extend]
  exact Nat.le_add_right _ _

theorem GrowsTo.fresh (h : a.GrowsTo b) (hr : Fresh b r c) : Fresh a r c :=
  ⟨Nat.lt_of_le_of_lt h.size_le hr.1, hr.2⟩

theorem Fresh.of_new (h : Fresh a r b) : r ≠ Ref.nil ∧ a.get? r = none ∧ (b.get? r).isSome := by
  refine ⟨?_, ?_, get?_isSome_iff.2 h.2⟩
  · rintro rfl
    exact Nat.not_lt_zero _ h.1
  · rw [← Option.not_isSome_iff_eq_none, get?_isSome_iff]
    exact Nat.not_le.2 h.1

theorem get?_extend_of_some (h : a.get? r = some node) : (a.extend nodes).get? r = some node := by
  rcases r with ⟨_ | i⟩
  · exact h
  · have hlt : i < a.nodes.size := (Array.getElem?_eq_some_iff.1 h).1
    exact (Array.getElem?_append_left hlt).trans h

theorem Unfolds.extend (h : a.Unfolds r t) (nodes : List Node) : (a.extend nodes).Unfolds r t := by
  induction h with
  | nil h => exact .nil (get?_extend_of_some h)
  | pair h _ _ ihfirst ihrest => exact .pair (get?_extend_of_some h) ihfirst ihrest
  | string h => exact .string (get?_extend_of_some h)
  | symbol h => exact .symbol (get?_extend_of_some h)
  | integer h => exact .integer (get?_extend_of_some h)

theorem Unfolds.growsTo (h : a.Unfolds r t) (hb : a.GrowsTo b) : b.Unfolds r t := by
  rcases hb.adds with ⟨nodes, rfl⟩
  exact h.extend nodes

theorem Grounded.exists_unfolds (h : a.Grounded) (hr : r.index ≤ a.size) : ∃ t, a.Unfolds r t :=
  h r (get?_isSome_iff.2 hr)

theorem Grounded.extend (h : a.Grounded)
    (hnodes : ∀ i, a.size < i → i ≤ a.size + nodes.length → ∃ t, (a.extend nodes).Unfolds ⟨i⟩ t) :
    (a.extend nodes).Grounded := by
  intro r hr
  rw [get?_isSome_iff, size_extend] at hr
  by_cases hold : r.index ≤ a.size
  · rcases h.exists_unfolds hold with ⟨t, ht⟩
    exact ⟨t, ht.extend nodes⟩
  · exact hnodes r.index (Nat.not_le.1 hold) hr

theorem Grounded.alloc (h : a.Grounded) (hslots : ∀ s ∈ node.slots, s.index ≤ a.size) :
    (a.extend [node]).Grounded := by
  refine h.extend fun i hlt hle => ?_
  have hi : i = a.size + 0 + 1 := by
    rw [List.length_singleton] at hle
    omega
  have hget : (a.extend [node]).get? ⟨i⟩ = some node := hi ▸ get?_extend a [node] 0
  cases node with
  | pair first rest =>
    rcases h.exists_unfolds (hslots first (by simp [Node.slots])) with ⟨t, ht⟩
    rcases h.exists_unfolds (hslots rest (by simp [Node.slots])) with ⟨u, hu⟩
    exact ⟨_, .pair hget (ht.extend _) (hu.extend _)⟩
  | _ => exact ⟨_, unfolds_ofAtom hget rfl⟩

theorem Grounded.cells (h : a.Grounded) {items : List Ref}
    (hitems : ∀ item ∈ items, item.index ≤ a.size) :
    (a.extend (cells a.size Ref.nil items)).Grounded := by
  refine h.extend fun i hlt hle => ?_
  rw [length_cells] at hle
  refine exists_unfolds_of_cells (holds_extend a _) (fun item hitem => ?_) hlt hle
  rcases h.exists_unfolds (hitems item hitem) with ⟨t, ht⟩
  exact ⟨t, ht.extend _⟩

end Arena

/-- A fault tells that an arena has no node under a reference or that a structure has no end. -/
def Fault.Tells (b : Arena) : Fault → Prop
  | dangling r => b.get? r = none
  | endless _ => True
  | _ => False

/-- A failure tells that an arena is full and how many nodes it has. -/
def Halt.Tells (b : Arena) : Halt Exhausted → Prop
  | failure e => b.capacity = b.size ∧ e.count = b.size
  | .fault f => f.Tells b

/-- What a computation comes to in an arena. It only adds nodes and makes something, or it halts and
tells why. Where it is properly used, all nodes keep standing for trees and there is no fault. -/
def Builds {α : Type} (proper : Prop) (x : Build α) (a : Arena) (made : α → Arena → Prop) : Prop :=
  match x a with
  | .ok v b => a.GrowsTo b ∧ (proper → b.Grounded) ∧ made v b
  | .error halt b => a.GrowsTo b ∧ (proper → b.Grounded) ∧ halt.Tells b ∧
      (proper → ∃ e, halt = .failure e)

namespace Builds

open Arena (Fresh)

variable {α β : Type} {p q : Prop} {x : Build α} {f : α → Build β} {a b : Arena}
  {made : α → Arena → Prop} {more : β → Arena → Prop} {v : α}

theorem of_ok (h : x a = .ok v b) (hgrows : a.GrowsTo b) (hgrounded : p → b.Grounded)
    (hmade : made v b) : Builds p x a made := by
  rw [Builds, h]
  exact ⟨hgrows, hgrounded, hmade⟩

theorem of_error {halt : Halt Exhausted} (h : x a = .error halt b) (hgrows : a.GrowsTo b)
    (hgrounded : p → b.Grounded) (htells : halt.Tells b) (hproper : p → ∃ e, halt = .failure e) :
    Builds p x a made := by
  rw [Builds, h]
  exact ⟨hgrows, hgrounded, htells, hproper⟩

theorem mono (h : Builds q x a made) (hq : p → q) {made' : α → Arena → Prop}
    (hmade : ∀ v b, a.GrowsTo b → made v b → made' v b) : Builds p x a made' := by
  unfold Builds at h ⊢
  split at h
  · exact ⟨h.1, h.2.1 ∘ hq, hmade _ _ h.1 h.2.2⟩
  · exact ⟨h.1, h.2.1 ∘ hq, h.2.2.1, h.2.2.2 ∘ hq⟩

theorem bind (ha : a.InLimit) (hx : Builds p x a made)
    (hf : ∀ v b, a.GrowsTo b → b.InLimit → (p → b.Grounded) → made v b →
      Builds p (f v) b more) : Builds p (x >>= f) a more := by
  unfold Builds at hx
  split at hx
  · rename_i v b hv
    rcases hx with ⟨hgrows, hgrounded, hmade⟩
    have hnext := hf v b hgrows (hgrows.inLimit ha) hgrounded hmade
    unfold Builds at hnext ⊢
    rw [bind_eq_of_ok hv]
    split at hnext
    · exact ⟨hgrows.trans hnext.1, hnext.2⟩
    · exact ⟨hgrows.trans hnext.1, hnext.2⟩
  · rename_i halt b hv
    rw [Builds, bind_eq_of_error hv]
    exact hx

theorem pure (hgrounded : p → a.Grounded) (hmade : made v a) :
    Builds p (Pure.pure v : Build α) a made :=
  of_ok rfl (.refl a) hgrounded hmade

theorem inspect {g : Arena → Except Fault α} (hgrounded : p → a.Grounded)
    (hfault : ∀ fault, g a = .error fault → fault.Tells a ∧ ¬ p) :
    Builds p (Arena.inspect g) a fun v b => b = a ∧ g a = .ok v := by
  cases h : g a with
  | ok v => exact of_ok (by rw [Arena.inspect, h]) (.refl a) hgrounded ⟨rfl, rfl⟩
  | error fault =>
    rcases hfault fault h with ⟨htells, himproper⟩
    have hhalt : (Halt.fault fault).Tells a := htells
    exact of_error (by rw [Arena.inspect, h]) (.refl a) hgrounded hhalt fun hp =>
      absurd hp himproper

theorem alloc (ha : a.InLimit) (hgrounded : p → a.Grounded) (node : Node)
    (hslots : p → ∀ s ∈ node.slots, s.index ≤ a.size) :
    Builds p (Arena.alloc node) a (Fresh a) := by
  cases hfull : a.isFull with
  | true =>
    exact of_error (Arena.alloc_of_full hfull node) (.refl a) hgrounded
      ⟨ha.capacity_eq hfull, rfl⟩ fun _ => ⟨_, rfl⟩
  | false =>
    have hgrows : a.GrowsTo (a.extend [node]) :=
      ⟨⟨[node], rfl⟩, fun _ => .of_room hfull rfl (a.size_extend [node])⟩
    refine of_ok (Arena.alloc_of_room hfull node) hgrows
      (fun hp => (hgrounded hp).alloc (hslots hp)) ?_
    simp [Fresh]

theorem list (ha : a.InLimit) (hgrounded : p → a.Grounded) {items : List Ref}
    (hitems : p → ∀ item ∈ items, item.index ≤ a.size) :
    Builds p (Arena.list items) a fun r b =>
      items = [] ∧ r = Ref.nil ∧ b = a ∨ items ≠ [] ∧ Fresh a r b := by
  have hcells {built : List Ref} (hbuilt : ∀ item ∈ built, item ∈ items) (hp : p) :
      (a.extend (Arena.cells a.size Ref.nil built)).Grounded :=
    (hgrounded hp).cells fun item hitem => hitems hp item (hbuilt item hitem)
  rcases Arena.list_eq ha items with ⟨hok, hin⟩ | ⟨built, left, hitems', _, hin, hfull, herror⟩
  · refine of_ok hok ⟨⟨_, rfl⟩, fun _ => hin⟩ (hcells fun _ h => h) ?_
    cases items with
    | nil => exact .inl ⟨rfl, rfl, a.extend_nil⟩
    | cons item items => exact .inr ⟨List.cons_ne_nil item items, by simp [Fresh, Arena.cellRef]⟩
  · refine of_error herror ⟨⟨_, rfl⟩, fun _ => hin⟩ (hcells fun item hitem => ?_)
      ⟨hin.capacity_eq hfull, ?_⟩ fun _ => ⟨_, rfl⟩
    · rw [hitems']
      exact List.mem_append_left left hitem
    · simp

theorem mapM {f : β → Build Ref} (xs : List β) (ha : a.InLimit) (hgrounded : p → a.Grounded)
    (hf : ∀ x ∈ xs, ∀ b, a.GrowsTo b → b.InLimit → (p → b.Grounded) → Builds p (f x) b (Fresh b)) :
    Builds p (xs.mapM f) a fun rs b => rs.length = xs.length ∧ ∀ r ∈ rs, r.index ≤ b.size := by
  induction xs generalizing a with
  | nil =>
    rw [List.mapM_nil]
    exact pure hgrounded (by simp)
  | cons x xs ih =>
    rw [List.mapM_cons]
    refine bind ha (hf x List.mem_cons_self a (.refl a) ha hgrounded) fun r b hb hlimit hg hr => ?_
    refine bind hlimit (ih hlimit hg fun y hy c hc => hf y (List.mem_cons_of_mem _ hy) c
      (hb.trans hc)) fun rs c hc _ hg' hrs => ?_
    exact pure hg' ⟨congrArg (· + 1) hrs.1, List.forall_mem_cons.2 ⟨hr.2.trans hc.size_le, hrs.2⟩⟩

end Builds

namespace Arena

variable {a : Arena} {p : Prop}

theorem builds_couple (ha : a.InLimit) (hgrounded : p → a.Grounded) {x y : Ref}
    (hx : p → x.index ≤ a.size) (hy : p → y.index ≤ a.size) :
    Builds p (couple x y) a (Fresh a) := by
  refine .bind ha (.alloc ha hgrounded _ fun hp => ?_) fun rest b hb hin hg hrest => ?_
  · simp [Node.slots, hy hp, Ref.nil]
  · refine (Builds.alloc hin hg (.pair x rest) fun hp => ?_).mono id fun _ _ _ => hb.fresh
    simp [Node.slots, hrest.2, (hx hp).trans hb.size_le]

theorem builds_list_cons {b : Arena} (hb : a.GrowsTo b) (hin : b.InLimit)
    (hgrounded : p → b.Grounded) {item : Ref} {items : List Ref} (hitem : item.index ≤ b.size)
    (hitems : ∀ r ∈ items, r.index ≤ b.size) : Builds p (list (item :: items)) b (Fresh a) := by
  refine (Builds.list hin hgrounded fun _ => List.forall_mem_cons.2 ⟨hitem, hitems⟩).mono id
    fun r c _ hr => ?_
  rcases hr with ⟨hnil, _⟩ | ⟨_, hr⟩
  · cases hnil
  · exact hb.fresh hr

theorem builds_tagged (ha : a.InLimit) (hgrounded : p → a.Grounded) (tag : String)
    (bytes : Bytes) : Builds p (tagged tag bytes) a (Fresh a) := by
  refine .bind ha (.alloc ha hgrounded _ (by simp [Node.slots])) fun head b hb hin hg hhead => ?_
  refine .bind hin (.mapM bytes hin hg fun n _ c _ hin' hg' =>
    .alloc hin' hg' _ (by simp [Node.slots])) fun values c hc hin' hg' hvalues => ?_
  exact builds_list_cons (hb.trans hc) hin' hg' (hhead.2.trans hc.size_le) hvalues.2

theorem tells_of_get_eq_error {fault : Fault} {r : Ref} (h : a.get r = .error fault) :
    fault.Tells a := by
  unfold get at h
  split at h <;> cases h
  assumption

theorem index_le_of_get_eq_ok {r : Ref} {node : Node} (h : a.get r = .ok node) :
    r.index ≤ a.size := by
  unfold get at h
  split at h
  · rename_i hnode
    exact index_le_size (Option.isSome_of_eq_some hnode)
  · cases h

theorem tells_of_itemsWithin_eq_error {fault : Fault} {n : Nat} {r : Ref}
    (h : a.itemsWithin n r = .error fault) : fault.Tells a := by
  induction n generalizing r with
  | zero =>
    cases h
    trivial
  | succ n ih =>
    unfold itemsWithin at h
    split at h
    · rename_i first rest _
      cases hrest : a.itemsWithin n rest with
      | error fault' =>
        rw [hrest] at h
        cases h
        exact ih hrest
      | ok items =>
        rw [hrest] at h
        cases h
    · cases h
    · rename_i hget
      cases h
      exact tells_of_get_eq_error hget

/-- A dump is properly used for a value that stands for a tree. -/
theorem builds_dumpWithin (n : Nat) : ∀ (r : Ref) {a : Arena}, a.InLimit →
    Builds (a.Grounded ∧ ∃ t, a.Unfolds r t ∧ t.height ≤ n) (dumpWithin n r) a (Fresh a) := by
  induction n with
  | zero =>
    intro r a ha
    refine .of_error rfl (.refl a) And.left trivial ?_
    rintro ⟨_, t, _, hle⟩
    cases t <;> simp [Tree.height] at hle
  | succ n ih =>
    intro r a ha
    refine .bind ha (.inspect And.left fun fault h => ⟨tells_of_get_eq_error h, ?_⟩)
      fun node b _ _ _ hnode => ?_
    · rintro ⟨_, t, ht, _⟩
      rcases Option.isSome_iff_exists.1 ht.get?_isSome with ⟨node, hnode⟩
      cases (get_eq_ok hnode).symm.trans h
    rcases hnode with ⟨rfl, hnode⟩
    have hr := index_le_of_get_eq_ok hnode
    cases node with
    | nil =>
      refine .bind ha (.alloc ha And.left _ (by simp [Node.slots])) fun tag c hc hin hg htag => ?_
      refine (Builds.alloc hin hg _ fun _ => ?_).mono id fun _ _ _ => hc.fresh
      simp [Node.slots, htag.2, Ref.nil]
    | pair first rest =>
      refine .bind ha (.inspect And.left fun fault h => ⟨tells_of_itemsWithin_eq_error h, ?_⟩)
        fun elements c _ _ _ helements => ?_
      · rintro ⟨_, t, ht, _⟩
        rcases items_eq ht with ⟨items, hitems, _⟩
        cases hitems.symm.trans h
      rcases helements with ⟨rfl, helements⟩
      refine .bind ha (.alloc ha And.left _ (by simp [Node.slots])) fun tag d hd hin hg htag => ?_
      refine .bind hin (.mapM elements hin hg fun x hx e he hin' hg' => ?_)
        fun dumped e he hin' hg' hdumped => ?_
      · refine (ih x hin').mono (fun hp => ⟨hg' hp, ?_⟩) fun _ _ _ => id
        rcases hp with ⟨_, t, ht, hle⟩
        rcases exists_unfolds_of_mem_items ht helements hx with ⟨u, hu, hlt⟩
        exact ⟨u, (hu.growsTo hd).growsTo he, by omega⟩
      · exact builds_list_cons (hd.trans he) hin' hg' (htag.2.trans he.size_le) hdumped.2
    | string contents => exact builds_tagged ha And.left _ _
    | symbol name => exact builds_tagged ha And.left _ _
    | integer value =>
      refine .bind ha (.alloc ha And.left _ (by simp [Node.slots])) fun tag c hc hin hg htag => ?_
      exact (builds_couple hin hg (fun _ => htag.2) fun _ => hr.trans hc.size_le).mono id
        fun _ _ _ => hc.fresh

/-- Dumps nest no deeper than values, so a value that stands for a tree is dumped to its end. -/
theorem builds_dump (ha : a.InLimit) (r : Ref) :
    Builds (a.Grounded ∧ r.index ≤ a.size) (dump r) a (Fresh a) := by
  refine (builds_dumpWithin (a.size + a.limit.getD 0 + 1) r ha).mono ?_ fun _ _ _ => id
  rintro ⟨hgrounded, hr⟩
  rcases hgrounded.exists_unfolds hr with ⟨t, ht⟩
  have hle := ht.height_le
  exact ⟨hgrounded, t, ht, by omega⟩

theorem builds_dumpForms (ha : a.InLimit) (forms : Ref) :
    Builds (a.Grounded ∧ forms.index ≤ a.size) (dumpForms forms) a fun r b =>
      r = Ref.nil ∧ b = a ∨ Fresh a r b := by
  refine .bind ha (.inspect And.left fun fault h => ⟨tells_of_itemsWithin_eq_error h, ?_⟩)
    fun elements b _ _ _ helements => ?_
  · rintro ⟨hgrounded, hforms⟩
    rcases hgrounded.exists_unfolds hforms with ⟨t, ht⟩
    rcases items_eq ht with ⟨items, hitems, _⟩
    cases hitems.symm.trans h
  rcases helements with ⟨rfl, helements⟩
  cases elements with
  | nil =>
    rw [List.mapM_nil]
    exact .of_ok rfl (.refl b) And.left (.inl ⟨rfl, rfl⟩)
  | cons form forms =>
    refine .bind ha (.mapM (form :: forms) ha And.left fun x hx c hc hin hg => ?_)
      fun dumped c hc hin hg hdumped => ?_
    · refine (builds_dump hin x).mono (fun hp => ⟨hg hp, ?_⟩) fun _ _ _ => id
      rcases hp.1.exists_unfolds hp.2 with ⟨t, ht⟩
      rcases exists_unfolds_of_mem_items ht helements hx with ⟨u, hu, _⟩
      exact index_le_size (hu.growsTo hc).get?_isSome
    · rcases List.exists_cons_of_length_eq_add_one hdumped.1 with ⟨first, rest, rfl⟩
      have hparts := List.forall_mem_cons.1 hdumped.2
      exact (builds_list_cons hc hin hg hparts.1 hparts.2).mono id fun _ _ _ => .inr

end Arena

end Sexpr
