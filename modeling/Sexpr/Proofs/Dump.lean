import Sexpr.Proofs.Growth

/-! # What a dump is and what it costs

A dump spells out the structure of a tree as another tree, and the number of nodes that it takes
follows from the tree. A computation that takes a number of nodes succeeds exactly if there is room
for so many; otherwise it fills the arena up. The numbers add up along a row of computations, so it
does not matter at which allocation the room ends.
-/

namespace Sexpr

namespace Tree

def ofByte (b : UInt8) : Tree := .integer (Int64.ofNat b.toNat)

def tagged (tag : String) (bytes : Bytes) : Tree := .ofList (.symbol tag :: bytes.map ofByte)

mutual

/-- Structure of a tree, spelled out. An improper tail is passed over. -/
def dump : Tree → Tree
  | nil => .ofList [.symbol "list"]
  | pair first rest => .ofList (.symbol "list" :: first.dump :: rest.dumps)
  | string contents => tagged "string" contents
  | symbol name => tagged "symbol" (Utf8.encode name)
  | integer value => .ofList [.symbol "integer", .integer value]

def dumps : Tree → List Tree
  | pair first rest => first.dump :: rest.dumps
  | _ => []

end

mutual

/-- Nodes that a dump adds: a name, a cell for it and for each element or byte, a node for each
byte, and what the dumps of the elements add. The node of an integer is used again. -/
def dumpCost : Tree → Nat
  | nil => 2
  | pair first rest => first.dumpCost + 1 + rest.dumpsCost + 2
  | string contents => 2 * contents.length + 2
  | symbol name => 2 * (Utf8.encode name).length + 2
  | integer _ => 3

/-- Nodes that the list of the dumps of all elements adds. -/
def dumpsCost : Tree → Nat
  | pair first rest => first.dumpCost + 1 + rest.dumpsCost
  | _ => 0

end

variable (t : Tree)

theorem dumps_eq : t.dumps = t.elements.map dump := by
  induction t with
  | pair first rest _ ih => rw [dumps, elements, List.map_cons, ih]
  | _ => rfl

theorem dumpsCost_eq : t.dumpsCost = t.elements.length + (t.elements.map dumpCost).sum := by
  induction t with
  | pair first rest _ ih =>
    rw [dumpsCost, elements, ih, List.length_cons, List.map_cons, List.sum_cons]
    omega
  | _ => rfl

variable {t}

theorem dump_pair (first rest : Tree) : (pair first rest).dump =
    .ofList (.symbol "list" :: (pair first rest).elements.map dump) := by
  rw [dump, dumps_eq, elements, List.map_cons]

theorem dumpCost_pair (first rest : Tree) : (pair first rest).dumpCost =
    (pair first rest).elements.length + 2 + ((pair first rest).elements.map dumpCost).sum := by
  have hcost := dumpsCost_eq (pair first rest)
  rw [dumpCost]
  rw [dumpsCost] at hcost
  omega

end Tree

namespace Arena

/-- A computation adds just as many nodes if there is room for them and makes something. If not, it
fills the arena and fails. -/
structure Takes {α : Type} (n : Nat) (x : Build α) (a : Arena) (made : α → Arena → Prop) :
    Prop where
  fits : a.HasRoom n → ∃ v nodes, x a = .ok v (a.extend nodes) ∧ nodes.length = n ∧
    made v (a.extend nodes)
  fills : ¬ a.HasRoom n → ∃ nodes, a.capacity = (a.extend nodes).size ∧
    x a = .error (.failure ⟨(a.extend nodes).size⟩) (a.extend nodes)

variable {a : Arena} {m n : Nat} {nodes : List Node}

theorem growsTo_extend (h : a.HasRoom nodes.length) : a.GrowsTo (a.extend nodes) :=
  ⟨⟨nodes, rfl⟩, fun hin => hin.extend h⟩

namespace Takes

variable {α β γ : Type} {x y : Build α} {f : α → Build β} {v : α} {made made' : α → Arena → Prop}
  {more : β → Arena → Prop}

theorem congr (h : x a = y a) (hy : Takes n y a made) : Takes n x a made := by
  refine ⟨fun hroom => ?_, fun hroom => ?_⟩
  · rw [h]
    exact hy.fits hroom
  · rw [h]
    exact hy.fills hroom

theorem mono (h : Takes n x a made) (hmade : ∀ v b, a.GrowsTo b → made v b → made' v b) :
    Takes n x a made' := by
  refine ⟨fun hroom => ?_, h.fills⟩
  rcases h.fits hroom with ⟨v, nodes, hok, hlength, hv⟩
  exact ⟨v, nodes, hok, hlength, hmade v _ (growsTo_extend (hlength ▸ hroom)) hv⟩

theorem pure (hmade : made v a) : Takes 0 (Pure.pure v : Build α) a made := by
  refine ⟨fun _ => ⟨v, [], ?_, rfl, ?_⟩, fun hroom => absurd a.hasRoom_zero hroom⟩
  · rw [extend_nil]
    rfl
  · rwa [extend_nil]

theorem bind (ha : a.InLimit) (hx : Takes m x a made)
    (hf : ∀ v b, a.GrowsTo b → b.InLimit → made v b → Takes n (f v) b more) :
    Takes (m + n) (x >>= f) a more := by
  by_cases hm : a.HasRoom m
  · rcases hx.fits hm with ⟨v, nodes, hok, rfl, hmade⟩
    have hnext := hf v _ (growsTo_extend hm) (ha.extend hm) hmade
    refine ⟨fun hfits => ?_, fun hfull => ?_⟩
    · rcases hnext.fits ((hasRoom_extend hm).2 hfits) with ⟨w, others, hok', hlength', hmore⟩
      rw [extend_extend] at hok' hmore
      refine ⟨w, nodes ++ others, (bind_eq_of_ok hok).trans hok', ?_, hmore⟩
      rw [List.length_append, hlength']
    · rcases hnext.fills (mt (hasRoom_extend hm).1 hfull) with ⟨others, hcapacity, herror⟩
      rw [extend_extend] at hcapacity herror
      exact ⟨nodes ++ others, hcapacity, (bind_eq_of_ok hok).trans herror⟩
  · refine ⟨fun hfits => absurd (hfits.mono (Nat.le_add_right m n)) hm, fun _ => ?_⟩
    rcases hx.fills hm with ⟨nodes, hcapacity, herror⟩
    exact ⟨nodes, hcapacity, bind_eq_of_error herror⟩

theorem alloc (ha : a.InLimit) (node : Node) :
    Takes 1 (Arena.alloc node) a fun r b => b.get? r = some node := by
  cases hfull : a.isFull with
  | true =>
    refine ⟨fun hroom => ?_, fun _ => ⟨[], ?_⟩⟩
    · cases hfull.symm.trans (isFull_eq_false_iff.2 hroom)
    · rw [extend_nil]
      exact ⟨ha.capacity_eq hfull, alloc_of_full hfull node⟩
  | false =>
    exact ⟨fun _ => ⟨_, [node], alloc_of_room hfull node, rfl, get?_extend a [node] 0⟩,
      fun hroom => absurd (isFull_eq_false_iff.1 hfull) hroom⟩

theorem list (ha : a.InLimit) {items : List Ref} {trees : List Tree}
    (h : List.Forall₂ a.Unfolds items trees) :
    Takes items.length (Arena.list items) a fun r b => b.Unfolds r (.ofList trees) := by
  rcases list_eq ha items with ⟨hok, hin⟩ | ⟨built, left, rfl, hleft, hin, hfull, herror⟩
  · have hunfolds := unfolds_cellRef (holds_extend a (cells a.size Ref.nil items))
      (h.imp fun _ _ hitem => hitem.extend _)
    refine ⟨fun _ => ⟨_, _, hok, length_cells _ _ _, hunfolds⟩, fun hroom => absurd ?_ hroom⟩
    simpa using hin.hasRoom_of_extend
  · refine ⟨fun hroom => ?_, fun _ => ⟨cells a.size Ref.nil built, hin.capacity_eq hfull, ?_⟩⟩
    · have hpos := List.length_pos_iff.2 hleft
      have hlacks := hin.capacity_eq hfull
      rw [ha.hasRoom_iff, List.length_append] at hroom
      rw [size_extend, length_cells, capacity_extend] at hlacks
      omega
    · rw [size_extend, length_cells]
      exact herror

theorem mapM {f : β → Build Ref} {R : β → γ → Prop} {cost : γ → Nat} {tree : γ → Tree}
    {xs : List β} {ys : List γ} (h : List.Forall₂ R xs ys) (ha : a.InLimit)
    (hf : ∀ x y, y ∈ ys → R x y → ∀ b, a.GrowsTo b → b.InLimit →
      Takes (cost y) (f x) b fun r c => c.Unfolds r (tree y)) :
    Takes (ys.map cost).sum (xs.mapM f) a fun rs b =>
      List.Forall₂ b.Unfolds rs (ys.map tree) := by
  induction h generalizing a with
  | nil =>
    rw [List.mapM_nil]
    exact pure .nil
  | @cons x y xs ys hxy _ ih =>
    rw [List.mapM_cons, List.map_cons, List.sum_cons]
    refine bind ha (hf x y List.mem_cons_self hxy a (.refl a) ha) fun r b hb hin hr => ?_
    have hrest := ih hin fun x' y' hy' hxy' c hc =>
      hf x' y' (List.mem_cons_of_mem _ hy') hxy' c (hb.trans hc)
    refine bind (n := 0) hin hrest fun rs c hc _ hrs => ?_
    exact pure (.cons (hr.growsTo hc) hrs)

end Takes

variable {r : Ref} {t : Tree} {x y : Ref} {u : Tree}

theorem inspect_bind {α β : Type} {g : Arena → Except Fault α} {v : α} (h : g a = .ok v)
    (f : α → Build β) : (inspect g >>= f) a = f v a :=
  bind_eq_of_ok (by rw [inspect, h])

theorem get?_of_growsTo {b : Arena} {node : Node} (h : a.get? r = some node) (hb : a.GrowsTo b) :
    b.get? r = some node := by
  rcases hb.adds with ⟨nodes, rfl⟩
  exact get?_extend_of_some h

theorem takes_couple (ha : a.InLimit) (hx : a.Unfolds x t) (hy : a.Unfolds y u) :
    Takes 2 (couple x y) a fun r b => b.Unfolds r (.ofList [t, u]) := by
  refine .bind (m := 1) (n := 1) ha (.alloc ha _) fun rest b hb hin hrest => ?_
  refine (Takes.alloc hin (.pair x rest)).mono fun r c hc hr => ?_
  have hcell : b.Unfolds rest (.ofList [u]) := .pair hrest (hy.growsTo hb) (.nil rfl)
  exact .pair hr ((hx.growsTo hb).growsTo hc) (hcell.growsTo hc)

theorem takes_list_cons (ha : a.InLimit) {tag : String} {items : List Ref} {trees : List Tree}
    (hx : a.get? x = some (.symbol tag)) (hitems : List.Forall₂ a.Unfolds items trees) :
    Takes (trees.length + 1) (list (x :: items)) a fun r b =>
      b.Unfolds r (.ofList (.symbol tag :: trees)) := by
  have hlist := Takes.list ha (.cons (.symbol hx) hitems)
  rwa [List.length_cons, hitems.length_eq] at hlist

theorem takes_tagged (ha : a.InLimit) (tag : String) (bytes : Bytes) :
    Takes (2 * bytes.length + 2) (tagged tag bytes) a fun r b =>
      b.Unfolds r (.tagged tag bytes) := by
  have hvalues {b : Arena} (hin : b.InLimit) :
      Takes (bytes.map fun _ => 1).sum (bytes.mapM fun b => integer (Int64.ofNat b.toNat)) b
        fun rs c => List.Forall₂ c.Unfolds rs (bytes.map Tree.ofByte) := by
    have hbytes : List.Forall₂ Eq bytes bytes := List.forall₂_eq_eq_eq ▸ rfl
    refine .mapM hbytes hin fun byte other _ heq c _ hc => ?_
    subst heq
    exact (Takes.alloc hc (.integer (Int64.ofNat byte.toNat))).mono fun _ _ _ => .integer
  have hcost : 2 * bytes.length + 2 =
      1 + ((bytes.map fun _ => 1).sum + ((bytes.map Tree.ofByte).length + 1)) := by
    simp
    omega
  rw [hcost]
  refine .bind ha (.alloc ha _) fun head b hb hin hhead => ?_
  refine .bind hin (hvalues hin) fun values c hc hin' hrest => ?_
  exact takes_list_cons hin' (get?_of_growsTo hhead hc) hrest

/-- Dumping goes down the tree and takes as many nodes as its parts. -/
theorem takes_dumpWithin (n : Nat) : ∀ (r : Ref) {a : Arena} {t : Tree}, a.InLimit →
    a.Unfolds r t → t.height ≤ n →
      Takes t.dumpCost (dumpWithin n r) a fun d b => b.Unfolds d t.dump := by
  -- The bound falls with every level, and so does the height of the tree.
  induction n with
  | zero =>
    intro r a t _ _ hle
    cases t <;> simp [Tree.height] at hle
  | succ n ih =>
    intro r a t ha ht hle
    rcases Option.isSome_iff_exists.1 ht.get?_isSome with ⟨node, hnode⟩
    refine .congr (inspect_bind (get_eq_ok hnode) _) ?_
    cases ht with
    | nil h =>
      cases h.symm.trans hnode
      refine .bind (m := 1) (n := 1) ha (.alloc ha _) fun tag b hb hin htag => ?_
      refine (Takes.alloc hin (.pair tag Ref.nil)).mono fun d c hc hd => ?_
      exact .pair hd ((Unfolds.symbol htag).growsTo hc) (.nil rfl)
    | @pair _ first rest t u h hfirst hrest =>
      have ht := Unfolds.pair h hfirst hrest
      cases h.symm.trans hnode
      rcases items_eq ht with ⟨elements, helements, htrees⟩
      refine .congr (inspect_bind helements _) ?_
      have hdumps {b : Arena} (hb : a.GrowsTo b) (hin : b.InLimit) :
          Takes ((Tree.pair t u).elements.map Tree.dumpCost).sum (elements.mapM (dumpWithin n)) b
            fun rs c => List.Forall₂ c.Unfolds rs ((Tree.pair t u).elements.map Tree.dump) := by
        refine .mapM htrees hin fun x v hv hx c hc hin' => ?_
        have hlt := Tree.height_lt_of_mem_elements hv
        exact ih x hin' ((hx.growsTo hb).growsTo hc) (by omega)
      have hcost : (Tree.pair t u).dumpCost = 1 + (((Tree.pair t u).elements.map Tree.dumpCost).sum
          + (((Tree.pair t u).elements.map Tree.dump).length + 1)) := by
        rw [Tree.dumpCost_pair, List.length_map]
        omega
      rw [hcost, Tree.dump_pair]
      refine .bind ha (.alloc ha _) fun tag b hb hin htag => ?_
      refine .bind hin (hdumps hb hin) fun dumped c hc hin' hdumped => ?_
      exact takes_list_cons hin' (get?_of_growsTo htag hc) hdumped
    | string h =>
      cases h.symm.trans hnode
      exact takes_tagged ha "string" _
    | symbol h =>
      cases h.symm.trans hnode
      exact takes_tagged ha "symbol" _
    | integer h =>
      have ht := Unfolds.integer h
      cases h.symm.trans hnode
      refine .bind (m := 1) (n := 2) ha (.alloc ha _) fun tag b hb hin htag => ?_
      exact takes_couple hin (.symbol htag) (ht.growsTo hb)

theorem takes_dump (ha : a.InLimit) (ht : a.Unfolds r t) :
    Takes t.dumpCost (dump r) a fun d b => b.Unfolds d t.dump := by
  have hle := ht.height_le
  have hdump : dump r a = dumpWithin (a.size + a.limit.getD 0 + 1) r a := rfl
  exact .congr hdump (takes_dumpWithin _ r ha ht (by omega))

/-- The dumps of the elements of a list are the elements of a list. -/
theorem takes_dumpForms (ha : a.InLimit) (ht : a.Unfolds r t) :
    Takes (t.elements.length + (t.elements.map Tree.dumpCost).sum) (dumpForms r) a fun d b =>
      b.Unfolds d (.ofList (t.elements.map Tree.dump)) := by
  rcases items_eq ht with ⟨elements, helements, htrees⟩
  have hdumps : Takes (t.elements.map Tree.dumpCost).sum (elements.mapM dump) a fun rs b =>
      List.Forall₂ b.Unfolds rs (t.elements.map Tree.dump) :=
    .mapM htrees ha fun _ _ _ hx _ hb hin => takes_dump hin (hx.growsTo hb)
  refine .congr (inspect_bind helements _) ?_
  rw [Nat.add_comm]
  refine .bind ha hdumps fun dumped b hb hin hdumped => ?_
  have hlist := Takes.list hin hdumped
  rwa [hdumped.length_eq, List.length_map] at hlist

end Arena

end Sexpr
