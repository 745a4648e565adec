import Sexpr.Proofs.Form
import Sexpr.Proofs.Room

/-! # Where forms lie in an arena

The nodes of a form lie behind one another, in an order that the form alone determines: the nodes of
an element are followed by its cell, and a cell leads to the next cell of its list, over all nodes
of the element between them. The references in the nodes depend on the number of nodes before. An
arena that holds the nodes of a form has the tree of the form at the reference of the form.
-/

namespace Sexpr

namespace Form

mutual

def size : Form → Nat
  | .atom _ => 1
  | .list _ forms _ => listSize forms
  | .quote _ form => form.size + 3

def listSize : List Form → Nat
  | [] => 0
  | form :: forms => form.size + 1 + listSize forms

end

/-- Reference to the first cell of a list, or to what follows the list if it is empty. -/
def listRef (base : Nat) (next : Ref) : List Form → Ref
  | [] => next
  | form :: _ => ⟨base + form.size + 1⟩

/-- Reference to a form whose nodes lie behind a number of others. -/
def ref (base : Nat) : Form → Ref
  | .atom _ => ⟨base + 1⟩
  | .list _ forms _ => listRef base Ref.nil forms
  | .quote _ form => ⟨base + form.size + 3⟩

mutual

/-- Nodes of a form, in the order of their allocation. -/
def nodes (base : Nat) : Form → List Node
  | .atom t => [t.1.node]
  | .list _ forms _ => listNodes base Ref.nil forms
  | .quote _ form => form.nodes base ++
      [.symbol "quote", .pair (form.ref base) Ref.nil,
        .pair ⟨base + form.size + 1⟩ ⟨base + form.size + 2⟩]

/-- Nodes of a list of which the last cell leads to `next`. -/
def listNodes (base : Nat) (next : Ref) : List Form → List Node
  | [] => []
  | form :: forms => form.nodes base ++
      .pair (form.ref base) (listRef (base + form.size + 1) next forms) ::
        listNodes (base + form.size + 1) next forms

end

mutual

@[simp] theorem length_nodes : ∀ (form : Form) (base : Nat), (form.nodes base).length = form.size
  | .atom t, base => rfl
  | .list opening forms closing, base => length_listNodes forms base Ref.nil
  | .quote mark form, base => by simp [nodes, size, length_nodes form base]

@[simp] theorem length_listNodes : ∀ (forms : List Form) (base : Nat) (next : Ref),
    (listNodes base next forms).length = listSize forms
  | [], base, next => rfl
  | form :: forms, base, next => by
    simp only [listNodes, listSize, List.length_append, List.length_cons, length_nodes form base,
      length_listNodes forms]
    omega

end

theorem listSize_append (forms more : List Form) :
    listSize (forms ++ more) = listSize forms + listSize more := by
  induction forms with
  | nil => simp [listSize]
  | cons form forms ih =>
    simp only [List.cons_append, listSize, ih]
    omega

theorem listRef_append (base : Nat) (next : Ref) (forms more : List Form) :
    listRef base next (forms ++ more) =
      listRef base (listRef (base + listSize forms) next more) forms := by
  cases forms <;> simp [listRef, listSize]

theorem listNodes_append (base : Nat) (next : Ref) (forms more : List Form) :
    listNodes base next (forms ++ more) =
      listNodes base (listRef (base + listSize forms) next more) forms ++
        listNodes (base + listSize forms) next more := by
  induction forms generalizing base with
  | nil => simp [listNodes, listSize]
  | cons form forms ih =>
    have hbase : base + form.size + 1 + listSize forms =
        base + (form.size + 1 + listSize forms) := by omega
    simp only [List.cons_append, listNodes, listRef_append, ih, listSize, hbase,
      List.append_assoc]

theorem exists_listNodes_eq (base : Nat) {forms : List Form} (hne : forms ≠ []) :
    ∃ before item, before.length + 1 = listSize forms ∧
      ∀ next, listNodes base next forms = before ++ [.pair item next] := by
  rcases List.eq_nil_or_concat forms with rfl | ⟨init, form, rfl⟩
  · exact absurd rfl hne
  · refine ⟨listNodes base ⟨base + listSize init + form.size + 1⟩ init ++
      form.nodes (base + listSize init), form.ref (base + listSize init), ?_, fun next => ?_⟩
    · simp [listSize_append, listSize]
      omega
    · simp [listNodes_append, listNodes, listRef]

/-- Two nodes for each atom, one for each opening parenthesis and three for each quote mark. -/
def tokenCost (ts : List Token) : Nat :=
  2 * ts.countP (·.kind.isAtom) + ts.countP (·.kind = .leftParen) +
    3 * ts.countP (·.kind = .quote)

theorem tokenCost_append (ts us : List Token) :
    tokenCost (ts ++ us) = tokenCost ts + tokenCost us := by
  simp only [tokenCost, List.countP_append]
  omega

mutual

/-- The nodes of a form together with the cell that it takes in a list. -/
theorem tokenCost_tokens : ∀ form : Form, tokenCost form.tokens = form.size + 1
  | .atom t => by
    have hkinds : t.1.kind ≠ .leftParen ∧ t.1.kind ≠ .quote := by
      constructor <;> intro hk <;> have hatom := t.2 <;> rw [hk] at hatom <;> cases hatom
    simp [tokens, tokenCost, size, t.2, hkinds]
  | .list opening forms closing => by
    rw [tokens, ← List.singleton_append, tokenCost_append, tokenCost_append,
      tokenCost_listTokens forms, size]
    simp [tokenCost, opening.2, closing.2, Token.Kind.isAtom]
    omega
  | .quote mark form => by
    rw [tokens, ← List.singleton_append, tokenCost_append, tokenCost_tokens form, size]
    simp [tokenCost, mark.2, Token.Kind.isAtom]
    omega

theorem tokenCost_listTokens : ∀ forms : List Form, tokenCost (listTokens forms) = listSize forms
  | [] => rfl
  | form :: forms => by
    rw [listTokens, tokenCost_append, tokenCost_tokens form, tokenCost_listTokens forms, listSize]

end

end Form

namespace Arena

/-- Nodes of the arena behind a number of others. -/
def Holds (a : Arena) (base : Nat) (nodes : List Node) : Prop :=
  ∀ i node, nodes[i]? = some node → a.get? ⟨base + i + 1⟩ = some node

variable {a : Arena} {base : Nat} {nodes more : List Node} {node : Node}

theorem get?_extend (a : Arena) (nodes : List Node) (i : Nat) :
    (a.extend nodes).get? ⟨a.size + i + 1⟩ = nodes[i]? := by
  simp [get?, extend, size, Array.getElem?_append_right]

theorem link_extend (a : Arena) (before after : List Node) (item next : Ref) :
    link ⟨a.size + before.length + 1⟩ next (a.extend (before ++ .pair item Ref.nil :: after)) =
      .ok () (a.extend (before ++ .pair item next :: after)) := by
  have hget : (a.extend (before ++ .pair item Ref.nil :: after)).get?
      ⟨a.size + before.length + 1⟩ = some (.pair item Ref.nil) := by
    simp [get?_extend]
  have hset : (a.nodes ++ (before ++ .pair item Ref.nil :: after).toArray).setIfInBounds
      (a.size + before.length) (.pair item next) =
        a.nodes ++ (before ++ .pair item next :: after).toArray := by
    apply Array.toList_inj.1
    simp [size]
  rw [link]
  simp only [hget, Ref.isNil_nil, if_true]
  simp only [set, extend, hset]

theorem holds_extend (a : Arena) (nodes : List Node) : (a.extend nodes).Holds a.size nodes :=
  fun i node h => by rwa [get?_extend]

theorem holds_cons : a.Holds base (node :: nodes) ↔
    a.get? ⟨base + 1⟩ = some node ∧ a.Holds (base + 1) nodes := by
  constructor
  · intro h
    refine ⟨h 0 node rfl, ?_⟩
    intro i other hi
    rw [Nat.add_right_comm base 1 i]
    exact h (i + 1) other hi
  · rintro ⟨hnode, h⟩ i other hi
    cases i with
    | zero =>
      cases hi
      exact hnode
    | succ i =>
      rw [← Nat.add_assoc, Nat.add_right_comm base i 1]
      exact h i other hi

theorem holds_append : a.Holds base (nodes ++ more) ↔
    a.Holds base nodes ∧ a.Holds (base + nodes.length) more := by
  induction nodes generalizing base with
  | nil => simp [Holds]
  | cons node nodes ih =>
    rw [List.cons_append, holds_cons, holds_cons, ih, List.length_cons, and_assoc,
      show base + 1 + nodes.length = base + (nodes.length + 1) by omega]

theorem unfolds_ofAtom {r : Ref} (h : a.get? r = some node) (hslots : node.slots = []) :
    a.Unfolds r (.ofAtom node) := by
  cases node with
  | nil => exact .nil h
  | pair => simp [Node.slots] at hslots
  | string => exact .string h
  | symbol => exact .symbol h
  | integer => exact .integer h

end Arena

theorem Token.slots_node (t : Token) : t.node.slots = [] := by
  unfold node
  split
  · rename_i node hrole
    cases hk : t.kind with
    | integer | string | symbol =>
      simp only [role, hk] at hrole
      split at hrole <;> cases hrole
      rfl
    | _ => simp [role, hk, refuse] at hrole
  · rfl

namespace Form

variable {a : Arena}

mutual

theorem unfolds_of_holds : ∀ (form : Form) (base : Nat), a.Holds base (form.nodes base) →
    a.Unfolds (form.ref base) form.tree
  | .atom t, base, h => Arena.unfolds_ofAtom (h 0 _ rfl) t.1.slots_node
  | .list _ forms _, base, h => unfolds_listRef forms base h
  | .quote _ form, base, h => by
    rw [nodes, Arena.holds_append, length_nodes] at h
    rcases h with ⟨hform, hrest⟩
    have hsymbol := hrest 0 _ rfl
    have hlast := hrest 1 _ rfl
    have hhead := hrest 2 _ rfl
    exact .pair hhead (.symbol hsymbol)
      (.pair hlast (unfolds_of_holds form base hform) (.nil rfl))

theorem unfolds_listRef : ∀ (forms : List Form) (base : Nat),
    a.Holds base (listNodes base Ref.nil forms) →
      a.Unfolds (listRef base Ref.nil forms) (listTree forms)
  | [], _, _ => .nil rfl
  | form :: forms, base, h => by
    rw [listNodes, Arena.holds_append, Arena.holds_cons, length_nodes] at h
    rcases h with ⟨hform, hcell, hforms⟩
    exact .pair hcell (unfolds_of_holds form base hform) (unfolds_listRef forms _ hforms)

end

mutual

theorem size_tree : ∀ form : Form, (∀ t ∈ form.tokens, t.Acceptable) →
    form.tree.size = form.size
  | .atom t, h => (atom_of_acceptable (forall_tokens_atom.1 h)).2.2
  | .list _ forms _, h => size_listTree forms (forall_tokens_list.1 h).2.1
  | .quote _ form, h => by
    simp only [tree, Tree.size, size, size_tree form (forall_tokens_quote.1 h).2]
    omega

theorem size_listTree : ∀ forms : List Form, (∀ t ∈ listTokens forms, t.Acceptable) →
    (listTree forms).size = listSize forms
  | [], _ => rfl
  | form :: forms, h => by
    simp only [listTree, Tree.size, listSize,
      size_tree form (forall_listTokens_cons.1 h).1,
      size_listTree forms (forall_listTokens_cons.1 h).2]
    omega

end

end Form

end Sexpr
