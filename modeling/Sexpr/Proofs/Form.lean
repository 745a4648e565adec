import Sexpr.Proofs.Role

/-! # The grammar of forms

A form is a derivation tree over tokens. A text is derived from the forms whose tokens, written one
after another, are the tokens of the text. Each form of which all tokens can be accepted stands for
a tree, and every level of lists and quotes in the form is a level of lists in the tree.
-/

namespace Sexpr

abbrev Terminal (k : Token.Kind) := {t : Token // t.kind = k}

abbrev AtomToken := {t : Token // t.kind.isAtom = true}

/-- A form is an integer, a string, a symbol, a row of forms in parentheses, or a quote mark and
the form behind it. -/
inductive Form
  | atom (token : AtomToken)
  | list (opening : Terminal .leftParen) (forms : List Form) (closing : Terminal .rightParen)
  | quote (mark : Terminal .quote) (form : Form)

def Token.node (t : Token) : Node :=
  match t.role with
  | .ok (.atom node) => node
  | _ => .nil

def Tree.ofAtom : Node → Tree
  | .string contents => .string contents
  | .symbol name => .symbol name
  | .integer value => .integer value
  | _ => .nil

namespace Form

mutual

def tokens : Form → List Token
  | .atom t => [t.1]
  | .list opening forms closing => opening.1 :: (listTokens forms ++ [closing.1])
  | .quote mark form => mark.1 :: form.tokens

def listTokens : List Form → List Token
  | [] => []
  | form :: forms => form.tokens ++ listTokens forms

end

mutual

def depth : Form → Nat
  | .atom _ => 0
  | .list _ forms _ => listDepth forms + 1
  | .quote _ form => form.depth + 1

def listDepth : List Form → Nat
  | [] => 0
  | form :: forms => max form.depth (listDepth forms)

end

mutual

/-- Tokens of a form, each with the number of lists and quotes around it. -/
def levels (n : Nat) : Form → List (Token × Nat)
  | .atom t => [(t.1, n)]
  | .list opening forms closing => (opening.1, n) :: (listLevels (n + 1) forms ++ [(closing.1, n)])
  | .quote mark form => (mark.1, n) :: form.levels (n + 1)

def listLevels (n : Nat) : List Form → List (Token × Nat)
  | [] => []
  | form :: forms => form.levels n ++ listLevels n forms

end

mutual

def tree : Form → Tree
  | .atom t => .ofAtom t.1.node
  | .list _ forms _ => listTree forms
  | .quote _ form => .pair (.symbol "quote") (.pair form.tree .nil)

def listTree : List Form → Tree
  | [] => .nil
  | form :: forms => .pair form.tree (listTree forms)

end

/-- The first token, on whose account a form is placed. -/
def first : Form → Token
  | .atom t => t.1
  | .list opening _ _ => opening.1
  | .quote mark _ => mark.1

/-- What a form means: integers are read by value, strings by the escape convention and symbols as
they are; a quoted form is the list of the symbol quote and the form. -/
inductive Denotes : Form → Tree → Prop
  | integer {t : AtomToken} {v : Int64} (hk : t.1.kind = .integer)
      (hv : Decimal.Numeral t.1.text v.toInt) : Denotes (.atom t) (.integer v)
  | string {t : AtomToken} {body contents : Bytes} (hk : t.1.kind = .string)
      (ht : t.1.text = Byte.quotation :: body ++ [Byte.quotation])
      (hs : Escape.Decodes body contents) : Denotes (.atom t) (.string contents)
  | symbol {t : AtomToken} {name : String} (hk : t.1.kind = .symbol)
      (hs : Utf8.encode name = t.1.text) : Denotes (.atom t) (.symbol name)
  | list {opening forms closing trees} (h : List.Forall₂ Denotes forms trees) :
    Denotes (.list opening forms closing) (.ofList trees)
  | quote {mark form tree} (h : Denotes form tree) :
    Denotes (.quote mark form) (.ofList [.symbol "quote", tree])

section Tokens

variable {p : Token → Prop}

theorem forall_tokens_atom {t : AtomToken} : (∀ u ∈ (atom t).tokens, p u) ↔ p t.1 :=
  List.forall_mem_singleton

theorem forall_tokens_list {opening : Terminal .leftParen} {forms : List Form}
    {closing : Terminal .rightParen} : (∀ u ∈ (list opening forms closing).tokens, p u) ↔
      p opening.1 ∧ (∀ u ∈ listTokens forms, p u) ∧ p closing.1 := by
  rw [tokens, List.forall_mem_cons, List.forall_mem_append, List.forall_mem_singleton]

theorem forall_tokens_quote {mark : Terminal .quote} {form : Form} :
    (∀ u ∈ (quote mark form).tokens, p u) ↔ p mark.1 ∧ ∀ u ∈ form.tokens, p u :=
  List.forall_mem_cons

theorem forall_listTokens_cons {form : Form} {forms : List Form} :
    (∀ u ∈ listTokens (form :: forms), p u) ↔
      (∀ u ∈ form.tokens, p u) ∧ ∀ u ∈ listTokens forms, p u :=
  List.forall_mem_append

end Tokens

theorem listTokens_append (forms more : List Form) :
    listTokens (forms ++ more) = listTokens forms ++ listTokens more := by
  induction forms with
  | nil => rfl
  | cons form forms ih => simp [listTokens, ih]

theorem listTree_eq (forms : List Form) : listTree forms = .ofList (forms.map tree) := by
  induction forms with
  | nil => rfl
  | cons form forms ih => simp [listTree, Tree.ofList, ih]

mutual

theorem kind_ne_invalid : ∀ (form : Form), ∀ t ∈ form.tokens, t.kind ≠ .invalid
  | .atom ⟨_, hatom⟩ => by
    rw [forall_tokens_atom]
    intro hk
    rw [hk] at hatom
    cases hatom
  | .list opening forms closing => by
    rw [forall_tokens_list]
    exact ⟨by simp [opening.2], list_kind_ne_invalid forms, by simp [closing.2]⟩
  | .quote mark form => by
    rw [forall_tokens_quote]
    exact ⟨by simp [mark.2], kind_ne_invalid form⟩

theorem list_kind_ne_invalid : ∀ (forms : List Form), ∀ t ∈ listTokens forms, t.kind ≠ .invalid
  | [] => fun _ ht => absurd ht List.not_mem_nil
  | form :: forms =>
    forall_listTokens_cons.2 ⟨kind_ne_invalid form, list_kind_ne_invalid forms⟩

end

end Form

def Token.Kind.opens : Token.Kind → Bool
  | leftParen => true
  | quote => true
  | _ => false

theorem Token.Kind.opens_of_isAtom {k : Token.Kind} (h : k.isAtom = true) : k.opens = false := by
  cases k <;> simp_all [isAtom, opens]

namespace Form

/-- All tokens that begin a level stand below a bound. -/
def Shallow (bound : Nat) (levels : List (Token × Nat)) : Prop :=
  ∀ p ∈ levels, p.1.kind.opens = true → p.2 < bound

theorem shallow_cons {bound : Nat} {p : Token × Nat} {levels : List (Token × Nat)} :
    Shallow bound (p :: levels) ↔ (p.1.kind.opens = true → p.2 < bound) ∧ Shallow bound levels := by
  simp [Shallow]

theorem shallow_append {bound : Nat} {levels more : List (Token × Nat)} :
    Shallow bound (levels ++ more) ↔ Shallow bound levels ∧ Shallow bound more := by
  simp [Shallow, or_imp, forall_and]

mutual

theorem shallow_levels_iff (bound n : Nat) :
    ∀ form : Form, Shallow bound (form.levels n) ↔ form.depth ≤ bound - n
  | .atom t => by simp [levels, Shallow, depth, Token.Kind.opens_of_isAtom t.2]
  | .list opening forms closing => by
    have hopens : opening.1.kind.opens = true := by rw [opening.2]; rfl
    have hcloses : closing.1.kind.opens = false := by rw [closing.2]; rfl
    simp only [levels, shallow_cons, shallow_append, shallow_listLevels_iff bound (n + 1) forms,
      hopens, hcloses, depth]
    simp [Shallow]
    omega
  | .quote mark form => by
    have hopens : mark.1.kind.opens = true := by rw [mark.2]; rfl
    simp only [levels, shallow_cons, shallow_levels_iff bound (n + 1) form, hopens, depth]
    simp
    omega

/-- The tokens that begin a level lie below a bound if the depth of the forms allows it. -/
theorem shallow_listLevels_iff (bound n : Nat) :
    ∀ forms : List Form, Shallow bound (listLevels n forms) ↔ listDepth forms ≤ bound - n
  | [] => by simp [listLevels, Shallow, listDepth]
  | form :: forms => by
    simp only [listLevels, shallow_append, shallow_levels_iff bound n form,
      shallow_listLevels_iff bound n forms, listDepth]
    omega

end

theorem node_of_role {t : Token} {node : Node} (h : t.role = .ok (.atom node)) : t.node = node := by
  simp [Token.node, h]

theorem atom_of_acceptable {t : AtomToken} (h : t.1.Acceptable) :
    t.1.role = .ok (.atom t.1.node) ∧ (Tree.ofAtom t.1.node).depth = 0 ∧
      (Tree.ofAtom t.1.node).size = 1 := by
  rcases h with ⟨role, hrole⟩
  have hatom := t.2
  suffices hnode : ∃ node, t.1.role = .ok (.atom node) ∧ (Tree.ofAtom node).depth = 0 ∧
      (Tree.ofAtom node).size = 1 by
    rcases hnode with ⟨node, hnode, hdepth, hsize⟩
    rw [node_of_role hnode]
    exact ⟨hnode, hdepth, hsize⟩
  cases hk : t.1.kind with
  | integer =>
    simp only [Token.role, hk] at hrole ⊢
    split at hrole
    · exact ⟨_, rfl, rfl, rfl⟩
    · cases hrole
  | string =>
    simp only [Token.role, hk] at hrole ⊢
    split at hrole
    · cases hrole
    · rename_i hlength
      rw [if_neg hlength]
      exact ⟨_, rfl, rfl, rfl⟩
  | symbol =>
    simp only [Token.role, hk] at hrole ⊢
    split at hrole
    · exact ⟨_, rfl, rfl, rfl⟩
    · cases hrole
  | _ =>
    rw [hk] at hatom
    cases hatom

theorem denotes_atom {t : AtomToken} (hscan : t.1.Scanned) (hok : t.1.Acceptable) :
    Denotes (.atom t) (.ofAtom t.1.node) := by
  have hatom := t.2
  cases hk : t.1.kind with
  | integer =>
    have hrole := (atom_of_acceptable hok).1
    simp only [Token.role, hk] at hrole
    split at hrole
    · rename_i v hv
      rw [node_of_role (Token.role_integer hk hv)]
      exact .integer hk (Decimal.read?_eq_some_iff.1 hv)
    · cases hrole
  | string =>
    rcases hscan.string hk with ⟨body, hbody, hrole⟩
    rw [node_of_role hrole]
    exact .string hk hbody (Escape.decodes_decode body)
  | symbol =>
    rcases hscan.symbol hk with ⟨_, name, hname, hrole⟩
    rw [node_of_role hrole]
    exact .symbol hk hname
  | _ =>
    rw [hk] at hatom
    cases hatom

theorem eq_of_denotes_atom {t : AtomToken} {u : Tree} (h : Denotes (.atom t) u) :
    u = .ofAtom t.1.node := by
  cases h with
  | integer hk hv =>
    rw [node_of_role (Token.role_integer hk (Decimal.read?_eq_some_iff.2 hv))]
    rfl
  | string hk ht hs =>
    rw [node_of_role (Token.role_string hk ht), Escape.decodes_iff.1 hs]
    rfl
  | symbol hk hs =>
    rw [node_of_role (Token.role_symbol hk hs)]
    rfl

mutual

/-- A form means its tree and nothing else. -/
theorem denotes_iff : ∀ form : Form, (∀ t ∈ form.tokens, t.Scanned ∧ t.Acceptable) →
    ∀ u, Denotes form u ↔ u = form.tree
  | .atom t, h, u => by
    have ht := forall_tokens_atom.1 h
    constructor
    · exact eq_of_denotes_atom
    · rintro rfl
      exact denotes_atom ht.1 ht.2
  | .list opening forms closing, h, u => by
    have hforms := denotes_forms_iff forms (forall_tokens_list.1 h).2.1
    rw [tree, listTree_eq]
    constructor
    · rintro ⟨⟩
      rename_i us hus
      rw [(hforms us).1 hus]
    · rintro rfl
      exact .list ((hforms _).2 rfl)
  | .quote mark form, h, u => by
    have hform := denotes_iff form (forall_tokens_quote.1 h).2
    constructor
    · rintro ⟨⟩
      rename_i v hv
      rw [(hform v).1 hv]
      rfl
    · rintro rfl
      exact .quote ((hform _).2 rfl)

theorem denotes_forms_iff : ∀ forms : List Form,
    (∀ t ∈ listTokens forms, t.Scanned ∧ t.Acceptable) →
      ∀ us, List.Forall₂ Denotes forms us ↔ us = forms.map tree
  | [], _, us => List.forall₂_nil_left_iff
  | form :: forms, h, us => by
    have hform := denotes_iff form (forall_listTokens_cons.1 h).1
    have hforms := denotes_forms_iff forms (forall_listTokens_cons.1 h).2
    rw [List.forall₂_cons_left_iff, List.map_cons]
    constructor
    · rintro ⟨v, vs, hv, hvs, rfl⟩
      rw [(hform v).1 hv, (hforms vs).1 hvs]
    · rintro rfl
      exact ⟨_, _, (hform _).2 rfl, (hforms _).2 rfl, rfl⟩

end

mutual

theorem depth_tree : ∀ form : Form, (∀ t ∈ form.tokens, t.Acceptable) →
    form.tree.depth = form.depth
  | .atom t, h => (atom_of_acceptable (forall_tokens_atom.1 h)).2.1
  | .list opening forms closing, h => by
    simp only [tree, depth]
    exact depth_listTree forms (forall_tokens_list.1 h).2.1
  | .quote mark form, h => by
    simp only [tree, Tree.depth, depth, depth_tree form (forall_tokens_quote.1 h).2]
    omega

theorem depth_listTree : ∀ forms : List Form, (∀ t ∈ listTokens forms, t.Acceptable) →
    (listTree forms).depth = listDepth forms + 1
  | [], _ => rfl
  | form :: forms, h => by
    simp only [listTree, Tree.depth, listDepth,
      depth_tree form (forall_listTokens_cons.1 h).1,
      depth_listTree forms (forall_listTokens_cons.1 h).2]
    omega

end

end Form

end Sexpr
