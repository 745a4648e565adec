import Sexpr.Proofs.Leftover
import Sexpr.Proofs.Refusal

/-! # Parses side by side

Two parses go side by side if their tokens are the same but for where they stand, and if the arena
of one holds the nodes of the other behind its own and has as much room. Whatever is built on one
side is built on the other, with the references moved, and what halts on one side halts on the
other. This holds of an allocation and of a link, it is kept when computations follow one another,
and so it holds of each step of the parser.
-/

namespace Sexpr

/-- Reference to the same node if others are put in front. The empty list stays where it is. -/
def Ref.shift (n : Nat) (r : Ref) : Ref := if r.isNil then Ref.nil else ⟨r.index + n⟩

def Node.shift (n : Nat) : Node → Node
  | .pair first rest => .pair (first.shift n) (rest.shift n)
  | node => node

def OpenList.shift (n : Nat) (l : OpenList) : OpenList := ⟨l.head.shift n, l.last.shift n⟩

theorem Ref.shift_succ (n i : Nat) : Ref.shift n ⟨i + 1⟩ = ⟨n + i + 1⟩ := by
  simp [Ref.shift, Ref.isNil]
  omega

@[simp] theorem Ref.isNil_shift (n : Nat) (r : Ref) : (r.shift n).isNil = r.isNil := by
  rcases r with ⟨_ | i⟩
  · rfl
  · rw [Ref.shift_succ]
    rfl

theorem Node.shift_of_slots {node : Node} (h : node.slots = []) (n : Nat) :
    node.shift n = node := by
  cases node with
  | pair first rest => cases h
  | _ => rfl

namespace Arena

def fresh (a : Arena) : Arena := { limit := some a.room }

/-- The arena with the nodes of another one behind its own. -/
def above (a c : Arena) : Arena := a.extend (c.nodes.toList.map (Node.shift a.size))

variable {a c : Arena}

theorem above_fresh (a : Arena) : a.above a.fresh = a := a.extend_nil

theorem above_extend (a c : Arena) (nodes : List Node) :
    a.above (c.extend nodes) = (a.above c).extend (nodes.map (Node.shift a.size)) := by
  simp [above, extend]

theorem size_above (a c : Arena) : (a.above c).size = a.size + c.size := by
  rw [above, size_extend, List.length_map, Array.length_toList]
  rfl

theorem capacity_fresh (a : Arena) : a.fresh.capacity = a.room := by
  have hle := a.capacity_le_mostNodes
  rw [capacity, fresh, Option.getD_some, room]
  omega

theorem isFull_above (h : c.capacity = a.room) : (a.above c).isFull = c.isFull := by
  have hcapacity : (a.above c).capacity = a.capacity := capacity_extend a _
  rw [isFull, isFull, hcapacity, h, room, size_above, decide_eq_decide]
  omega

theorem capacity_set (a : Arena) (r : Ref) (node : Node) :
    (a.set r node).capacity = a.capacity := by
  rw [capacity, capacity, limit_set]

theorem get?_above (a c : Arena) (r : Ref) :
    (a.above c).get? (r.shift a.size) = (c.get? r).map (Node.shift a.size) := by
  rcases r with ⟨_ | i⟩
  · rfl
  · rw [Ref.shift_succ, above, get?_extend, List.getElem?_map, Array.getElem?_toList]
    rfl

theorem above_set (a c : Arena) (r : Ref) (node : Node) :
    a.above (c.set r node) = (a.above c).set (r.shift a.size) (node.shift a.size) := by
  rcases r with ⟨_ | i⟩
  · rfl
  · rw [Ref.shift_succ, set, set, above, above, extend, extend, Arena.mk.injEq]
    refine ⟨?_, rfl⟩
    apply Array.toList_inj.1
    simp [size, List.map_set]

end Arena

/-- Both sides halt, for causes that belong together or with a fault. -/
inductive Halt.Alike {ε ε' : Type} (R : ε → ε' → Prop) : Halt ε → Halt ε' → Prop
  | failure {e e'} (h : R e e') : Alike R (.failure e) (.failure e')
  | fault (f f' : Fault) : Alike R (.fault f) (.fault f')

/-- Both sides come to values that belong together, or both halt. The nodes of the first side are
on the second side behind those of an arena. -/
inductive Arena.Alike {ε ε' α β : Type} (a : Arena) (R : ε → ε' → Prop) (Q : α → β → Prop) :
    EStateM.Result (Halt ε) Arena α → EStateM.Result (Halt ε') Arena β → Prop
  | ok {v w c} (hc : c.capacity = a.room) (h : Q v w) : Alike a R Q (.ok v c) (.ok w (a.above c))
  | error {e e' c} (hc : c.capacity = a.room) (h : e.Alike R e') :
    Alike a R Q (.error e c) (.error e' (a.above c))

/-- A computation does in an arena with more nodes what another one does without these. -/
def Simulates {ε ε' α β : Type} (a : Arena) (R : ε → ε' → Prop) (Q : α → β → Prop)
    (x : EStateM (Halt ε) Arena α) (y : EStateM (Halt ε') Arena β) : Prop :=
  ∀ c, c.capacity = a.room → a.Alike R Q (x c) (y (a.above c))

namespace Simulates

variable {ε ε' α β α' β' : Type} {a : Arena} {R : ε → ε' → Prop} {Q : α → β → Prop}
  {P : α' → β' → Prop}

theorem pure {v : α} {w : β} (h : Q v w) : Simulates a R Q (pure v) (pure w) :=
  fun _ hc => .ok hc h

theorem throw {e : Halt ε} {e' : Halt ε'} (h : e.Alike R e') :
    Simulates a R Q (throw e) (throw e') :=
  fun _ hc => .error hc h

theorem bind {x : EStateM (Halt ε) Arena α} {y : EStateM (Halt ε') Arena β}
    {f : α → EStateM (Halt ε) Arena α'} {g : β → EStateM (Halt ε') Arena β'}
    (hx : Simulates a R Q x y) (hf : ∀ v w, Q v w → Simulates a R P (f v) (g w)) :
    Simulates a R P (x >>= f) (y >>= g) := by
  intro c hc
  have hxy := hx c hc
  generalize hxc : x c = rx, hyc : y (a.above c) = ry at hxy
  cases hxy with
  | ok hd hvw =>
    rw [bind_eq_of_ok hxc, bind_eq_of_ok hyc]
    exact hf _ _ hvw _ hd
  | error hd he =>
    rw [bind_eq_of_error hxc, bind_eq_of_error hyc]
    exact .error hd he

end Simulates

section Build

variable {a : Arena}

abbrev BuildsAlike {α β : Type} (a : Arena) (Q : α → β → Prop) (x : Build α) (y : Build β) : Prop :=
  Simulates a (fun _ _ => True) Q x y

abbrev Moved (a : Arena) (r s : Ref) : Prop := s = r.shift a.size

theorem Arena.alloc_alike (node : Node) :
    BuildsAlike a (Moved a) (alloc node) (alloc (node.shift a.size)) := by
  intro c hc
  have hfull := isFull_above hc
  cases h : c.isFull with
  | true =>
    rw [alloc_of_full h, alloc_of_full (hfull.trans h)]
    exact .error hc (.failure trivial)
  | false =>
    have hextend := above_extend a c [node]
    rw [List.map_singleton] at hextend
    rw [alloc_of_room h, alloc_of_room (hfull.trans h), ← hextend]
    refine .ok hc ?_
    rw [Moved, Ref.shift_succ, size_above]

theorem Arena.link_alike (cell rest : Ref) :
    BuildsAlike a (fun _ _ => True) (link cell rest)
      (link (cell.shift a.size) (rest.shift a.size)) := by
  intro c hc
  rw [link, link, get?_above]
  cases c.get? cell with
  | none => exact .error hc (.fault _ _)
  | some node =>
    cases node with
    | pair first old =>
      simp only [Option.map_some, Node.shift, Ref.isNil_shift]
      split
      · have hset := above_set a c cell (.pair first rest)
        rw [Node.shift] at hset
        rw [← hset]
        exact .ok ((capacity_set c cell _).trans hc) trivial
      · exact .error hc (.fault _ _)
    | _ => exact .error hc (.fault _ _)

theorem Arena.couple_alike (x y : Ref) :
    BuildsAlike a (Moved a) (couple x y) (couple (x.shift a.size) (y.shift a.size)) := by
  apply Simulates.bind (alloc_alike (.pair y Ref.nil))
  rintro rest _ rfl
  exact alloc_alike (.pair x rest)

theorem OpenList.append_alike (l : OpenList) (item : Ref) :
    BuildsAlike a (fun l l' => l' = l.shift a.size) (l.append item)
      ((l.shift a.size).append (item.shift a.size)) := by
  apply Simulates.bind (Arena.alloc_alike (.pair item Ref.nil))
  rintro cell _ rfl
  simp only [shift, Ref.isNil_shift]
  split
  · exact .pure rfl
  · apply Simulates.bind (Arena.link_alike l.last cell)
    rintro _ _ _
    exact .pure rfl

end Build

section Tokens

-- Tokens that belong together are the same but for where they stand.
variable {a : Arena} {R : Token → Token → Prop}

def Blame.Alike (R : Token → Token → Prop) (b b' : Blame) : Prop :=
  b.cause = b'.cause ∧ R b.token b'.token

inductive Frame.Alike (n : Nat) (R : Token → Token → Prop) : Frame → Frame → Prop
  | list {t t'} (h : R t t') (items : OpenList) :
    Alike n R (.list t items) (.list t' (items.shift n))
  | quote {t t'} (h : R t t') : Alike n R (.quote t) (.quote t')

structure Stack.Alike (n : Nat) (R : Token → Token → Prop) (s s' : Stack) : Prop where
  frames : List.Forall₂ (Frame.Alike n R) s.frames s'.frames
  forms : s'.forms = s.forms.shift n

abbrev ParsesAlike {α β : Type} (a : Arena) (R : Token → Token → Prop) (Q : α → β → Prop)
    (x : Parse α) (y : Parse β) : Prop :=
  Simulates a (Blame.Alike R) Q x y

theorem Token.charge_alike {α β : Type} {Q : α → β → Prop} {t t' : Token} {x : Build α}
    {y : Build β} (h : BuildsAlike a Q x y) (ht : R t t') :
    ParsesAlike a R Q (t.charge x) (t'.charge y) := by
  intro c hc
  have hxy := h c hc
  generalize hxc : x c = rx, hyc : y (a.above c) = ry at hxy
  cases hxy with
  | ok hd hvw =>
    rw [charge_eq_of_ok hxc, charge_eq_of_ok hyc]
    exact .ok hd hvw
  | error hd he =>
    rw [charge_eq_of_error hxc, charge_eq_of_error hyc]
    cases he with
    | failure _ => exact .error hd (.failure ⟨rfl, ht⟩)
    | fault f f' => exact .error hd (.fault f f')

namespace Stack

theorem place_alike {frames frames' : List Frame}
    (hframes : List.Forall₂ (Frame.Alike a.size R) frames frames') (forms : OpenList) :
    ∀ (v : Ref) {t t' : Token}, R t t' → ParsesAlike a R (Stack.Alike a.size R)
      (place v t frames forms) (place (v.shift a.size) t' frames' (forms.shift a.size)) := by
  induction hframes with
  | nil =>
    intro v t t' ht
    apply Simulates.bind (Token.charge_alike (OpenList.append_alike forms v) ht)
    rintro l _ rfl
    exact .pure ⟨.nil, rfl⟩
  | cons hframe hframes ih =>
    intro v t t' ht
    cases hframe with
    | list hopening items =>
      apply Simulates.bind (Token.charge_alike (OpenList.append_alike items v) ht)
      rintro l _ rfl
      exact .pure ⟨.cons (.list hopening l) hframes, rfl⟩
    | quote hmark =>
      apply Simulates.bind (Token.charge_alike (Arena.alloc_alike (.symbol "quote")) hmark)
      rintro quote _ rfl
      apply Simulates.bind (Token.charge_alike (Arena.couple_alike quote v) hmark)
      rintro list _ rfl
      exact ih list hmark

theorem descend_alike {s s' : Stack} (hs : s.Alike a.size R s') (d : Nat) {t t' : Token}
    (ht : R t t') {frame frame' : Frame} (hframe : frame.Alike a.size R frame') :
    ParsesAlike a R (Stack.Alike a.size R) (s.descend d t frame) (s'.descend d t' frame') := by
  rw [descend, descend, ← hs.frames.length_eq]
  split
  · exact .pure ⟨.cons hframe hs.frames, hs.forms⟩
  · exact .throw (.failure ⟨rfl, ht⟩)

theorem step_alike (hR : ∀ t t', R t t' → t.signature = t'.signature) {s s' : Stack}
    (hs : s.Alike a.size R s') (d : Nat) {t t' : Token} (ht : R t t') :
    ParsesAlike a R (Stack.Alike a.size R) (s.step d t) (s'.step d t') := by
  have hrole' := Token.role_of_signature (hR t t' ht)
  cases hrole : t.role with
  | error halt =>
    have hself := Token.role_of_signature (rfl : t.signature = t.signature)
    rw [hrole] at hrole' hself
    rw [step, step, hrole, hrole']
    cases halt with
    | failure b =>
      apply Simulates.throw
      have hb : b.token = t := by
        have heq := Except.error.inj hself
        rw [Halt.map, Halt.failure.injEq] at heq
        rw [heq]
      exact .failure ⟨rfl, hb ▸ ht⟩
    | fault f => exact .throw (.fault f f)
  | ok role =>
    rw [hrole] at hrole'
    rw [step, step, hrole, hrole']
    cases role with
    | atom node =>
      have hnode : node.shift a.size = node := by
        apply Node.shift_of_slots
        rw [← Form.node_of_role hrole, Token.slots_node]
      have halloc := Arena.alloc_alike (a := a) node
      rw [hnode] at halloc
      apply Simulates.bind (Token.charge_alike halloc ht)
      rintro v _ rfl
      rw [hs.forms]
      exact place_alike hs.frames s.forms v ht
    | opening => exact descend_alike hs d ht (.list ht {})
    | quoting => exact descend_alike hs d ht (.quote ht)
    | closing =>
      rcases s with ⟨frames, forms⟩
      rcases s' with ⟨frames', _⟩
      rcases hs with ⟨hframes, rfl⟩
      cases hframes with
      | nil => exact .throw (.failure ⟨rfl, ht⟩)
      | cons hframe hframes =>
        cases hframe with
        | list hopening items => exact place_alike hframes forms items.head hopening
        | quote hmark => exact .throw (.failure ⟨rfl, ht⟩)

end Stack

end Tokens

end Sexpr
