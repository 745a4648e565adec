import Sexpr.Proofs.Outline

/-! # Building what is read

An outline determines the stack of the parser and the nodes that were added to the arena. While the
arena has room for these nodes, each step of the parser takes the stack and the nodes of one outline
to those of the next, and it is refused exactly if the token has no place in the outline. Where the
room ends, the parser fails for lack of memory.
-/

namespace Sexpr

/-- When a text is parsed, an allocation that fails is reported as a lack of memory. -/
def Halt.OutOfMemory (halt : Halt Blame) : Prop := ∃ t, halt = .failure ⟨.outOfMemory, t⟩

namespace Token

variable {α : Type} {t : Token} {build : Build α} {a b : Arena}

theorem charge_eq_of_ok {v : α} (h : build a = .ok v b) : t.charge build a = .ok v b := by
  simp only [charge, EStateM.adaptExcept, h]

theorem charge_eq_of_error {halt : Halt Exhausted} (h : build a = .error halt b) :
    t.charge build a = .error (halt.map fun _ => ⟨.outOfMemory, t⟩) b := by
  simp only [charge, EStateM.adaptExcept, h]

theorem charge_adds {v : α} {nodes : List Node}
    (h : Arena.Adds a Arena.LacksRoom (build b) v nodes) (t : Token) :
    Arena.Adds a Halt.OutOfMemory (t.charge build b) v nodes := by
  refine ⟨fun hroom => charge_eq_of_ok (h.fits hroom), fun hroom => ?_⟩
  rcases h.lacks hroom with ⟨_, c, herror, e, rfl⟩
  exact ⟨_, c, charge_eq_of_error herror, t, rfl⟩

end Token

namespace OpenList

variable {a c : Arena} {l : OpenList}

theorem append_first (h : c.isFull = false) (hlast : l.last = Ref.nil) (item : Ref) :
    l.append item c = .ok ⟨⟨c.size + 1⟩, ⟨c.size + 1⟩⟩ (c.extend [.pair item Ref.nil]) := by
  rw [append, Arena.pair, bind_eq_of_ok (Arena.alloc_of_room h _), hlast]
  rfl

theorem append_linked {before after : List Node} {x : Ref}
    (hc : c = a.extend (before ++ .pair x Ref.nil :: after)) (h : c.isFull = false)
    (hlast : l.last = ⟨a.size + before.length + 1⟩) (item : Ref) :
    l.append item c = .ok ⟨l.head, ⟨c.size + 1⟩⟩
      (a.extend (before ++ .pair x ⟨c.size + 1⟩ :: after ++ [.pair item Ref.nil])) := by
  have hlink := Arena.link_extend a before (after ++ [.pair item Ref.nil]) x ⟨c.size + 1⟩
  have hcell := Arena.alloc_of_room h (.pair item Ref.nil)
  have hnil : (⟨a.size + before.length + 1⟩ : Ref).isNil = false := rfl
  rw [append, Arena.pair, bind_eq_of_ok hcell, hlast, hnil, if_neg Bool.false_ne_true, hc,
    Arena.extend_extend]
  rw [hc] at hlink
  simp only [List.append_assoc, List.cons_append] at hlink ⊢
  rw [bind_eq_of_ok hlink]
  rfl

theorem append_of_full (h : c.isFull = true) (l : OpenList) (item : Ref) :
    l.append item c = .error (.failure ⟨c.size⟩) c := by
  rw [append, Arena.pair, bind_eq_of_error (Arena.alloc_of_full h _)]

/-- List of forms whose nodes lie behind a number of others. -/
def ofForms (base : Nat) : List Form → OpenList
  | [] => {}
  | form :: forms => ⟨Form.listRef base Ref.nil (form :: forms),
      ⟨base + Form.listSize (form :: forms)⟩⟩

theorem head_ofForms (base : Nat) (forms : List Form) :
    (ofForms base forms).head = Form.listRef base Ref.nil forms := by
  cases forms <;> rfl

theorem ofForms_of_ne_nil (base : Nat) {forms : List Form} (h : forms ≠ []) :
    ofForms base forms = ⟨Form.listRef base Ref.nil forms, ⟨base + Form.listSize forms⟩⟩ := by
  cases forms with
  | nil => exact absurd rfl h
  | cons form forms => rfl

theorem append_ofForms (before : List Node) (forms : List Form) (form : Form) {base : Nat}
    (hbase : base = a.size + before.length) :
    Arena.Adds a Arena.LacksRoom
      ((ofForms base forms).append (form.ref (base + Form.listSize forms))
        (a.extend (before ++ Form.listNodes base Ref.nil forms ++
          form.nodes (base + Form.listSize forms))))
      (ofForms base (forms ++ [form]))
      (before ++ Form.listNodes base Ref.nil (forms ++ [form])) := by
  have hlength : (before ++ Form.listNodes base Ref.nil (forms ++ [form])).length =
      (before ++ Form.listNodes base Ref.nil forms ++
        form.nodes (base + Form.listSize forms)).length + 1 := by
    simp only [List.length_append, Form.length_listNodes, Form.length_nodes, Form.listSize_append,
      Form.listSize]
    omega
  have hsize : (a.extend (before ++ Form.listNodes base Ref.nil forms ++
      form.nodes (base + Form.listSize forms))).size + 1 =
        base + Form.listSize (forms ++ [form]) := by
    rw [Arena.size_extend, Nat.add_assoc, ← hlength, List.length_append, Form.length_listNodes,
      hbase, Nat.add_assoc]
  rw [ofForms_of_ne_nil base (List.append_ne_nil_of_right_ne_nil forms (List.cons_ne_nil form [])),
    ← hsize]
  refine ⟨fun hroom => ?_, fun hroom => ?_⟩
  · rw [hlength, ← Arena.isFull_extend] at hroom
    by_cases hforms : forms = []
    · subst hforms
      rw [append_first hroom rfl, Arena.extend_extend, hsize]
      simp [Form.listNodes, Form.listRef, Form.listSize, Nat.add_assoc]
    · rcases Form.exists_listNodes_eq base hforms with ⟨init, item, hinitLength, hinit⟩
      have hlast : (ofForms base forms).last = ⟨a.size + (before ++ init).length + 1⟩ := by
        rw [ofForms_of_ne_nil base hforms, List.length_append, Ref.mk.injEq]
        omega
      have hhead : Form.listRef base Ref.nil (forms ++ [form]) = (ofForms base forms).head := by
        cases forms with
        | nil => exact absurd rfl hforms
        | cons first forms => rfl
      have hnodes : before ++ Form.listNodes base Ref.nil forms ++
          form.nodes (base + Form.listSize forms) =
            before ++ init ++ .pair item Ref.nil :: form.nodes (base + Form.listSize forms) := by
        rw [hinit]
        simp
      rw [append_linked (congrArg a.extend hnodes) hroom hlast, hhead, hsize,
        Form.listNodes_append, hinit]
      simp [Form.listNodes, Form.listRef, Form.listSize_append, Form.listSize, Nat.add_assoc]
  · rw [hlength, ← Arena.isFull_extend, Bool.not_eq_false] at hroom
    exact ⟨_, _, append_of_full hroom _ _, _, rfl⟩

end OpenList

namespace Outline

def size : Outline → Nat
  | top forms => Form.listSize forms
  | list _ items outer => outer.size + Form.listSize items
  | quote _ outer => outer.size

def nodes (base : Nat) : Outline → List Node
  | top forms => Form.listNodes base Ref.nil forms
  | list _ items outer => outer.nodes base ++ Form.listNodes (base + outer.size) Ref.nil items
  | quote _ outer => outer.nodes base

def frames (base : Nat) : Outline → List Frame
  | top _ => []
  | list opening items outer =>
    .list opening.1 (OpenList.ofForms (base + outer.size) items) :: outer.frames base
  | quote mark outer => .quote mark.1 :: outer.frames base

def forms (base : Nat) : Outline → OpenList
  | top forms => OpenList.ofForms base forms
  | list _ _ outer => outer.forms base
  | quote _ outer => outer.forms base

def stack (base : Nat) (o : Outline) : Stack := ⟨o.frames base, o.forms base⟩

@[simp] theorem length_nodes (o : Outline) (base : Nat) : (o.nodes base).length = o.size := by
  induction o with
  | top forms => simp [nodes, size]
  | list opening items outer ih => simp [nodes, size, ih]
  | quote mark outer ih => exact ih

@[simp] theorem length_frames (o : Outline) (base : Nat) : (o.frames base).length = o.level := by
  induction o with
  | top forms => rfl
  | list opening items outer ih => simp [frames, level, ih]
  | quote mark outer ih => simp [frames, level, ih]

/-- A form that is placed takes a cell besides its own nodes. -/
theorem size_lt_place (form : Form) (o : Outline) : o.size + form.size < (o.place form).size := by
  induction o generalizing form with
  | top forms =>
    simp only [place, size, Form.listSize_append, Form.listSize]
    omega
  | list opening items outer ih =>
    simp only [place, size, Form.listSize_append, Form.listSize]
    omega
  | quote mark outer ih =>
    have hquote := ih (.quote mark form)
    simp only [Form.size] at hquote
    simp only [place, size]
    omega

variable {a : Arena}

theorem adds_quote (a : Arena) (before : List Node) (form : Form) (mark : Terminal .quote) :
    Arena.Adds a Arena.LacksRoom
        (Arena.symbol "quote" (a.extend (before ++ form.nodes (a.size + before.length))))
        ⟨a.size + before.length + form.size + 1⟩
        (before ++ form.nodes (a.size + before.length) ++ [.symbol "quote"]) ∧
      Arena.Adds a Arena.LacksRoom
        (Arena.couple ⟨a.size + before.length + form.size + 1⟩ (form.ref (a.size + before.length))
          (a.extend (before ++ form.nodes (a.size + before.length) ++ [.symbol "quote"])))
        ((Form.quote mark form).ref (a.size + before.length))
        (before ++ (Form.quote mark form).nodes (a.size + before.length)) := by
  have hsymbol := Arena.adds_alloc a (before ++ form.nodes (a.size + before.length))
    (.symbol "quote")
  have hcouple := Arena.adds_couple a
    (before ++ form.nodes (a.size + before.length) ++ [.symbol "quote"])
    ⟨a.size + before.length + form.size + 1⟩ (form.ref (a.size + before.length))
  simp only [List.length_append, Form.length_nodes, List.length_singleton, List.append_assoc,
    ← Nat.add_assoc] at hsymbol hcouple ⊢
  exact ⟨hsymbol, hcouple⟩

/-- A finished form is placed in the stack as it is in the outline. -/
theorem place_stack (a : Arena) (t : Token) (form : Form) (o : Outline) :
    Arena.Adds a Halt.OutOfMemory
      (Stack.place (form.ref (a.size + o.size)) t (o.frames a.size) (o.forms a.size)
        (a.extend (o.nodes a.size ++ form.nodes (a.size + o.size))))
      ((o.place form).stack a.size) ((o.place form).nodes a.size) := by
  induction o generalizing form t with
  | top forms =>
    have happend := Token.charge_adds (OpenList.append_ofForms (a := a) [] forms form rfl) t
    exact happend.bind (Nat.le_refl _) fun hroom => .of_ok hroom rfl
  | list opening items outer ih =>
    have hbase : a.size + outer.size = a.size + (outer.nodes a.size).length := by
      rw [length_nodes]
    have happend := Token.charge_adds
      (OpenList.append_ofForms (outer.nodes a.size) items form hbase) t
    rw [frames, Stack.place, nodes, size, ← Nat.add_assoc]
    exact happend.bind (Nat.le_refl _) fun hroom => .of_ok hroom rfl
  | quote mark outer ih =>
    rcases adds_quote a (outer.nodes a.size) form mark with ⟨hsymbol, hcouple⟩
    have hlt := size_lt_place (.quote mark form) outer
    have hplaced : (outer.nodes a.size ++
        (Form.quote mark form).nodes (a.size + outer.size)).length ≤
          ((outer.place (.quote mark form)).nodes a.size).length := by
      rw [List.length_append, length_nodes, length_nodes, Form.length_nodes]
      exact hlt.le
    rw [length_nodes] at hsymbol hcouple
    rw [frames, Stack.place, nodes, size, place]
    refine (Token.charge_adds hsymbol mark.1).bind ?_ fun _ =>
      (Token.charge_adds hcouple mark.1).bind hplaced fun _ => ih mark.1 (.quote mark form)
    refine hplaced.trans' ?_
    simp [Form.nodes]

/-- What is left behind by a token that was read or refused. -/
def Follows (a : Arena) (o : Outline) (r : EStateM.Result (Halt Blame) Arena Stack) :
    Except (Halt Blame) Outline → Prop
  | .ok next => Arena.Adds a Halt.OutOfMemory r (next.stack a.size) (next.nodes a.size)
  | .error halt => r = .error halt (a.extend (o.nodes a.size))

variable {d : Nat} {t : Token} {o o' inner : Outline}

theorem descend_stack (hroom : a.HasRoom o.size) (d : Nat) (t : Token) {frame : Frame}
    (hframes : inner.frames a.size = frame :: o.frames a.size)
    (hforms : inner.forms a.size = o.forms a.size) (hnodes : inner.nodes a.size = o.nodes a.size) :
    Follows a o ((o.stack a.size).descend d t frame (a.extend (o.nodes a.size)))
      (o.enter d t inner) := by
  rw [← length_nodes o a.size, ← hnodes] at hroom
  rw [Stack.descend, enter, stack, length_frames]
  by_cases h : o.level < d
  · rw [if_pos h, if_pos h, Follows, stack, hframes, hforms]
    exact .of_ok hroom (by rw [hnodes]; rfl)
  · rw [if_neg h, if_neg h]
    rfl

theorem step_stack (hroom : a.HasRoom o.size) (d : Nat) (t : Token) :
    Follows a o ((o.stack a.size).step d t (a.extend (o.nodes a.size))) (o.step d t) := by
  cases hrole : t.role with
  | error halt =>
    rw [step_of_error hrole, Stack.step, hrole]
    rfl
  | ok role =>
    cases role with
    | atom node =>
      have hnode := Form.node_of_role hrole
      subst hnode
      have halloc := Token.charge_adds (Arena.adds_alloc a (o.nodes a.size) t.node) t
      have hlt := size_lt_place (.atom ⟨t, Token.suits_of_role hrole⟩) o
      rw [length_nodes] at halloc
      rw [step_of_atom hrole, Stack.step, hrole]
      refine halloc.bind ?_ fun _ => place_stack a t (.atom ⟨t, Token.suits_of_role hrole⟩) o
      rw [List.length_append, length_nodes, length_nodes]
      exact hlt.le
    | opening =>
      rw [step_of_opening hrole, Stack.step, hrole]
      exact descend_stack hroom d t rfl rfl (List.append_nil _)
    | quoting =>
      rw [step_of_quoting hrole, Stack.step, hrole]
      exact descend_stack hroom d t rfl rfl rfl
    | closing =>
      rw [step_of_closing hrole, Stack.step, hrole]
      cases o with
      | list opening items outer =>
        have hplace := place_stack a opening.1
          (.list opening items ⟨t, Token.suits_of_role hrole⟩) outer
        simp only [stack, frames, OpenList.head_ofForms]
        exact hplace
      | top forms => rfl
      | quote mark outer => rfl

theorem size_le_of_step (h : o.step d t = .ok o') : o.size ≤ o'.size := by
  cases hrole : t.role with
  | error halt =>
    rw [step_of_error hrole] at h
    cases h
  | ok role =>
    cases role with
    | atom node =>
      rw [step_of_atom hrole] at h
      cases h
      exact (Nat.le_add_right _ _).trans (size_lt_place _ o).le
    | opening =>
      rw [step_of_opening hrole, enter_eq_ok_iff] at h
      rw [← h.2]
      exact Nat.le_add_right _ _
    | quoting =>
      rw [step_of_quoting hrole, enter_eq_ok_iff] at h
      rw [← h.2, size]
    | closing =>
      rw [step_of_closing hrole] at h
      rcases close_eq_ok h with ⟨opening, items, outer, rfl, rfl⟩
      exact (size_lt_place (.list opening items _) outer).le

theorem size_le_of_read {ts : List Token} (h : o.read d ts = .ok o') : o.size ≤ o'.size := by
  induction ts generalizing o with
  | nil =>
    cases h
    exact Nat.le_refl _
  | cons t ts ih =>
    rw [read_cons] at h
    cases hstep : o.step d t with
    | error halt =>
      rw [hstep] at h
      cases h
    | ok next =>
      rw [hstep] at h
      exact (size_le_of_step hstep).trans (ih h)

/-- Nodes that are still to come for the lists and quotes that are open. -/
def pending : Outline → Nat
  | top _ => 0
  | list _ _ outer => outer.pending + 1
  | quote _ outer => outer.pending + 3

theorem size_add_pending (o : Outline) : o.size + o.pending = Form.tokenCost o.tokens := by
  induction o with
  | top forms => exact (Form.tokenCost_listTokens forms).symm
  | list opening items outer ih =>
    have hopening : Form.tokenCost [opening.1] = 1 := by
      simp [Form.tokenCost, opening.2, Token.Kind.isAtom]
    rw [tokens, Form.tokenCost_append, ← List.singleton_append, Form.tokenCost_append, hopening,
      Form.tokenCost_listTokens, ← ih, size, pending]
    omega
  | quote mark outer ih =>
    have hmark : Form.tokenCost [mark.1] = 3 := by
      simp [Form.tokenCost, mark.2, Token.Kind.isAtom]
    rw [tokens, Form.tokenCost_append, hmark, ← ih, size, pending, Nat.add_assoc]

theorem size_le_tokenCost {ts us : List Token} (h : (top []).read d ts = .ok o) :
    o.size ≤ Form.tokenCost (ts ++ us) := by
  have hpending := o.size_add_pending
  rw [(tokens_read h).1] at hpending
  rw [Form.tokenCost_append, ← List.nil_append ts]
  exact (Nat.le_add_right _ _).trans (hpending.le.trans (Nat.le_add_right _ _))

def finish (base : Nat) (eof : Token) : Outline → Except (Halt Blame) Ref
  | top forms => .ok (Form.listRef base Ref.nil forms)
  | _ => eof.refuse .endOfInput

theorem finish_stack (base : Nat) (eof : Token) (o : Outline) :
    (o.stack base).finish eof = o.finish base eof := by
  cases o with
  | top forms => exact congrArg Except.ok (OpenList.head_ofForms base forms)
  | _ => rfl

end Outline

namespace Parser

variable {d : Nat} {eof t : Token} {ts : List Token} {s next : Stack} {a b : Arena}

theorem run_of_ok (h : s.step d t a = .ok next b) : run d eof (t :: ts) s a =
    ⟨(run d eof ts next b).result, (run d eof ts next b).arena,
      t :: (run d eof ts next b).pulled⟩ := by
  rw [run, h]

theorem run_of_error {halt : Halt Blame} (h : s.step d t a = .error halt b) :
    run d eof (t :: ts) s a = ⟨.error halt, b, [t]⟩ := by
  rw [run, h]

end Parser

namespace Outline

variable {a : Arena} {d : Nat} {o o' : Outline} {ts : List Token}

/-- Reading some tokens takes the parser to the stack and the nodes of their outline. -/
theorem run_stack (eof : Token) (h : o.read d ts = .ok o') (hroom : a.HasRoom o'.size)
    (us : List Token) :
    Parser.run d eof (ts ++ us) (o.stack a.size) (a.extend (o.nodes a.size)) =
      let later := Parser.run d eof us (o'.stack a.size) (a.extend (o'.nodes a.size))
      { later with pulled := ts ++ later.pulled } := by
  induction ts generalizing o with
  | nil =>
    cases h
    rfl
  | cons t ts ih =>
    have hfollows := step_stack (hroom.mono (size_le_of_read h)) d t
    rw [read_cons] at h
    cases hstep : o.step d t with
    | error halt =>
      rw [hstep] at h
      cases h
    | ok next =>
      rw [hstep] at h hfollows
      have hnext : a.HasRoom (next.nodes a.size).length := by
        rw [length_nodes]
        exact hroom.mono (size_le_of_read h)
      rw [List.cons_append, Parser.run_of_ok (hfollows.fits hnext), ih h]
      rfl

/-- Without room for the nodes of an outline, the parser fails before its last token is read. -/
theorem run_lacks (eof : Token) (h : o.read d ts = .ok o') (hroom : a.HasRoom o.size)
    (hlack : ¬ a.HasRoom o'.size) (us : List Token) : ∃ t,
      (Parser.run d eof (ts ++ us) (o.stack a.size) (a.extend (o.nodes a.size))).result =
        .error (.failure ⟨.outOfMemory, t⟩) := by
  induction ts generalizing o with
  | nil =>
    cases h
    exact absurd hroom hlack
  | cons t ts ih =>
    have hfollows := step_stack hroom d t
    rw [read_cons] at h
    cases hstep : o.step d t with
    | error halt =>
      rw [hstep] at h
      cases h
    | ok next =>
      rw [hstep] at h hfollows
      by_cases hnext : a.HasRoom next.size
      · have hfits := hfollows.fits (by rwa [length_nodes])
        rw [List.cons_append, Parser.run_of_ok hfits]
        exact ih h hnext
      · rcases hfollows.lacks (by rwa [length_nodes]) with ⟨_, b, herror, u, rfl⟩
        rw [List.cons_append, Parser.run_of_error herror]
        exact ⟨u, rfl⟩

end Outline

section Parse

open Outline

variable {a : Arena} {input : Bytes} {d : Nat} {o : Outline} {forms : List Form} {r : Ref}
  {t : Token} {before after : List Token} {halt : Halt Blame}

private theorem run_all (h : (top []).read d before = .ok o) (hroom : a.HasRoom o.size)
    (hall : Token.all input = before ++ after) :
    Parser.run d (Token.eof input) (Token.all input) {} a =
      let later := Parser.run d (Token.eof input) after (o.stack a.size) (a.extend (o.nodes a.size))
      { later with pulled := before ++ later.pulled } := by
  have hrun := run_stack (Token.eof input) h hroom after
  rw [nodes, Form.listNodes, Arena.extend_nil] at hrun
  rw [hall]
  exact hrun

theorem parse_of_read (h : (top []).read d (Token.all input) = .ok o) (hroom : a.HasRoom o.size) :
    parse input a d =
      ⟨(o.finish a.size (Token.eof input)).mapError (Halt.map (Blame.locate input)),
        a.extend (o.nodes a.size), Token.stream input⟩ := by
  have hrun := run_all h hroom (List.append_nil _).symm
  rw [parse, hrun, Parser.run, finish_stack]
  rfl

theorem parse_of_refusal (hall : Token.all input = before ++ t :: after)
    (h : (top []).read d before = .ok o) (hstep : o.step d t = .error halt)
    (hroom : a.HasRoom o.size) :
    parse input a d =
      ⟨.error (halt.map (Blame.locate input)), a.extend (o.nodes a.size), before ++ [t]⟩ := by
  have hrun := run_all h hroom hall
  have hfollows := step_stack hroom d t
  rw [hstep] at hfollows
  rw [Parser.run_of_error hfollows] at hrun
  rw [parse, hrun]
  rfl

theorem parse_lacks (hall : Token.all input = before ++ after)
    (h : (top []).read d before = .ok o) (hlack : ¬ a.HasRoom o.size) :
    ∃ e, (parse input a d).result = .error (.failure e) ∧ e.cause = .outOfMemory := by
  have hrun := run_lacks (Token.eof input) h a.hasRoom_zero hlack after
  rw [nodes, Form.listNodes, Arena.extend_nil, ← hall] at hrun
  rcases hrun with ⟨u, hu⟩
  refine ⟨Blame.locate input ⟨.outOfMemory, u⟩, ?_, rfl⟩
  exact congrArg (Except.mapError (Halt.map (Blame.locate input))) hu

/-- Where there is room for complete forms of all tokens, the first token that has no place in the
outline is what is wrong. -/
theorem result_parse_of_error (hroom : a.HasRoom (Form.tokenCost (Token.all input)))
    (h : (top []).read d (Token.all input) = .error halt) :
    (parse input a d).result = .error (halt.map (Blame.locate input)) := by
  rcases read_eq_error h with ⟨before, t, after, o, hall, hread, hstep⟩
  rw [hall] at hroom
  rw [parse_of_refusal hall hread hstep (hroom.mono (size_le_tokenCost hread))]

theorem parse_eq_ok_iff : (parse input a d).result = .ok r ↔
    ∃ forms, (top []).read d (Token.all input) = .ok (top forms) ∧
      a.HasRoom (Form.listSize forms) ∧ Form.listRef a.size Ref.nil forms = r := by
  cases h : (top []).read d (Token.all input) with
  | error halt =>
    rcases read_eq_error h with ⟨before, t, after, o, hall, hread, hstep⟩
    by_cases hroom : a.HasRoom o.size
    · simp [parse_of_refusal hall hread hstep hroom]
    · rcases parse_lacks hall hread hroom with ⟨e, he, _⟩
      simp [he]
  | ok o =>
    by_cases hroom : a.HasRoom o.size
    · rw [parse_of_read h hroom]
      cases o <;> simp_all [Except.mapError, finish, Token.refuse, size]
    · rcases parse_lacks (List.append_nil _).symm h hroom with ⟨e, he, _⟩
      cases o <;> simp_all [size]

theorem arena_parse (h : (top []).read d (Token.all input) = .ok (top forms))
    (hroom : a.HasRoom (Form.listSize forms)) :
    (parse input a d).arena = a.extend (Form.listNodes a.size Ref.nil forms) := by
  rw [parse_of_read h hroom, nodes]

theorem size_parse (h : (top []).read d (Token.all input) = .ok (top forms))
    (hroom : a.HasRoom (Form.listSize forms)) :
    (parse input a d).arena.size = a.size + Form.listSize forms := by
  rw [arena_parse h hroom, Arena.size_extend, Form.length_listNodes]

theorem unfolds_parse (h : (top []).read d (Token.all input) = .ok (top forms))
    (hroom : a.HasRoom (Form.listSize forms)) :
    (parse input a d).arena.Unfolds (Form.listRef a.size Ref.nil forms) (Form.listTree forms) := by
  rw [arena_parse h hroom]
  exact Form.unfolds_listRef forms a.size (Arena.holds_extend a _)

end Parse

end Sexpr
