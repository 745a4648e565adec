import Sexpr.Proofs.Growth
import Sexpr.Proofs.Refusal
import Sexpr.Proofs.Sharing

/-! # What a parse leaves in an arena

A parse that succeeds or is refused leaves the nodes of an outline. A parse that runs out of room
does so while a token is taken in, and leaves behind the nodes of an outline those few that were
allocated for the token before. In every case nodes are only added, and they stand for trees if
those that were there before do.
-/

namespace Sexpr

open Form (listRef listNodes listSize)

namespace Form

variable {a : Arena} {base i : Nat}

theorem index_listRef_le (base : Nat) (forms : List Form) :
    (listRef base Ref.nil forms).index ≤ base + listSize forms := by
  cases forms with
  | nil => exact Nat.zero_le _
  | cons form forms =>
    simp only [listRef, listSize]
    omega

theorem exists_unfolds_of_listNodes {forms : List Form}
    (h : a.Holds base (listNodes base Ref.nil forms)) (hlt : base < i)
    (hle : i ≤ base + listSize forms) : ∃ t, a.Unfolds ⟨i⟩ t :=
  (unfolds_listRef forms base h).of_reaches (reaches_listRef forms base h i hlt hle)

end Form

namespace Outline

variable {a : Arena}

theorem exists_unfolds_of_nodes {base i : Nat} {o : Outline} (h : a.Holds base (o.nodes base))
    (hlt : base < i) (hle : i ≤ base + o.size) : ∃ t, a.Unfolds ⟨i⟩ t := by
  induction o with
  | top forms => exact Form.exists_unfolds_of_listNodes h hlt hle
  | list opening items outer ih =>
    rw [nodes, Arena.holds_append, length_nodes] at h
    rw [size] at hle
    by_cases hi : i ≤ base + outer.size
    · exact ih h.1 hi
    · exact Form.exists_unfolds_of_listNodes h.2 (Nat.not_le.1 hi) (by omega)
  | quote mark outer ih => exact ih h hle

theorem grounded_extend_nodes (h : a.Grounded) (o : Outline) :
    (a.extend (o.nodes a.size)).Grounded := by
  refine h.extend fun i hlt hle => ?_
  rw [length_nodes] at hle
  exact exists_unfolds_of_nodes (Arena.holds_extend a _) hlt hle

end Outline

/-- A computation stopped for lack of room. All that it did was to add nodes, as many as are
allowed. -/
structure Arena.RunsOut (a b : Arena) : Prop where
  grows : a.GrowsTo b
  grounded : a.Grounded → b.Grounded
  full : b.capacity = b.size

section RunsOut

open Arena (RunsOut)

variable {a b : Arena} {e : Exhausted} {blame : Blame}

theorem Builds.runsOut {α β : Type} {build : Build α} {made : α → Arena → Prop} {t : Token}
    {f : α → Parse β} (hbuild : Builds a.Grounded build a made)
    (h : (t.charge build >>= f) a = .error (.failure blame) b)
    (hf : ∀ v c, a.GrowsTo c → made v c → f v c = .error (.failure blame) b → c.RunsOut b) :
    a.RunsOut b := by
  cases hx : build a with
  | ok v c =>
    rw [bind_eq_of_ok (Token.charge_eq_of_ok hx)] at h
    rw [Builds, hx] at hbuild
    rcases hbuild with ⟨hgrows, hgrounded, hmade⟩
    have hrest := hf v c hgrows hmade h
    exact ⟨hgrows.trans hrest.grows, hrest.grounded ∘ hgrounded, hrest.full⟩
  | error halt c =>
    rw [bind_eq_of_error (Token.charge_eq_of_error hx)] at h
    rw [Builds, hx] at hbuild
    rcases hbuild with ⟨hgrows, hgrounded, htells, _⟩
    cases halt with
    | failure e =>
      cases h
      exact ⟨hgrows, hgrounded, htells.1⟩
    | fault f => cases h

theorem Arena.link_ne_failure (cell rest : Ref) :
    Arena.link cell rest a ≠ .error (.failure e) b := by
  unfold Arena.link
  split
  · split <;> simp
  · simp
  · simp

theorem OpenList.append_eq_failure (ha : a.InLimit) {l : OpenList} {item : Ref}
    (h : l.append item a = .error (.failure e) b) : a.RunsOut b := by
  cases hfull : a.isFull with
  | true =>
    cases (append_of_full hfull l item).symm.trans h
    exact ⟨.refl a, id, ha.capacity_eq hfull⟩
  | false =>
    rw [append, Arena.pair, bind_eq_of_ok (Arena.alloc_of_room hfull _)] at h
    split at h
    · cases h
    · rcases bind_eq_error h with hlink | ⟨_, _, _, hpure⟩
      · exact absurd hlink (Arena.link_ne_failure l.last _)
      · cases hpure

theorem OpenList.append_runsOut (ha : a.InLimit) {l : OpenList} {item : Ref} {t : Token}
    {f : OpenList → Stack}
    (h : (t.charge (l.append item) >>= fun l => pure (f l)) a = .error (.failure blame) b) :
    a.RunsOut b := by
  cases happend : l.append item a with
  | ok l' c =>
    rw [bind_eq_of_ok (Token.charge_eq_of_ok happend)] at h
    cases h
  | error halt c =>
    rw [bind_eq_of_error (Token.charge_eq_of_error happend)] at h
    cases halt with
    | failure e =>
      cases h
      exact append_eq_failure ha happend
    | fault f => cases h

namespace Stack

/-- Of the nodes that are placed around a form, those that were allocated stay. -/
theorem place_runsOut {v : Ref} {t : Token} {frames : List Frame} {forms : OpenList}
    (ha : a.InLimit) (hv : v.index ≤ a.size)
    (h : place v t frames forms a = .error (.failure blame) b) : a.RunsOut b := by
  induction frames generalizing v t a with
  | nil => exact OpenList.append_runsOut ha h
  | cons frame frames ih =>
    cases frame with
    | list opening items => exact OpenList.append_runsOut ha h
    | quote mark =>
      have hsymbol : Builds a.Grounded (Arena.symbol "quote") a (Arena.Fresh a) :=
        .alloc ha id _ (by simp [Node.slots])
      refine hsymbol.runsOut h fun quote c hc hquote h => ?_
      have hin := hc.inLimit ha
      have hcouple : Builds c.Grounded (Arena.couple quote v) c (Arena.Fresh c) :=
        Arena.builds_couple hin id (fun _ => hquote.2) fun _ => hv.trans hc.size_le
      exact hcouple.runsOut h fun list d hd hlist h => ih (hd.inLimit hin) hlist.2 h

theorem cause_ne_outOfMemory_of_descend {s : Stack} {d : Nat} {t : Token} {frame : Frame}
    (h : s.descend d t frame a = .error (.failure blame) b) : blame.cause ≠ .outOfMemory := by
  unfold descend at h
  split at h <;> cases h
  simp

/-- A token is taken in as far as there is room, or it is refused for what it is. -/
theorem step_runsOut {s : Stack} {d : Nat} {t : Token} (ha : a.InLimit)
    (hs : ∀ opening items frames, s.frames = .list opening items :: frames →
      items.head.index ≤ a.size)
    (h : s.step d t a = .error (.failure blame) b) (hcause : blame.cause = .outOfMemory) :
    a.RunsOut b := by
  cases hrole : t.role with
  | error halt =>
    rw [step, hrole] at h
    cases h
    rcases Token.cause_of_role hrole with hc | hc | hc <;> cases hc.symm.trans hcause
  | ok role =>
    rw [step, hrole] at h
    cases role with
    | atom node =>
      have hslots : node.slots = [] := by
        rw [← Form.node_of_role hrole, Token.slots_node]
      have hatom : Builds a.Grounded (Arena.alloc node) a (Arena.Fresh a) :=
        .alloc ha id node (by simp [hslots])
      exact hatom.runsOut h fun v c hc hv h => place_runsOut (hc.inLimit ha) hv.2 h
    | opening => exact absurd hcause (cause_ne_outOfMemory_of_descend h)
    | quoting => exact absurd hcause (cause_ne_outOfMemory_of_descend h)
    | closing =>
      rcases s with ⟨_ | ⟨opening, items⟩ | mark, frames⟩
      · cases h
        cases hcause
      · exact place_runsOut ha (hs opening items _ rfl) h
      · cases h
        cases hcause

end Stack

end RunsOut

namespace Outline

variable {a : Arena} {o : Outline}

theorem head_index_le {base : Nat} {opening : Token} {items : OpenList} {frames : List Frame}
    (h : o.frames base = .list opening items :: frames) : items.head.index ≤ base + o.size := by
  cases o with
  | list opening items outer =>
    cases h
    rw [OpenList.head_ofForms, size, ← Nat.add_assoc]
    exact Form.index_listRef_le _ _
  | _ => cases h

theorem stack_runsOut {d : Nat} {t : Token} {blame : Blame} {b : Arena}
    (hin : (a.extend (o.nodes a.size)).InLimit)
    (h : (o.stack a.size).step d t (a.extend (o.nodes a.size)) = .error (.failure blame) b)
    (hcause : blame.cause = .outOfMemory) : (a.extend (o.nodes a.size)).RunsOut b := by
  refine Stack.step_runsOut hin (fun opening items frames hframes => ?_) h hcause
  rw [Arena.size_extend, length_nodes]
  exact head_index_le hframes

/-- The parser takes in a token as the outline does, or it runs out of room. -/
theorem step_inLimit (hin : (a.extend (o.nodes a.size)).InLimit) (d : Nat) (t : Token) :
    (∃ next, o.step d t = .ok next ∧ (a.extend (next.nodes a.size)).InLimit ∧
      (o.stack a.size).step d t (a.extend (o.nodes a.size)) =
        .ok (next.stack a.size) (a.extend (next.nodes a.size))) ∨
    (∃ halt, o.step d t = .error halt ∧
      (o.stack a.size).step d t (a.extend (o.nodes a.size)) =
        .error halt (a.extend (o.nodes a.size))) ∨
    ∃ blame b, (o.stack a.size).step d t (a.extend (o.nodes a.size)) = .error (.failure blame) b ∧
      (a.extend (o.nodes a.size)).RunsOut b := by
  have hroom := hin.hasRoom_of_extend
  rw [length_nodes] at hroom
  have hfollows := step_stack hroom d t
  cases hstep : o.step d t with
  | error halt =>
    rw [hstep] at hfollows
    exact .inr (.inl ⟨halt, rfl, hfollows⟩)
  | ok next =>
    rw [hstep] at hfollows
    by_cases hnext : a.HasRoom (next.nodes a.size).length
    · exact .inl ⟨next, rfl, hin.of_extend.extend hnext, hfollows.fits hnext⟩
    · rcases hfollows.lacks hnext with ⟨_, b, herror, u, rfl⟩
      exact .inr (.inr ⟨_, b, herror, stack_runsOut hin herror rfl⟩)

/-- What a parse of some tokens comes to: all of them are read, or the parse halts at one of them
with the nodes of an outline, and with others behind these if the room ran out. -/
inductive Outcome (a : Arena) (eof : Token) (r : Parser.Run) : Prop
  | read (o : Outline) (hin : (a.extend (o.nodes a.size)).InLimit)
      (hresult : r.result = o.finish a.size eof) (harena : r.arena = a.extend (o.nodes a.size))
  | halted (o : Outline) (hin : (a.extend (o.nodes a.size)).InLimit) (blame : Blame)
      (hresult : r.result = .error (.failure blame))
      (hgrows : (a.extend (o.nodes a.size)).GrowsTo r.arena)
      (hgrounded : (a.extend (o.nodes a.size)).Grounded → r.arena.Grounded)
      (hfull : blame.cause = .outOfMemory → r.arena.capacity = r.arena.size)

theorem outcome_run (d : Nat) (eof : Token) {ts : List Token} (hts : ∀ t ∈ ts, t.Scanned)
    (hin : (a.extend (o.nodes a.size)).InLimit) :
    Outcome a eof (Parser.run d eof ts (o.stack a.size) (a.extend (o.nodes a.size))) := by
  induction ts generalizing o with
  | nil => exact .read o hin (finish_stack a.size eof o) rfl
  | cons t ts ih =>
    rw [List.forall_mem_cons] at hts
    rcases step_inLimit hin d t with
      ⟨next, _, hnext, hstep⟩ | ⟨halt, ho, hstep⟩ | ⟨blame, b, hstep, hruns⟩
    · rw [Parser.run_of_ok hstep]
      cases ih hts.2 hnext with
      | read o hin hresult harena => exact .read o hin hresult harena
      | halted o hin blame hresult hgrows hgrounded hfull =>
        exact .halted o hin blame hresult hgrows hgrounded hfull
    · rcases step_eq_error hts.1 ho with ⟨c, rfl, _⟩
      rw [Parser.run_of_error hstep]
      exact .halted o hin _ rfl (.refl _) id fun hcause => (stack_runsOut hin hstep hcause).full
    · rw [Parser.run_of_error hstep]
      exact .halted o hin blame rfl hruns.grows hruns.grounded fun _ => hruns.full

theorem eq_nil_or_fresh_of_finish {r : Ref} {eof : Token} (h : o.finish a.size eof = .ok r) :
    r = Ref.nil ∧ a.extend (o.nodes a.size) = a ∨ a.Fresh r (a.extend (o.nodes a.size)) := by
  cases o with
  | top forms =>
    cases h
    cases forms with
    | nil => exact .inl ⟨rfl, a.extend_nil⟩
    | cons form forms =>
      refine .inr ⟨?_, ?_⟩
      · simp only [listRef]
        omega
      · rw [Arena.size_extend, length_nodes]
        exact Form.index_listRef_le _ _
  | _ => cases h

theorem finish_eq_error {base : Nat} {halt : Halt Blame} {eof : Token}
    (h : o.finish base eof = .error halt) : halt = .failure ⟨.endOfInput, eof⟩ := by
  cases o <;> cases h <;> rfl

end Outline

/-- A parse only adds nodes, which stand for trees if those do that were there before. Its result is
new unless it has no forms, and it fails for lack of room only if the arena is full then. -/
theorem parse_leaves {a : Arena} (ha : a.InLimit) (input : Bytes) (maxDepth : Nat) :
    a.GrowsTo (parse input a maxDepth).arena ∧
      (a.Grounded → (parse input a maxDepth).arena.Grounded) ∧
      (∀ r, (parse input a maxDepth).result = .ok r →
        r = Ref.nil ∧ (parse input a maxDepth).arena = a ∨
          a.Fresh r (parse input a maxDepth).arena) ∧
      ∀ halt, (parse input a maxDepth).result = .error halt → ∃ e, halt = .failure e ∧
        (e.cause = .outOfMemory →
          (parse input a maxDepth).arena.capacity = (parse input a maxDepth).arena.size) := by
  have hbegin : a.extend ((Outline.top []).nodes a.size) = a := a.extend_nil
  have hscanned : ∀ t ∈ Token.all input, t.Scanned := fun _ => Token.scanned_of_mem_all
  have hrun := Outline.outcome_run maxDepth (Token.eof input) hscanned (hbegin.symm ▸ ha)
  rw [hbegin] at hrun
  generalize hr : Parser.run maxDepth (Token.eof input) (Token.all input) _ a = r at hrun
  have harena : (parse input a maxDepth).arena = r.arena := congrArg Parser.Run.arena hr
  have hresult : (parse input a maxDepth).result =
      r.result.mapError (Halt.map (Blame.locate input)) :=
    congrArg (fun r => r.result.mapError (Halt.map (Blame.locate input))) hr
  rw [harena, hresult]
  cases hrun with
  | read o hin hresult harena =>
    rw [hresult, harena]
    refine ⟨⟨⟨_, rfl⟩, fun _ => hin⟩, fun h => Outline.grounded_extend_nodes h o, ?_⟩
    cases hfinish : o.finish a.size (Token.eof input) with
    | ok r =>
      refine ⟨fun r' hr' => ?_, nofun⟩
      cases hr'
      exact Outline.eq_nil_or_fresh_of_finish hfinish
    | error halt =>
      cases Outline.finish_eq_error hfinish
      refine ⟨nofun, fun halt h => ?_⟩
      cases h
      exact ⟨_, rfl, nofun⟩
  | halted o hin blame hresult hgrows hgrounded hfull =>
    rw [hresult]
    refine ⟨.trans ⟨⟨_, rfl⟩, fun _ => hin⟩ hgrows,
      fun h => hgrounded (Outline.grounded_extend_nodes h o), nofun, fun halt h => ?_⟩
    cases h
    exact ⟨_, rfl, hfull⟩

end Sexpr
