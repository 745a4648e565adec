import Sexpr.Proofs.Command
import Sexpr.Proofs.TreeText

/-! # Arenas used with their own references

A session is the use of an arena with no other references than the arena has handed out since it was
last cleared. However it goes, also where commands halt halfway, all nodes of the arena stand for
trees. So whatever is done with a reference that was handed out comes to its end.
-/

namespace Sexpr

/-- References that a user has after a command, who had some before. A cleared arena has handed out
the empty list only. -/
def Command.handOut (a : Arena) (handed : List Ref) (c : Command) : List Ref :=
  match c, (c.run a).answer with
  | clear, _ => [Ref.nil]
  | _, .ok (some r) => r :: handed
  | _, _ => handed

/-- An arena and the references that it has handed out, as answers to commands or in the slots of
nodes that were handed out before. Commands are given no others. -/
inductive Session : Arena → List Ref → Prop
  | start (limit : Option Nat) : Session { limit := limit } [Ref.nil]
  | command {a handed} (h : Session a handed) (c : Command) (hc : ∀ r ∈ c.arguments, r ∈ handed) :
      Session (c.run a).arena (c.handOut a handed)
  | slot {a handed r s} (h : Session a handed) (hr : r ∈ handed) (hs : a.Points r s) :
      Session a (s :: handed)

namespace Arena

variable {a : Arena} {r s : Ref}

theorem grounded_new (limit : Option Nat) : ({ limit := limit } : Arena).Grounded := by
  rintro ⟨_ | i⟩ h
  · exact ⟨_, .nil rfl⟩
  · cases h

theorem Grounded.isSome_of_points (h : a.Grounded) (hs : a.Points r s) : (a.get? s).isSome := by
  have hr : (a.get? r).isSome := by
    rcases hs with ⟨node, hnode, _⟩
    exact Option.isSome_of_eq_some hnode
  rcases h r hr with ⟨t, ht⟩
  rcases ht.of_points hs with ⟨u, hu, _⟩
  exact hu.get?_isSome

theorem Grounded.acyclic (h : a.Grounded) (r : Ref) : ¬ Relation.TransGen a.Points r r := by
  intro hcycle
  rcases Relation.TransGen.head'_iff.1 hcycle with ⟨s, ⟨node, hnode, _⟩, _⟩
  rcases h r (Option.isSome_of_eq_some hnode) with ⟨t, ht⟩
  exact ht.sound.acyclic r .refl hcycle

end Arena

namespace Command

variable {a : Arena} {handed : List Ref} {c : Command}

theorem mem_handOut (hc : c ≠ clear) {r : Ref} (h : r ∈ c.handOut a handed) :
    r ∈ handed ∨ (c.run a).answer = .ok (some r) := by
  unfold handOut at h
  split at h
  · exact absurd rfl hc
  · rename_i s hs
    rcases List.mem_cons.1 h with rfl | h
    · exact .inr hs
    · exact .inl h
  · exact .inl h

end Command

namespace Session

variable {a : Arena} {handed : List Ref} {r : Ref}

structure Safe (a : Arena) (handed : List Ref) : Prop where
  inLimit : a.InLimit
  grounded : a.Grounded
  present : ∀ r ∈ handed, r.index ≤ a.size

theorem safe_new (limit : Option Nat) : Safe { limit := limit } [Ref.nil] where
  inLimit := Arena.inLimit_new limit
  grounded := Arena.grounded_new limit
  present r hr := by
    rw [List.mem_singleton.1 hr]
    exact Nat.zero_le _

theorem Safe.command (h : Safe a handed) {c : Command} (hc : ∀ r ∈ c.arguments, r ∈ handed) :
    Safe (c.run a).arena (c.handOut a handed) := by
  by_cases hclear : c = .clear
  · subst hclear
    exact safe_new a.limit
  · have hkeeps := Command.keeps_run h.inLimit hclear
    refine ⟨hkeeps.grows.inLimit h.inLimit,
      hkeeps.grounded ⟨h.grounded, fun r hr => h.present r (hc r hr)⟩, fun r hr => ?_⟩
    rcases Command.mem_handOut hclear hr with hold | hnew
    · exact (h.present r hold).trans hkeeps.grows.size_le
    · rcases hkeeps.made r hnew with ⟨rfl, _⟩ | hfresh
      · exact Nat.zero_le _
      · exact hfresh.2

theorem Safe.slot (h : Safe a handed) {s : Ref} (hs : a.Points r s) : Safe a (s :: handed) where
  inLimit := h.inLimit
  grounded := h.grounded
  present := List.forall_mem_cons.2
    ⟨Arena.index_le_size (h.grounded.isSome_of_points hs), h.present⟩

theorem safe (h : Session a handed) : Safe a handed := by
  induction h with
  | start limit => exact safe_new limit
  | command _ c hc ih => exact ih.command hc
  | slot _ _ hs ih => exact ih.slot hs

/-- However an arena is used with the references that it hands out, all slots of its nodes refer to
nodes and no path through them comes back to where it began, also among what was left by commands
that halted. So the node of a reference that was handed out is there, its items are found, it is
printed, compared with what any other arena handed out and written as a document, and no command
that is given such references meets a fault. -/
theorem closed_and_acyclic (h : Session a handed) :
    (∀ r s, a.Points r s → (a.get? s).isSome) ∧ (∀ r, ¬ Relation.TransGen a.Points r r) ∧
      (∀ r ∈ handed, (∃ node, a.get r = .ok node) ∧ (∃ items, a.items r = .ok items) ∧
        (∃ text, a.print r = .ok text) ∧
        (∀ b others, Session b others → ∀ s ∈ others, ∃ same, a.equal r b s = .ok same) ∧
        ∀ (σ : Type) (sink : Sink σ) (state : σ) (f : Fault),
          (Document.writeAll sink state a r).result ≠ .error (.fault f)) ∧
      ∀ c : Command, (∀ r ∈ c.arguments, r ∈ handed) →
        ∀ f, (c.run a).answer ≠ .error (.fault f) := by
  have hsafe := h.safe
  refine ⟨fun r s => hsafe.grounded.isSome_of_points, hsafe.grounded.acyclic, fun r hr => ?_,
    fun c hc f hf => ?_⟩
  · rcases hsafe.grounded.exists_unfolds (hsafe.present r hr) with ⟨t, ht⟩
    rcases Option.isSome_iff_exists.1 ht.get?_isSome with ⟨node, hnode⟩
    rcases Arena.items_eq ht with ⟨items, hitems, _⟩
    refine ⟨⟨node, Arena.get_eq_ok hnode⟩, ⟨items, hitems⟩, ⟨_, Arena.print_eq ht⟩,
      fun b others hb s hs => ?_, fun σ sink state f => ?_⟩
    · rcases hb.safe.grounded.exists_unfolds (hb.safe.present s hs) with ⟨u, hu⟩
      exact ⟨_, Arena.equal_eq ht hu⟩
    · exact Document.writeAll_ne_fault ht sink state f
  · by_cases hclear : c = .clear
    · subst hclear
      cases hf
    · have hfault := ((Command.keeps_run hsafe.inLimit hclear).fault f hf).2
      exact hfault ⟨hsafe.grounded, fun r hr => hsafe.present r (hc r hr)⟩

/-- The room runs out while a list is built, of which two cells are left. -/
theorem closed_and_acyclic_half_built_list :
    Session ⟨#[.integer 7, .pair ⟨1⟩ ⟨3⟩, .pair ⟨1⟩ Ref.nil], some 3⟩ [⟨1⟩, Ref.nil] ∧
      ((Arena.mk #[.integer 7, .pair ⟨1⟩ ⟨3⟩, .pair ⟨1⟩ Ref.nil] (some 3)).get? ⟨3⟩).isSome ∧
      ¬ Relation.TransGen (Arena.mk #[.integer 7, .pair ⟨1⟩ ⟨3⟩, .pair ⟨1⟩ Ref.nil] (some 3)).Points
        ⟨2⟩ ⟨2⟩ ∧
      ∃ text, (Arena.mk #[.integer 7, .pair ⟨1⟩ ⟨3⟩, .pair ⟨1⟩ Ref.nil] (some 3)).print ⟨1⟩ =
        .ok text := by
  have hsession : Session ⟨#[.integer 7, .pair ⟨1⟩ ⟨3⟩, .pair ⟨1⟩ Ref.nil], some 3⟩
      [⟨1⟩, Ref.nil] :=
    ((Session.start (some 3)).command (.integer 7) (by simp [Command.arguments])).command
      (.list [⟨1⟩, ⟨1⟩, ⟨1⟩]) (by decide)
  rcases hsession.closed_and_acyclic with ⟨hclosed, hacyclic, hhanded, _⟩
  refine ⟨hsession, hclosed ⟨2⟩ ⟨3⟩ ⟨.pair ⟨1⟩ ⟨3⟩, rfl, by decide⟩, hacyclic ⟨2⟩, ?_⟩
  exact (hhanded ⟨1⟩ (by decide)).2.2.1

end Session

end Sexpr
