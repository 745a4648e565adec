import Sexpr.Proofs.Leftover

/-! # Commands to an arena

An arena is changed by commands, each of which is given references and may be given any, also such
as no node answers to. Commands follow one another whether they succeed or halt. What one of them
does follows from what it builds, and what a row of them does by induction.
-/

namespace Sexpr

inductive Command
  | pair (first rest : Ref)
  | string (contents : Bytes)
  | symbol (name : String)
  | integer (value : Int64)
  | list (items : List Ref)
  | couple (x y : Ref)
  | dump (r : Ref)
  | dumpForms (forms : Ref)
  | parse (input : Bytes) (maxDepth : Nat)
  | clear
deriving DecidableEq

namespace Command

/-- Failure of which the user of an arena is told. -/
inductive Failure
  | exhausted (error : Exhausted)
  | unreadable (error : ParseFailure)
deriving DecidableEq

structure Outcome where
  answer : Except (Halt Failure) (Option Ref)
  arena : Arena

def Outcome.ofBuild : EStateM.Result (Halt Exhausted) Arena Ref → Outcome
  | .ok r b => ⟨.ok (some r), b⟩
  | .error halt b => ⟨.error (halt.map .exhausted), b⟩

def Outcome.ofParsed (p : Parsed) : Outcome :=
  ⟨(p.result.map some).mapError (Halt.map .unreadable), p.arena⟩

def run (a : Arena) : Command → Outcome
  | pair first rest => .ofBuild (Arena.pair first rest a)
  | string contents => .ofBuild (Arena.string contents a)
  | symbol name => .ofBuild (Arena.symbol name a)
  | integer value => .ofBuild (Arena.integer value a)
  | list items => .ofBuild (Arena.list items a)
  | couple x y => .ofBuild (Arena.couple x y a)
  | dump r => .ofBuild (Arena.dump r a)
  | dumpForms forms => .ofBuild (Arena.dumpForms forms a)
  | parse input maxDepth => .ofParsed (Sexpr.parse input a maxDepth)
  | clear => ⟨.ok none, a.clear⟩

def arguments : Command → List Ref
  | pair first rest => [first, rest]
  | list items => items
  | couple x y => [x, y]
  | dump r => [r]
  | dumpForms forms => [forms]
  | _ => []

/-- Arena after some commands in a row, whether they succeed or halt. -/
def runAll (commands : List Command) (a : Arena) : Arena :=
  commands.foldl (fun a c => (c.run a).arena) a

def answers : List Command → Arena → List (Except (Halt Failure) (Option Ref))
  | [], _ => []
  | c :: commands, a => (c.run a).answer :: answers commands (c.run a).arena

/-- Where room is lacking, an arena has as many nodes as are allowed. -/
def Failure.Tells (b : Arena) : Failure → Prop
  | exhausted e => b.capacity = b.size ∧ e.count = b.size
  | unreadable e => e.cause = .outOfMemory → b.capacity = b.size

/-- A command only adds nodes, and its answer is a new reference or tells of the arena that is left.
Where the command is properly used, all nodes keep standing for trees and there is no fault. -/
structure Keeps (proper : Prop) (a : Arena) (o : Outcome) : Prop where
  grows : a.GrowsTo o.arena
  grounded : proper → o.arena.Grounded
  made : ∀ r, o.answer = .ok (some r) → r = Ref.nil ∧ o.arena = a ∨ a.Fresh r o.arena
  failure : ∀ e, o.answer = .error (.failure e) → e.Tells o.arena
  fault : ∀ f, o.answer = .error (.fault f) → f.Tells o.arena ∧ ¬ proper

variable {a b : Arena} {p : Prop}

theorem Keeps.of_builds {x : Build Ref} (h : Builds p x a fun r b =>
    r = Ref.nil ∧ b = a ∨ a.Fresh r b) : Keeps p a (.ofBuild (x a)) := by
  unfold Builds at h
  split at h
  · rename_i r b hx
    rw [hx]
    refine ⟨h.1, h.2.1, fun s hs => ?_, nofun, nofun⟩
    cases hs
    exact h.2.2
  · rename_i halt b hx
    rw [hx]
    rcases h with ⟨hgrows, hgrounded, htells, hproper⟩
    cases halt with
    | failure e =>
      refine ⟨hgrows, hgrounded, nofun, fun e' he' => ?_, nofun⟩
      cases he'
      exact htells
    | fault f =>
      refine ⟨hgrows, hgrounded, nofun, nofun, fun f' hf' => ?_⟩
      cases hf'
      refine ⟨htells, fun hp => ?_⟩
      rcases hproper hp with ⟨e, he⟩
      cases he

theorem Keeps.of_fresh {x : Build Ref} (h : Builds p x a a.Fresh) : Keeps p a (.ofBuild (x a)) :=
  .of_builds (h.mono id fun _ _ _ => .inr)

theorem keeps_parse (ha : a.InLimit) (hgrounded : p → a.Grounded) (input : Bytes)
    (maxDepth : Nat) : Keeps p a ((parse input maxDepth).run a) := by
  have hleaves := parse_leaves ha input maxDepth
  rw [run]
  rcases hparse : Sexpr.parse input a maxDepth with ⟨result, b, pulled⟩
  rw [hparse] at hleaves
  rcases hleaves with ⟨hgrows, hgrounded', hok, herror⟩
  cases result with
  | ok r =>
    refine ⟨hgrows, hgrounded' ∘ hgrounded, fun s hs => ?_, nofun, nofun⟩
    cases hs
    exact hok r rfl
  | error halt =>
    rcases herror halt rfl with ⟨e, rfl, htells⟩
    refine ⟨hgrows, hgrounded' ∘ hgrounded, nofun, fun e' he' => ?_, nofun⟩
    cases he'
    exact htells

/-- Every command but one keeps the nodes. It is properly used if all nodes stand for trees and all
references that it is given are to nodes. -/
theorem keeps_run (ha : a.InLimit) {c : Command} (hc : c ≠ clear) :
    Keeps (a.Grounded ∧ ∀ r ∈ c.arguments, r.index ≤ a.size) a (c.run a) := by
  cases c with
  | pair first rest => exact .of_fresh (.alloc ha And.left _ And.right)
  | string contents => exact .of_fresh (.alloc ha And.left _ And.right)
  | symbol name => exact .of_fresh (.alloc ha And.left _ And.right)
  | integer value => exact .of_fresh (.alloc ha And.left _ And.right)
  | list items =>
    refine .of_builds ((Builds.list ha And.left And.right).mono id fun r b _ hr => ?_)
    exact hr.imp And.right And.right
  | couple x y =>
    exact .of_fresh (Arena.builds_couple ha And.left (fun hp => hp.2 x (by simp [arguments]))
      fun hp => hp.2 y (by simp [arguments]))
  | dump r =>
    exact .of_fresh ((Arena.builds_dump ha r).mono (fun hp => ⟨hp.1, hp.2 r (by simp [arguments])⟩)
      fun _ _ _ => id)
  | dumpForms forms =>
    exact .of_builds ((Arena.builds_dumpForms ha forms).mono
      (fun hp => ⟨hp.1, hp.2 forms (by simp [arguments])⟩) fun _ _ _ => id)
  | parse input maxDepth => exact keeps_parse ha And.left input maxDepth
  | clear => exact absurd rfl hc

/-- Whatever an arena is used for, it does not come to more nodes than are allowed, and what is
allowed does not change. -/
theorem runAll_inLimit (commands : List Command) (ha : a.InLimit) :
    (runAll commands a).InLimit ∧ (runAll commands a).limit = a.limit := by
  induction commands generalizing a with
  | nil => exact ⟨ha, rfl⟩
  | cons c commands ih =>
    have hc : (c.run a).arena.InLimit ∧ (c.run a).arena.limit = a.limit := by
      by_cases hclear : c = clear
      · subst hclear
        exact ⟨Arena.inLimit_new a.limit, rfl⟩
      · have hgrows := (keeps_run ha hclear).grows
        rcases hgrows.adds with ⟨nodes, hnodes⟩
        refine ⟨hgrows.inLimit ha, ?_⟩
        rw [hnodes, Arena.limit_extend]
    have hrest := ih hc.1
    exact ⟨hrest.1, hrest.2.trans hc.2⟩

theorem runAll_growsTo {commands : List Command} (ha : a.InLimit) (h : clear ∉ commands) :
    a.GrowsTo (runAll commands a) := by
  induction commands generalizing a with
  | nil => exact .refl a
  | cons c commands ih =>
    rw [List.mem_cons, not_or] at h
    have hgrows := (keeps_run ha (Ne.symm h.1)).grows
    exact hgrows.trans (ih (hgrows.inLimit ha) h.2)

theorem answers_append (commands later : List Command) (a : Arena) :
    answers (commands ++ later) a = answers commands a ++ answers later (runAll commands a) := by
  induction commands generalizing a with
  | nil => rfl
  | cons c commands ih => exact congrArg _ (ih _)

theorem runAll_append (commands later : List Command) (a : Arena) :
    runAll (commands ++ later) a = runAll later (runAll commands a) := List.foldl_append

theorem clear_runAll (before : List Command) (limit : Option Nat) :
    (runAll before { limit := limit }).clear = { limit := limit } :=
  congrArg (Arena.mk #[]) (runAll_inLimit before (Arena.inLimit_new limit)).2

theorem alloc_inLimit (ha : a.InLimit) (node : Node) :
    (a.capacity = a.size ∧ Arena.alloc node a = .error (.failure ⟨a.size⟩) a) ∨
    (¬ a.capacity = a.size ∧
      ∃ r, r ≠ Ref.nil ∧ Arena.alloc node a = .ok r (a.extend [node])) := by
  cases hfull : a.isFull with
  | true => exact .inl ⟨ha.capacity_eq hfull, Arena.alloc_of_full hfull node⟩
  | false =>
    refine .inr ⟨fun hcapacity => ?_, ⟨a.size + 1⟩, by simp [Ref.nil],
      Arena.alloc_of_room hfull node⟩
    cases hfull.symm.trans (Arena.isFull_iff.2 hcapacity.le)

/-- Nodes that an arena has are not changed by commands, whatever references these and the commands
before were given, and whether they succeed or halt. The empty list stays where it is and is never
what was allocated, there are no more nodes than are allowed, and nodes are only added unless the
arena is cleared, which makes it a new one. An allocation fails exactly if there are as many nodes
as the limit allows or as can have numbers, a command halts for lack of room only then, and with a
fault only if a reference dangles or leads on without end. -/
theorem run_keeps_nodes (limit : Option Nat) (before : List Command) (c : Command) :
    let a := runAll before { limit := limit }
    let o := c.run a
    o.arena.get? Ref.nil = some .nil ∧
      o.arena.limit = limit ∧ (∀ most, limit = some most → o.arena.size ≤ most) ∧
      o.arena.size ≤ Arena.mostNodes ∧
      (∀ node, ((limit = some o.arena.size ∨ o.arena.size = Arena.mostNodes) ∧
          Arena.alloc node o.arena = .error (.failure ⟨o.arena.size⟩) o.arena) ∨
        (¬ (limit = some o.arena.size ∨ o.arena.size = Arena.mostNodes) ∧
          ∃ r, r ≠ Ref.nil ∧ Arena.alloc node o.arena = .ok r (o.arena.extend [node]))) ∧
      (c ≠ clear → ∃ nodes, o.arena = a.extend nodes) ∧
      (∀ r, o.answer = .ok (some r) → r = Ref.nil ∧ o.arena = a ∨
        r ≠ Ref.nil ∧ a.get? r = none ∧ (o.arena.get? r).isSome) ∧
      (∀ f, o.answer = .error (.fault f) →
        ∃ r, f = .dangling r ∧ o.arena.get? r = none ∨ f = .endless r) ∧
      (∀ e, o.answer = .error (.failure (.exhausted e)) →
        (limit = some o.arena.size ∨ o.arena.size = Arena.mostNodes) ∧ e.count = o.arena.size) ∧
      (∀ e, o.answer = .error (.failure (.unreadable e)) → e.cause = .outOfMemory →
        limit = some o.arena.size ∨ o.arena.size = Arena.mostNodes) ∧
      ∀ later, (clear ∉ later → ∃ nodes, runAll later o.arena = o.arena.extend nodes) ∧
        runAll (before ++ clear :: later) { limit := limit } = runAll later { limit := limit } ∧
        answers (before ++ clear :: later) { limit := limit } =
          answers before { limit := limit } ++ .ok none :: answers later { limit := limit } := by
  intro a o
  have ha : a.InLimit ∧ a.limit = limit := runAll_inLimit before (Arena.inLimit_new limit)
  have ho : o.arena.InLimit ∧ o.arena.limit = limit := by
    have hall := runAll_inLimit (before ++ [c]) (Arena.inLimit_new limit)
    rwa [runAll_append] at hall
  have hlater (later : List Command) :
      (clear ∉ later → ∃ nodes, runAll later o.arena = o.arena.extend nodes) ∧
        runAll (before ++ clear :: later) { limit := limit } = runAll later { limit := limit } ∧
        answers (before ++ clear :: later) { limit := limit } =
          answers before { limit := limit } ++ .ok none :: answers later { limit := limit } := by
    refine ⟨fun h => (runAll_growsTo ho.1 h).adds, ?_, ?_⟩
    · rw [runAll_append]
      exact congrArg (runAll later) (clear_runAll before limit)
    · rw [answers_append]
      exact congrArg (fun b => answers before { limit := limit } ++ .ok none :: answers later b)
        (clear_runAll before limit)
  have hcapacity := ho.1.capacity_eq_iff
  rw [ho.2] at hcapacity
  rw [← hcapacity]
  refine ⟨rfl, ho.2, fun most h => ho.1.trans (Arena.capacity_le_limit (ho.2.trans h)),
    ho.1.trans (Arena.capacity_le_mostNodes _), alloc_inLimit ho.1, ?_⟩
  by_cases hc : c = clear
  · subst hc
    refine ⟨fun h => absurd rfl h, ?_, nofun, nofun, nofun, hlater⟩
    intro r hr
    cases hr
  · rcases keeps_run ha.1 hc with ⟨hgrows, _, hmade, hfailure, hfault⟩
    refine ⟨fun _ => hgrows.adds, fun r hr => ?_, fun f hf => ?_, fun e he => ?_, fun e he => ?_,
      hlater⟩
    · exact (hmade r hr).imp_right Arena.Fresh.of_new
    · have htells := (hfault f hf).1
      cases f with
      | dangling r => exact ⟨r, .inl ⟨rfl, htells⟩⟩
      | endless r => exact ⟨r, .inr rfl⟩
      | _ => exact htells.elim
    · exact hfailure _ he
    · exact hfailure _ he

/-- A cell that was made to lead to itself stays, but a dump of it has no end. -/
example : answers [pair ⟨1⟩ ⟨1⟩, dump ⟨1⟩, dump ⟨2⟩] {} =
    [.ok (some ⟨1⟩), .error (.fault (.endless ⟨1⟩)), .error (.fault (.dangling ⟨2⟩))] := rfl

end Command

end Sexpr
