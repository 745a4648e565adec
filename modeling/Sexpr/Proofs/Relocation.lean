import Sexpr.Proofs.Simulation

/-! # Parses in arenas with other nodes

What a parse does in an arena does not depend on the nodes that the arena has. It comes to the same
nodes as in an empty arena with as much room, with all references to them moved by the number of
nodes before, and it fails where it fails there.
-/

namespace Sexpr

/-- Both sides come to the same reference, moved on one of them, or both fail for the same cause at
tokens that belong together. -/
inductive Ref.Alike (n : Nat) (R : Token → Token → Prop) :
    Except (Halt Blame) Ref → Except (Halt Blame) Ref → Prop
  | ok (r : Ref) : Alike n R (.ok r) (.ok (r.shift n))
  | error {e e'} (h : e.Alike (Blame.Alike R) e') : Alike n R (.error e) (.error e')

namespace Parser

structure Run.Alike (a : Arena) (R : Token → Token → Prop) (r r' : Run) : Prop where
  result : Ref.Alike a.size R r.result r'.result
  arena : r'.arena = a.above r.arena
  pulled : List.Forall₂ R r.pulled r'.pulled

variable {a c : Arena} {R : Token → Token → Prop} {ts ts' : List Token} {eof eof' : Token}

theorem finish_alike {s s' : Stack} (hs : s.Alike a.size R s') (heof : R eof eof') :
    Ref.Alike a.size R (s.finish eof) (s'.finish eof') := by
  rcases s with ⟨frames, forms⟩
  rcases s' with ⟨frames', _⟩
  rcases hs with ⟨hframes, rfl⟩
  cases hframes with
  | nil => exact .ok forms.head
  | cons _ _ => exact .error (.failure ⟨rfl, heof⟩)

theorem run_alike (hR : ∀ t t', R t t' → t.signature = t'.signature) (d : Nat)
    (hts : List.Forall₂ R ts ts') (heof : R eof eof') {s s' : Stack}
    (hs : s.Alike a.size R s') (hc : c.capacity = a.room) :
    Run.Alike a R (run d eof ts s c) (run d eof' ts' s' (a.above c)) := by
  induction hts generalizing s s' c with
  | nil => exact ⟨finish_alike hs heof, rfl, .cons heof .nil⟩
  | cons ht hts ih =>
    have hstep := Stack.step_alike hR hs d ht c hc
    generalize hsc : s.step d _ c = rs, hsc' : s'.step d _ (a.above c) = rs' at hstep
    cases hstep with
    | ok hd hnext =>
      rw [run_of_ok hsc, run_of_ok hsc']
      rcases ih hnext hd with ⟨hresult, harena, hpulled⟩
      exact ⟨hresult, harena, .cons ht hpulled⟩
    | error hd he =>
      rw [run_of_error hsc, run_of_error hsc']
      exact ⟨.error he, rfl, .cons ht .nil⟩

end Parser

section Parse

variable {R : Token → Token → Prop} {u v : Bytes}

/-- Outcomes of two texts: the same reference, moved on one side, or failures for the same cause at
tokens that belong together. -/
inductive Parsed.Alike (n : Nat) (R : Token → Token → Prop) (u v : Bytes) :
    Except (Halt ParseFailure) Ref → Except (Halt ParseFailure) Ref → Prop
  | ok (r : Ref) : Alike n R u v (.ok r) (.ok (r.shift n))
  | error (c : Cause) {t t'} (h : R t t') : Alike n R u v
      (.error (.failure (Blame.locate u ⟨c, t⟩))) (.error (.failure (Blame.locate v ⟨c, t'⟩)))

/-- Two texts of which the tokens belong together come to the same, one in an arena and the other in
an empty one with as much room. There are no faults, for there are none in an empty arena. -/
theorem parse_alike (hR : ∀ t t', R t t' → t.signature = t'.signature)
    (hall : List.Forall₂ R (Token.all u) (Token.all v)) (heof : R (Token.eof u) (Token.eof v))
    (a : Arena) (maxDepth : Nat) :
    Parsed.Alike a.size R u v (parse u a.fresh maxDepth).result (parse v a maxDepth).result ∧
      (parse v a maxDepth).arena = a.above (parse u a.fresh maxDepth).arena ∧
      List.Forall₂ R (parse u a.fresh maxDepth).pulled (parse v a maxDepth).pulled := by
  have hempty := a.capacity_fresh
  have hs : Stack.Alike a.size R {} {} := ⟨.nil, rfl⟩
  have hrun := Parser.run_alike hR maxDepth hall heof hs hempty
  rw [a.above_fresh] at hrun
  have hleaves := (parse_leaves (a := a.fresh) (Arena.inLimit_new _) u maxDepth).2.2.2
  simp only [parse] at hleaves ⊢
  rcases hrun with ⟨hresult, harena, hpulled⟩
  refine ⟨?_, harena, hpulled⟩
  generalize (Parser.run maxDepth (Token.eof u) (Token.all u) {} a.fresh).result = r
    at hresult hleaves
  generalize (Parser.run maxDepth (Token.eof v) (Token.all v) {} a).result = r' at hresult
  cases hresult with
  | ok r => exact .ok r
  | error h =>
    cases h with
    | @failure b b' h =>
      rcases b with ⟨c, t⟩
      rcases b' with ⟨_, t'⟩
      rcases h with ⟨rfl, ht⟩
      exact .error c ht
    | fault f f' =>
      rcases hleaves _ rfl with ⟨e, he, _⟩
      cases he

theorem parse_above (input : Bytes) (a : Arena) (maxDepth : Nat) :
    Parsed.Alike a.size Eq input input (parse input a.fresh maxDepth).result
        (parse input a maxDepth).result ∧
      (parse input a maxDepth).arena = a.above (parse input a.fresh maxDepth).arena ∧
      (parse input a maxDepth).pulled = (parse input a.fresh maxDepth).pulled := by
  have hall : List.Forall₂ Eq (Token.all input) (Token.all input) := List.forall₂_eq_eq_eq ▸ rfl
  rcases parse_alike (fun _ _ => congrArg Token.signature) hall rfl a maxDepth with
    ⟨hresult, harena, hpulled⟩
  rw [List.forall₂_eq_eq_eq] at hpulled
  exact ⟨hresult, harena, hpulled.symm⟩

end Parse

/-- A parse in an arena does what another one does in an empty arena, behind the nodes that the
first arena has. -/
structure Parsed.Relocates (a : Arena) (fresh p : Parsed) : Prop where
  keeps : ∀ r, r.index ≤ a.size → p.arena.get? r = a.get? r
  arena : p.arena = a.extend (fresh.arena.nodes.toList.map (Node.shift a.size))
  result : p.result = fresh.result.map (Ref.shift a.size)
  pulled : p.pulled = fresh.pulled
  failure : ∀ halt, fresh.result = .error halt → ∃ e, halt = .failure e

theorem relocates_fresh (input : Bytes) (a : Arena) (maxDepth : Nat) :
    (parse input a.fresh maxDepth).Relocates a (parse input a maxDepth) := by
  rcases parse_above input a maxDepth with ⟨hresult, harena, hpulled⟩
  have hkeeps (r : Ref) (hr : r.index ≤ a.size) :
      (parse input a maxDepth).arena.get? r = a.get? r := by
    rcases Option.isSome_iff_exists.1 (Arena.get?_isSome_iff.2 hr) with ⟨node, hnode⟩
    rw [harena, hnode]
    exact Arena.get?_extend_of_some hnode
  refine ⟨hkeeps, harena, ?_, hpulled, fun halt hhalt => ?_⟩
  all_goals
    generalize (parse input a maxDepth).result = r' at hresult ⊢
    generalize (parse input a.fresh maxDepth).result = r at *
  · cases hresult with
    | ok r => rfl
    | error c ht =>
      subst ht
      rfl
  · cases hresult <;> cases hhalt
    exact ⟨_, rfl⟩

/-- A parse that comes to few enough nodes in an empty arena is the same with a lower limit. -/
theorem parse_empty_lower (input : Bytes) (d : Nat) {limit : Option Nat} {most : Nat}
    (hmost : most ≤ ({ limit := limit } : Arena).capacity)
    (hsize : (parse input { limit := limit } d).arena.size ≤ most) :
    let p := parse input { limit := limit } d
    let lower := parse input { limit := some most } d
    lower.result = p.result ∧ lower.arena.nodes = p.arena.nodes ∧ lower.pulled = p.pulled := by
  intro p lower
  have hfree (n : Nat) := parse_limitedTo input (a := {}) rfl d (Nat.zero_le n)
  have hlower (hle : (parse input {} d).arena.size ≤ most) :
      lower = { parse input {} d with arena := (parse input {} d).arena.limitedTo most } :=
    (hfree most).1 hle
  cases limit with
  | none =>
    rw [hlower hsize]
    exact ⟨rfl, rfl, rfl⟩
  | some n =>
    by_cases hfits : (parse input {} d).arena.size ≤ n
    · have hp : p = { parse input {} d with arena := (parse input {} d).arena.limitedTo n } :=
        (hfree n).1 hfits
      change p.arena.size ≤ most at hsize
      rw [hp] at hsize ⊢
      rw [hlower hsize]
      exact ⟨rfl, rfl, rfl⟩
    · rcases (hfree n).2 (Nat.not_le.1 hfits) with ⟨_, _, _, hfull⟩
      have hle := hmost.trans (Arena.capacity_le_limit rfl)
      have hn : n = most := Nat.le_antisymm (hfull.symm.trans_le hsize) hle
      subst hn
      exact ⟨rfl, rfl, rfl⟩

/-- A parse makes nothing of the nodes that an arena has. It leaves them as they are and puts behind
them the nodes of a parse into an empty arena with as much room, each reference to a node moved by
the number of nodes before. So is the result, and where one parse fails, the other fails in the same
way. An empty arena without a limit, or with the limit less the number of nodes before, will do for
all parses that come to no more nodes than can have numbers behind these. -/
theorem parse_relocates (input : Bytes) (a : Arena) (maxDepth : Nat) :
    (parse input { limit := some a.room } maxDepth).Relocates a (parse input a maxDepth) ∧
      let fresh := parse input { limit := a.limit.map (· - a.size) } maxDepth
      a.size + fresh.arena.size ≤ Arena.mostNodes → fresh.Relocates a (parse input a maxDepth) := by
  have hfresh := relocates_fresh input a maxDepth
  refine ⟨hfresh, ?_⟩
  intro fresh hsize
  have hleaves := parse_leaves (Arena.inLimit_new (a.limit.map (· - a.size))) input maxDepth
  have hin : fresh.arena.size ≤ fresh.arena.capacity :=
    hleaves.1.inLimit (Arena.inLimit_new _)
  have hcapacity : fresh.arena.capacity =
      ({ limit := a.limit.map (· - a.size) } : Arena).capacity := by
    rcases hleaves.1.adds with ⟨nodes, hnodes⟩
    exact (congrArg Arena.capacity hnodes).trans (Arena.capacity_extend _ nodes)
  have hroom : a.room ≤ ({ limit := a.limit.map (· - a.size) } : Arena).capacity ∧
      fresh.arena.size ≤ a.room := by
    rw [hcapacity] at hin
    rw [Arena.capacity] at hin
    rw [Arena.room, Arena.capacity, Arena.capacity]
    cases hlimit : a.limit with
    | none =>
      simp only [hlimit, Option.map_none, Option.getD_none, Nat.min_self] at hin ⊢
      omega
    | some most =>
      simp only [hlimit, Option.map_some, Option.getD_some] at hin ⊢
      omega
  rcases parse_empty_lower input maxDepth hroom.1 hroom.2 with ⟨hresult, hnodes, hpulled⟩
  refine ⟨hfresh.keeps, ?_, ?_, ?_, ?_⟩
  · exact hnodes ▸ hfresh.arena
  · exact hresult ▸ hfresh.result
  · exact hpulled ▸ hfresh.pulled
  · exact hresult ▸ hfresh.failure

/-- A dangling leftover does not matter, and there is room for three nodes of `(a b)` behind it. -/
theorem parse_relocates_behind_leftover :
    (parse [40, 97, 32, 98, 41] ⟨#[.pair ⟨9⟩ ⟨1⟩], some 4⟩ 1).arena.nodes =
        #[.pair ⟨9⟩ ⟨1⟩, .symbol "a", .pair ⟨2⟩ Ref.nil, .symbol "b"] ∧
      (parse [40, 97, 32, 98, 41] ⟨#[.pair ⟨9⟩ ⟨1⟩], some 4⟩ 1).result =
        .error (.failure ⟨.outOfMemory, "b", 3, ⟨0, 3⟩⟩) := by
  have hall : Token.all [40, 97, 32, 98, 41] =
      [⟨.leftParen, [40], 0⟩, ⟨.symbol, [97], 1⟩, ⟨.symbol, [98], 3⟩, ⟨.rightParen, [41], 4⟩] :=
    Lexes.iff_eq_all.1 (.token rfl rfl (.token rfl rfl (.blank rfl (.token rfl rfl
      (.token rfl rfl .done)))))
  have hfresh : parse [40, 97, 32, 98, 41] { limit := some 3 } 1 =
      ⟨.error (.failure ⟨.outOfMemory, "b", 3, ⟨0, 3⟩⟩),
        ⟨#[.symbol "a", .pair ⟨1⟩ Ref.nil, .symbol "b"], some 3⟩,
        [⟨.leftParen, [40], 0⟩, ⟨.symbol, [97], 1⟩, ⟨.symbol, [98], 3⟩]⟩ := by
    rw [parse, hall]
    rfl
  have hsize : 1 + (parse [40, 97, 32, 98, 41] { limit := some 3 } 1).arena.size ≤
      Arena.mostNodes := by
    rw [hfresh]
    decide
  have hrelocates := (parse_relocates [40, 97, 32, 98, 41] ⟨#[.pair ⟨9⟩ ⟨1⟩], some 4⟩ 1).2 hsize
  change (parse [40, 97, 32, 98, 41] { limit := some 3 } 1).Relocates _ _ at hrelocates
  rw [hfresh] at hrelocates
  rw [hrelocates.arena, hrelocates.result]
  exact ⟨rfl, rfl⟩

end Sexpr
