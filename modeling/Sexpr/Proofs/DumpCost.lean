import Sexpr.Cli.Run
import Sexpr.Proofs.Dump
import Sexpr.Proofs.Faultless
import Sexpr.Proofs.TreeText

/-! # Dumps and the limit of an arena

A dump succeeds exactly if the nodes that it takes fit into the arena. If they do not fit, the arena
is full when it fails, wherever in the value that happens. In either case the value is what it was.
So a run that dumps a text succeeds exactly if the parse and the dumps fit into the limit together,
and it prints nothing if they do not.
-/

namespace Sexpr

namespace Arena

/-- The second arena has the nodes of the first, and a value is written and compared alike in
both. -/
structure Preserves (a b : Arena) (v : Ref) : Prop where
  nodes : ∀ r node, a.get? r = some node → b.get? r = some node
  text : b.print v = a.print v
  equal : ∀ w, a.Sound w → b.equal v b w = a.equal v a w ∧ b.equal w b v = a.equal w a v
  equalElsewhere : ∀ c w, c.Sound w → b.equal v c w = a.equal v c w ∧
    c.equal w b v = c.equal w a v

variable {a : Arena} {v : Ref} {t : Tree}

theorem preserves_extend (h : a.Unfolds v t) (nodes : List Node) :
    a.Preserves (a.extend nodes) v where
  nodes _ _ hnode := get?_extend_of_some hnode
  text := by rw [print_eq h, print_eq (h.extend nodes)]
  equal w hw := by
    rcases hw.exists_unfolds with ⟨u, hu⟩
    rw [equal_eq h hu, equal_eq hu h, equal_eq (h.extend nodes) (hu.extend nodes),
      equal_eq (hu.extend nodes) (h.extend nodes)]
    exact ⟨rfl, rfl⟩
  equalElsewhere c w hw := by
    rcases hw.exists_unfolds with ⟨u, hu⟩
    rw [equal_eq h hu, equal_eq hu h, equal_eq (h.extend nodes) hu, equal_eq hu (h.extend nodes)]
    exact ⟨rfl, rfl⟩

/-- Whatever a computation comes to that takes a number of nodes, a value stays what it was. -/
theorem Takes.preserves {x : Build Ref} {n : Nat} {made : Ref → Arena → Prop}
    (hx : Takes n x a made) (ha : a.InLimit) (h : a.Unfolds v t) :
    ∃ nodes, a.Preserves (a.extend nodes) v ∧
      (a.size + n ≤ a.capacity →
        nodes.length = n ∧ ∃ d, x a = .ok d (a.extend nodes) ∧ made d (a.extend nodes)) ∧
      (a.capacity < a.size + n →
        x a = .error (.failure ⟨a.capacity⟩) (a.extend nodes) ∧
          (a.extend nodes).size = a.capacity) := by
  rw [← Nat.not_le, ← ha.hasRoom_iff]
  by_cases hroom : a.HasRoom n
  · rcases hx.fits hroom with ⟨d, nodes, hok, hlength, hmade⟩
    exact ⟨nodes, preserves_extend h nodes, fun _ => ⟨hlength, d, hok, hmade⟩,
      fun hlack => absurd hroom hlack⟩
  · rcases hx.fills hroom with ⟨nodes, hfull, herror⟩
    rw [← hfull] at herror
    exact ⟨nodes, preserves_extend h nodes, fun hfits => absurd hfits hroom,
      fun _ => ⟨herror, hfull.symm⟩⟩

end Arena

namespace Cli

variable {o : Options} {input : Bytes} {r : Ref} {t : Tree}

theorem run_of_parse_error {e : ParseFailure} (hast : o.ast = true)
    (h : (parse input { limit := o.maxNodes }).result = .error (.failure e)) :
    ∃ message, run o (.ok input) = .ok (.failure [] message) := by
  refine ⟨LocatedError.message ⟨.parse e, o.source⟩, ?_⟩
  simp [run, hast, tree, Document.ofContents, Document.locate, h, Except.mapError, Halt.map]

theorem run_of_dump_error {b : Arena} {e : Exhausted} (hast : o.ast = true) (hdump : o.dump = true)
    (h : (parse input { limit := o.maxNodes }).result = .ok r)
    (hforms : Arena.dumpForms r (parse input { limit := o.maxNodes }).arena =
      .error (.failure e) b) : run o (.ok input) = .ok (.failure [] e.message) := by
  simp [run, hast, tree, Document.ofContents, Document.locate, h, Except.mapError, hdump, hforms,
    Halt.map]

theorem run_of_dump {b : Arena} {d : Ref} (hast : o.ast = true) (hdump : o.dump = true)
    (h : (parse input { limit := o.maxNodes }).result = .ok r)
    (hforms : Arena.dumpForms r (parse input { limit := o.maxNodes }).arena = .ok d b)
    (ht : b.Unfolds d t) :
    run o (.ok input) = .ok (.success (Tree.documentText t.elements)) := by
  have htext := Arena.complete_renderForms ht
  simp [run, hast, tree, Document.ofContents, Document.locate, h, Except.mapError, hdump, hforms,
    showTree, htext]

/-- The nodes of the parse and those of the dumps have to fit into the limit together. -/
theorem run_dump_limited {most : Nat} (hast : o.ast = true) (hdump : o.dump = true)
    (hlimit : o.maxNodes = some most) (hr : (parse input {}).result = .ok r) :
    ∃ t, (parse input {}).arena.Unfolds r t ∧
      let needed := (parse input {}).arena.size +
        (t.elements.length + (t.elements.map Tree.dumpCost).sum)
      (needed ≤ min most Arena.mostNodes →
        run o (.ok input) = .ok (.success (Tree.documentText (t.elements.map Tree.dump)))) ∧
      (min most Arena.mostNodes < needed →
        ∃ message, run o (.ok input) = .ok (.failure [] message)) := by
  rcases parse_eq_ok_iff.1 hr with ⟨forms, hread, hroom, rfl⟩
  have hsize : (parse input {}).arena.size = Form.listSize forms :=
    (size_parse hread hroom).trans (Nat.zero_add _)
  have hcapacity : ({ limit := o.maxNodes } : Arena).capacity = min most Arena.mostNodes := by
    rw [hlimit]
    rfl
  have hnew := Arena.inLimit_new o.maxNodes
  refine ⟨Form.listTree forms, unfolds_parse hread hroom, ?_⟩
  rw [hsize, ← hcapacity]
  by_cases hfits : ({ limit := o.maxNodes } : Arena).HasRoom (Form.listSize forms)
  · have hresult := (parse_eq_ok_iff (r := Form.listRef 0 Ref.nil forms)).2
      ⟨forms, hread, hfits, rfl⟩
    have hparse := arena_parse hread hfits
    have ht := unfolds_parse hread hfits
    have hin : (parse input { limit := o.maxNodes }).arena.InLimit := by
      rw [hparse]
      exact hnew.extend (by rwa [Form.length_listNodes])
    rcases (Arena.takes_dumpForms hin ht).preserves hin ht with ⟨nodes, _, hdone, hfull⟩
    have hsize' : (parse input { limit := o.maxNodes }).arena.size = Form.listSize forms :=
      (size_parse hread hfits).trans (Nat.zero_add _)
    have hcapacity' : (parse input { limit := o.maxNodes }).arena.capacity =
        ({ limit := o.maxNodes } : Arena).capacity := by
      rw [hparse, Arena.capacity_extend]
    rw [hsize', hcapacity'] at hdone hfull
    refine ⟨fun hneeded => ?_, fun hneeded => ?_⟩
    · rcases hdone hneeded with ⟨_, dumps, hok, hdumps⟩
      rw [run_of_dump hast hdump hresult hok hdumps, Tree.elements_ofList]
    · exact ⟨_, run_of_dump_error hast hdump hresult (hfull hneeded).1⟩
  · rcases parse_lacks (List.append_nil _).symm hread hfits with ⟨e, herror, _⟩
    rw [hnew.hasRoom_iff] at hfits
    refine ⟨fun hneeded => absurd ?_ hfits, fun _ => run_of_parse_error hast herror⟩
    exact ((Nat.zero_add _).trans_le (Nat.le_add_right _ _)).trans hneeded

end Cli

/-- A dump of a value without missing nodes or circles succeeds exactly if the nodes that it takes
fit into the arena, and takes no others. If they do not fit, it fails and tells how many nodes are
allowed, and the arena is full. The same holds of the list of the dumps of all elements. In either
case all nodes are what they were, and so is what the value is written as and equal to. So a run
that dumps a text succeeds exactly if parse and dumps fit into the limit together, and prints
nothing if they do not. -/
theorem dump_takes_its_cost (a : Arena) (v : Ref) (ha : a.InLimit) (hv : a.Sound v) :
    (∃ t, a.Unfolds v t ∧ ∀ x n, (x = Arena.dump v ∧ n = t.dumpCost ∨ x = Arena.dumpForms v ∧
        n = t.elements.length + (t.elements.map Tree.dumpCost).sum) →
      ∃ nodes, a.Preserves (a.extend nodes) v ∧
        (a.size + n ≤ a.capacity →
          nodes.length = n ∧ ∃ d, x a = .ok d (a.extend nodes)) ∧
        (a.capacity < a.size + n →
          x a = .error (.failure ⟨a.capacity⟩) (a.extend nodes) ∧
            (a.extend nodes).size = a.capacity)) ∧
    ∀ (o : Cli.Options) input most r, o.ast = true → o.dump = true → o.maxNodes = some most →
      (parse input {}).result = .ok r →
        ∃ t outcome, (parse input {}).arena.Unfolds r t ∧
          Cli.run o (.ok input) = .ok outcome ∧
          (outcome.exitCode = 0 ↔ (parse input {}).arena.size +
            (t.elements.length + (t.elements.map Tree.dumpCost).sum) ≤
              min most Arena.mostNodes) ∧
          (outcome.exitCode ≠ 0 → outcome.exitCode = 1 ∧ outcome.stdout = []) := by
  constructor
  · rcases hv.exists_unfolds with ⟨t, ht⟩
    refine ⟨t, ht, ?_⟩
    have hweaken {x : Build Ref} {n : Nat} {made : Ref → Arena → Prop}
        (hx : Arena.Takes n x a made) := (hx.mono fun _ _ _ _ => trivial).preserves ha ht
    rintro x n (⟨rfl, rfl⟩ | ⟨rfl, rfl⟩)
    · simpa using hweaken (Arena.takes_dump ha ht)
    · simpa using hweaken (Arena.takes_dumpForms ha ht)
  · intro o input most r hast hdump hlimit hr
    rcases Cli.run_dump_limited hast hdump hlimit hr with ⟨t, ht, hfits, hfull⟩
    rcases Nat.lt_or_ge (min most Arena.mostNodes) ((parse input {}).arena.size +
      (t.elements.length + (t.elements.map Tree.dumpCost).sum)) with hlt | hle
    · rcases hfull hlt with ⟨message, hrun⟩
      exact ⟨t, _, ht, hrun, iff_of_false Nat.one_ne_zero (Nat.not_le.2 hlt), fun _ => ⟨rfl, rfl⟩⟩
    · exact ⟨t, _, ht, hfits hle, iff_of_true rfl hle, fun hexit => absurd rfl hexit⟩

/-- The pair of a symbol and an integer has one element and takes seven nodes, for four of which
there is room. A symbol is parsed and dumped with seven nodes. -/
theorem dump_takes_its_cost_pair_and_symbol :
    let a : Arena := ⟨#[.symbol "a", .integer 7, .pair ⟨1⟩ ⟨2⟩], some 7⟩
    let o : Cli.Options := { ast := true, dump := true, maxNodes := some 7 }
    a.InLimit ∧ a.Sound ⟨3⟩ ∧
      (∃ nodes, a.Preserves (a.extend nodes) ⟨3⟩ ∧ (a.extend nodes).size = 7 ∧
        Arena.dump ⟨3⟩ a = .error (.failure ⟨7⟩) (a.extend nodes)) ∧
      o.ast = true ∧ o.dump = true ∧ o.maxNodes = some 7 ∧
      ∃ outcome, Cli.run o (.ok [97]) = .ok outcome ∧ outcome.exitCode = 0 := by
  intro a o
  have hin : a.InLimit := by decide
  have hpair : a.Unfolds ⟨3⟩ (.pair (.symbol "a") (.integer 7)) :=
    .pair rfl (.symbol rfl) (.integer rfl)
  have hdump := dump_takes_its_cost a ⟨3⟩ hin hpair.sound
  refine ⟨hin, hpair.sound, ?_, rfl, rfl, rfl, ?_⟩
  · rcases hdump.1 with ⟨t, ht, hcost⟩
    cases ht.unique hpair
    rcases hcost _ _ (.inl ⟨rfl, rfl⟩) with ⟨nodes, hpreserves, _, hfull⟩
    rcases hfull (by decide) with ⟨herror, hsize⟩
    exact ⟨nodes, hpreserves, hsize, herror⟩
  · have hall : Token.all [97] = [⟨.symbol, [97], 0⟩] :=
      Lexes.iff_eq_all.1 (.token rfl rfl .done)
    have hparse : parse [97] {} = ⟨.ok ⟨2⟩, ⟨#[.symbol "a", .pair ⟨1⟩ ⟨0⟩], none⟩,
        Token.stream [97]⟩ := by
      rw [parse, Token.stream, hall]
      rfl
    have hforms : (parse [97] {}).arena.Unfolds ⟨2⟩ (.pair (.symbol "a") .nil) := by
      rw [hparse]
      exact .pair rfl (.symbol rfl) (.nil rfl)
    rcases hdump.2 o [97] 7 ⟨2⟩ rfl rfl rfl (by rw [hparse]) with ⟨t, outcome, ht, hrun, hexit, _⟩
    cases ht.unique hforms
    refine ⟨outcome, hrun, hexit.2 ?_⟩
    rw [hparse]
    decide

end Sexpr
