import Sexpr.Proofs.Nesting

/-! # The depth that a text needs

The number of levels that the parser may open makes a difference only at a token that would open one
too many. Up to the first such token all parses with as many levels or more are the same parse, and
one that never comes to such a token is the same with any more levels.
-/

namespace Sexpr

namespace Parser

variable {d e : Nat} {s next : Stack} {ts us : List Token} {a b : Arena}

theorem run_of_read (eof : Token) (h : s.read d ts a = .ok next b) :
    run d eof (ts ++ us) s a =
      let later := run d eof us next b
      { later with pulled := ts ++ later.pulled } := by
  induction ts generalizing s a with
  | nil =>
    cases h
    rfl
  | cons t ts ih =>
    rw [Stack.read_cons] at h
    rcases bind_eq_ok h with ⟨first, c, hstep, hread⟩
    rw [List.cons_append, run_of_ok hstep, ih hread]
    rfl

/-- Either a run comes to a token that would open a level too many, or it does not fail for that
reason and is the same with more levels. -/
theorem run_levels (d : Nat) (eof : Token) (ts : List Token) (s : Stack) (a : Arena) :
    (∃ before t after next b, ts = before ++ t :: after ∧ s.read d before a = .ok next b ∧
      t.kind.opens = true ∧ d ≤ next.frames.length) ∨
    (∀ blame, (run d eof ts s a).result = .error (.failure blame) →
        blame.cause ≠ .nestingTooDeep) ∧
      ∀ e, d ≤ e → run e eof ts s a = run d eof ts s a := by
  induction ts generalizing s a with
  | nil =>
    refine .inr ⟨fun blame h hcause => ?_, fun _ _ => rfl⟩
    rw [run, Stack.finish] at h
    split at h <;> cases h
    cases hcause
  | cons t ts ih =>
    by_cases hdeep : t.kind.opens = true ∧ d ≤ s.frames.length
    · exact .inl ⟨[], t, ts, s, a, rfl, rfl, hdeep⟩
    · have hroom (hopens : t.kind.opens = true) : s.frames.length < d :=
        Nat.not_le.1 fun hd => hdeep ⟨hopens, hd⟩
      have hcongr (e : Nat) (hde : d ≤ e) : s.step d t = s.step e t :=
        Stack.step_congr fun hopens => ⟨hroom hopens, (hroom hopens).trans_le hde⟩
      cases hstep : s.step d t a with
      | error halt b =>
        rw [run_of_error hstep]
        refine .inr ⟨fun blame h => ?_, fun e hde => run_of_error (hcongr e hde ▸ hstep)⟩
        cases h
        exact Stack.cause_ne_nestingTooDeep hroom hstep
      | ok first c =>
        rw [run_of_ok hstep]
        rcases ih first c with ⟨before, u, after, next, b, rfl, hread, hu⟩ | ⟨hcause, hsame⟩
        · refine .inl ⟨t :: before, u, after, next, b, rfl, ?_, hu⟩
          rw [Stack.read_cons, bind_eq_of_ok hstep]
          exact hread
        · refine .inr ⟨hcause, fun e hde => ?_⟩
          rw [run_of_ok (hcongr e hde ▸ hstep), hsame e hde]

end Parser

theorem parse_levels (input : Bytes) (a : Arena) (maxDepth : Nat) :
    (∃ before t after s b, Token.all input = before ++ t :: after ∧
      ({} : Stack).read maxDepth before a = .ok s b ∧ t.kind.opens = true ∧
      s.frames.length = maxDepth ∧ parse input a maxDepth =
        ⟨.error (.failure (Blame.locate input ⟨.nestingTooDeep, t⟩)), b, before ++ [t]⟩) ∨
    (∀ e, (parse input a maxDepth).result = .error (.failure e) → e.cause ≠ .nestingTooDeep) ∧
      ∀ more, maxDepth ≤ more → parse input a more = parse input a maxDepth := by
  rcases Parser.run_levels maxDepth (Token.eof input) (Token.all input) {} a with
    ⟨before, t, after, s, b, hall, hread, hopens, hdeep⟩ | ⟨hcause, hsame⟩
  · have hle := Stack.length_frames_read_le (Nat.zero_le _) hread
    refine .inl ⟨before, t, after, s, b, hall, hread, hopens, Nat.le_antisymm hle hdeep, ?_⟩
    rw [parse, hall, Parser.run_of_read _ hread,
      Parser.run_of_error (Stack.step_too_deep hopens hdeep b)]
    rfl
  · refine .inr ⟨fun e he => ?_, fun more hmore => ?_⟩
    · rw [parse] at he
      cases hresult : (Parser.run maxDepth (Token.eof input) (Token.all input) {} a).result with
      | ok r =>
        rw [hresult] at he
        cases he
      | error halt =>
        rw [hresult] at he
        cases halt with
        | failure blame =>
          cases he
          exact hcause blame hresult
        | fault f => cases he
    · rw [parse, hsame more hmore]
      rfl

/-- How deep lists and quotes may nest decides about one thing only, which is the first token that
opens a level beyond. A parse that does not fail for its sake is the same where more levels are
allowed. One that does fails exactly there: with as many levels or more, all tokens before it are
read, to the nodes that the failure leaves, and with more levels so is the token itself. No more
calls are ever under way than there are levels, and one for the token at hand. -/
theorem parse_depth_threshold (input : Bytes) (a : Arena) (maxDepth : Nat) :
    ((∀ e, (parse input a maxDepth).result = .error (.failure e) → e.cause ≠ .nestingTooDeep) →
      ∀ more, maxDepth ≤ more → parse input a more = parse input a maxDepth) ∧
    (∀ e, (parse input a maxDepth).result = .error (.failure e) → e.cause = .nestingTooDeep →
      ∃ before t after, Token.all input = before ++ t :: after ∧
        e = Blame.locate input ⟨.nestingTooDeep, t⟩ ∧
        t.kind.opens = true ∧ Nesting.level before = maxDepth ∧
        (∀ early u later, before = early ++ u :: later → u.kind.opens = true →
          Nesting.level early < maxDepth) ∧
        ∀ more, maxDepth ≤ more →
          (∃ s, ({} : Stack).read more before a = .ok s (parse input a maxDepth).arena) ∧
          (maxDepth < more → ∃ s, ({} : Stack).read more (before ++ [t]) a =
            .ok s (parse input a maxDepth).arena)) ∧
    ∀ before after s b, Token.all input = before ++ after →
      ({} : Stack).read maxDepth before a = .ok s b →
        s.calls = Nesting.level before + 1 ∧ s.calls ≤ maxDepth + 1 := by
  refine ⟨?_, ?_, ?_⟩
  · intro hcause
    rcases parse_levels input a maxDepth with ⟨_, t, _, _, _, _, _, _, _, hfail⟩ | ⟨_, hsame⟩
    · rw [hfail] at hcause
      exact absurd rfl (hcause _ rfl)
    · exact hsame
  · intro e he hcause
    rcases parse_levels input a maxDepth with
      ⟨before, t, after, s, b, hall, hread, hopens, hlength, hfail⟩ | ⟨hnone, _⟩
    · rw [hfail] at he ⊢
      cases he
      refine ⟨before, t, after, hall, rfl, hopens, ?_, ?_, ?_⟩
      · rw [← Stack.length_frames_read hread, hlength]
      · rintro early u later rfl hu
        exact Stack.level_lt_of_read hread hu
      · intro more hmore
        have hread' := Stack.read_mono hmore hread
        refine ⟨⟨s, hread'⟩, fun hlt => ?_⟩
        rcases Stack.step_deeper hopens (hlength ▸ hlt) b with ⟨frame, _, hstep⟩
        refine ⟨{ s with frames := frame :: s.frames }, ?_⟩
        rw [Stack.read_append, bind_eq_of_ok hread', Stack.read_cons, bind_eq_of_ok hstep]
        rfl
    · exact absurd hcause (hnone e he)
  · intro before after s b _ hread
    have hle := Stack.length_frames_read_le (Nat.zero_le _) hread
    exact ⟨congrArg (· + 1) (Stack.length_frames_read hread), Nat.succ_le_succ hle⟩

/-- The text `(a '(b))` has a list on its third level. -/
theorem parse_depth_threshold_quoted_list :
    (parse [40, 97, 32, 39, 40, 98, 41, 41] {} 2).result =
        .error (.failure ⟨.nestingTooDeep, "(", 4, ⟨0, 4⟩⟩) ∧
      (parse [40, 97, 32, 39, 40, 98, 41, 41] {} 2).arena.nodes =
        #[.symbol "a", .pair ⟨1⟩ Ref.nil] ∧
      (∃ before, Nesting.level before = 2 ∧ ∃ s, ({} : Stack).read 3 before {} =
        .ok s (parse [40, 97, 32, 39, 40, 98, 41, 41] {} 2).arena) ∧
      parse [40, 97, 32, 39, 40, 98, 41, 41] {} 500 = parse [40, 97, 32, 39, 40, 98, 41, 41] {} 3 ∧
      (parse [40, 97, 32, 39, 40, 98, 41, 41] {} 3).result = .ok ⟨9⟩ := by
  have hall : Token.all [40, 97, 32, 39, 40, 98, 41, 41] =
      [⟨.leftParen, [40], 0⟩, ⟨.symbol, [97], 1⟩, ⟨.quote, [39], 3⟩, ⟨.leftParen, [40], 4⟩,
        ⟨.symbol, [98], 5⟩, ⟨.rightParen, [41], 6⟩, ⟨.rightParen, [41], 7⟩] :=
    Lexes.iff_eq_all.1 (.token rfl rfl (.token rfl rfl (.blank rfl (.token rfl rfl
      (.token rfl rfl (.token rfl rfl (.token rfl rfl (.token rfl rfl .done))))))))
  have hfail : (parse [40, 97, 32, 39, 40, 98, 41, 41] {} 2).result =
      .error (.failure ⟨.nestingTooDeep, "(", 4, ⟨0, 4⟩⟩) := by
    rw [parse, hall]
    rfl
  have hread : (parse [40, 97, 32, 39, 40, 98, 41, 41] {} 3).result = .ok ⟨9⟩ := by
    rw [parse, hall]
    rfl
  rcases (parse_depth_threshold _ {} 2).2.1 _ hfail rfl with
    ⟨before, _, _, _, _, _, hlevel, _, hmore⟩
  refine ⟨hfail, ?_, ⟨before, hlevel, (hmore 3 (by decide)).1⟩, ?_, hread⟩
  · rw [parse, hall]
    rfl
  · apply (parse_depth_threshold _ {} 3).1 _ 500 (by decide)
    intro e he
    cases hread.symm.trans he

end Sexpr
