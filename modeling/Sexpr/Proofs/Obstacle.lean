import Sexpr.Cli.Run
import Sexpr.Proofs.Faultless
import Sexpr.Proofs.Listing
import Sexpr.Proofs.Nesting

/-! # Obstacles of a listing and failures of a parse

A listing keeps no account of quotes, and so it may pass over what a parse refuses. What stands in
its way is refused by every parse, however much is allowed, unless the parse has failed before. A
parse blames only tokens that it has pulled, so its failure is never behind the obstacle. Whatever
is parsed is listed to the end, and the counts of the listing are those of the parsed forms.
-/

namespace Sexpr

variable {p : Token → Prop} {t : Token} {a b : Arena} {blame : Blame}

theorem Token.blame_of_role (h : t.role = .error (.failure blame)) : blame.token = t := by
  cases hk : t.kind <;> simp only [role, hk] at h
  case string =>
    split at h <;> cases h
  case integer | symbol =>
    split at h <;> cases h
    rfl
  case endOfInput | invalid =>
    cases h
    rfl
  all_goals cases h

theorem Nesting.count_settle (n : Nesting) : n.settle.count .list = n.count .list := by
  induction n with
  | nil => rfl
  | cons opener n ih =>
    cases opener with
    | list => rfl
    | quote => simpa [settle] using ih

namespace Stack

variable {d : Nat} {s next : Stack}

/-- A property of all tokens that open lists and quotes began with. -/
def Marked (p : Token → Prop) (s : Stack) : Prop := ∀ frame ∈ s.frames, p frame.token

theorem marked_place {v : Ref} {frames : List Frame} {forms : OpenList}
    (hframes : ∀ frame ∈ frames, p frame.token) (h : place v t frames forms a = .ok next b) :
    next.Marked p := by
  induction frames generalizing v t a with
  | nil =>
    rcases bind_eq_ok h with ⟨_, _, _, hpure⟩
    cases hpure
    exact hframes
  | cons frame frames ih =>
    cases frame with
    | list opening items =>
      rcases bind_eq_ok h with ⟨_, _, _, hpure⟩
      cases hpure
      rw [Marked, List.forall_mem_cons] at *
      exact hframes
    | quote mark =>
      rcases bind_eq_ok h with ⟨_, _, _, h⟩
      rcases bind_eq_ok h with ⟨_, _, _, h⟩
      exact ih (List.forall_mem_cons.1 hframes).2 h

theorem blame_of_descend {frame : Frame}
    (h : s.descend d t frame a = .error (.failure blame) b) : blame.token = t := by
  rw [descend] at h
  split at h <;> cases h
  rfl

theorem marked_descend {frame : Frame} (hs : s.Marked p) (hframe : p frame.token)
    (h : s.descend d t frame a = .ok next b) : next.Marked p := by
  rw [descend] at h
  split at h <;> cases h
  exact List.forall_mem_cons.2 ⟨hframe, hs⟩

theorem blame_of_step (hs : s.Marked p) (ht : p t)
    (h : s.step d t a = .error (.failure blame) b) : p blame.token := by
  cases hrole : t.role with
  | error halt =>
    rw [step, hrole] at h
    cases h
    rwa [Token.blame_of_role hrole]
  | ok role =>
    rw [step, hrole] at h
    cases role with
    | opening | quoting => rwa [blame_of_descend h]
    | atom node =>
      rcases bind_eq_error h with hcharge | ⟨v, c, _, hplace⟩
      · rwa [Token.blame_of_charge hcharge]
      · exact (blame_of_place ht hs hplace).2
    | closing =>
      rcases s with ⟨_ | ⟨⟨opening, items⟩ | mark, frames⟩, forms⟩
      · cases h
        exact ht
      · have hframes := List.forall_mem_cons.1 hs
        exact (blame_of_place hframes.1 hframes.2 h).2
      · cases h
        exact ht

theorem marked_step (hs : s.Marked p) (ht : p t) (h : s.step d t a = .ok next b) :
    next.Marked p := by
  cases hrole : t.role with
  | error halt =>
    rw [step, hrole] at h
    cases h
  | ok role =>
    rw [step, hrole] at h
    cases role with
    | opening | quoting =>
      refine marked_descend hs ?_ h
      exact ht
    | atom node =>
      rcases bind_eq_ok h with ⟨v, c, _, hplace⟩
      exact marked_place hs hplace
    | closing =>
      rcases s with ⟨_ | ⟨⟨opening, items⟩ | mark, frames⟩, forms⟩
      · cases h
      · exact marked_place (List.forall_mem_cons.1 hs).2 h
      · cases h

def openLists (s : Stack) : Nat := s.nesting.count .list

theorem exists_list_of_step (h : s.step d t a = .ok next b) (hk : t.kind = .rightParen) :
    ∃ outer, s.nesting = .list :: outer := by
  rw [step, Token.role_rightParen hk] at h
  rcases s with ⟨_ | ⟨⟨opening, items⟩ | mark, frames⟩, forms⟩
  · cases h
  · exact ⟨_, rfl⟩
  · cases h

/-- While tokens are taken in, the open lists are those of the tokens. -/
theorem openLists_step (h : s.step d t a = .ok next b) :
    next.openLists = t.kind.listsBehind s.openLists := by
  rw [openLists, nesting_step h]
  cases hk : t.kind with
  | rightParen =>
    rcases exists_list_of_step h hk with ⟨outer, hnesting⟩
    rw [openLists, hnesting, Nesting.next, Nesting.count_settle, List.count_cons_self]
    rfl
  | integer | string | symbol => exact Nesting.count_settle _
  | leftParen => exact List.count_cons_self
  | quote => exact List.count_cons_of_ne (by decide)
  | endOfInput | invalid => rfl

theorem step_ne_ok (h : t.kind = .invalid ∨ t.kind = .rightParen ∧ s.openLists = 0) :
    s.step d t a ≠ .ok next b := by
  intro hstep
  rcases h with hk | ⟨hk, hzero⟩
  · rw [step, Token.role, hk] at hstep
    cases hstep
  · rcases exists_list_of_step hstep hk with ⟨outer, hnesting⟩
    rw [openLists, hnesting, List.count_cons_self] at hzero
    cases hzero

end Stack

/-- No run gets past an obstacle, and it blames none of the tokens behind it. -/
theorem Parser.run_of_obstacle {before : List Token} {s : Stack} (d : Nat) (eof : Token)
    (after : List Token) (a : Arena) (hs : s.Marked p) (hbefore : ∀ u ∈ before, p u) (ht : p t)
    (hobstacle : t.kind = .invalid ∨ t.kind = .rightParen ∧
      before.foldl (fun n u => u.kind.listsBehind n) s.openLists = 0) :
    ∃ halt, (run d eof (before ++ t :: after) s a).result = .error halt ∧
      ∀ blame, halt = .failure blame → p blame.token := by
  induction before generalizing s a with
  | nil =>
    cases hstep : s.step d t a with
    | ok next b => exact absurd hstep (Stack.step_ne_ok hobstacle)
    | error halt b =>
      refine ⟨halt, by rw [List.nil_append, run_of_error hstep], ?_⟩
      rintro blame rfl
      exact Stack.blame_of_step hs ht hstep
  | cons u before ih =>
    rw [List.forall_mem_cons] at hbefore
    cases hstep : s.step d u a with
    | ok next b =>
      rw [List.foldl_cons, ← Stack.openLists_step hstep] at hobstacle
      rw [List.cons_append, run_of_ok hstep]
      exact ih b (Stack.marked_step hs hbefore.1 hstep) hbefore.2 hobstacle
    | error halt b =>
      refine ⟨halt, by rw [List.cons_append, run_of_error hstep], ?_⟩
      rintro blame rfl
      exact Stack.blame_of_step hs hbefore.1 hstep

section Agreement

open Token (IsClear)

variable {input : Bytes} {before after : List Token} {d : Nat} {e : ParseFailure} {r : Ref}

/-- A text with an obstacle is not parsed into any arena. -/
theorem parse_of_obstructs (hall : Token.all input = before ++ t :: after)
    (ht : t.Obstructs before) (a : Arena) (d : Nat) :
    ∃ e, (parse input a d).result = .error (.failure e) ∧ e.offset ≤ t.offset := by
  have hpairwise := Lexes.pairwise_offset (Lexes.iff_eq_all.2 hall)
  have hbefore : ∀ u ∈ before, u.offset ≤ t.offset := fun u hu =>
    Nat.le_of_lt ((List.pairwise_append.1 hpairwise).2.2 u hu t List.mem_cons_self)
  have hmarked : ({} : Stack).Marked fun u => u.offset ≤ t.offset := by simp [Stack.Marked]
  rcases Parser.run_of_obstacle d (Token.eof input) after a hmarked hbefore (Nat.le_refl _)
      (Token.obstructs_iff.1 ht) with ⟨halt, hrun, hblame⟩
  have hresult : (parse input a d).result = .error (halt.map (Blame.locate input)) := by
    rw [parse, hall, hrun]
    rfl
  cases halt with
  | failure blame => exact ⟨_, hresult, hblame blame rfl⟩
  | fault fault => exact absurd hresult (parse_ne_fault fault)

theorem exists_obstacle_of_invalid
    (h : (parse input a d).result = .error (.failure e)) (hcause : e.cause = .invalidToken) :
    ∃ before t after, Token.all input = before ++ t :: after ∧ IsClear before ∧
      t.kind = .invalid ∧ e = Blame.locate input ⟨.invalidToken, t⟩ := by
  rcases exists_invalid_of_parse h hcause with ⟨t, hmem, hk, hblame⟩
  rcases Token.isClear_or_exists_first (Token.all input) with
    hclear | ⟨before, u, after, hall, hclear, hu⟩
  · rcases List.append_of_mem hmem with ⟨early, late, hall⟩
    exact absurd (.inl hk) (hclear early t late hall)
  rcases parse_of_obstructs hall hu a d with ⟨e', herror, hoffset⟩
  cases h.symm.trans herror
  have hpairwise := Lexes.pairwise_offset (Lexes.iff_eq_all.2 hall)
  rw [hall, List.mem_append, List.mem_cons] at hmem
  rcases hmem with hearly | rfl | hlate
  · rcases List.append_of_mem hearly with ⟨early, late, rfl⟩
    exact absurd (.inl hk) (hclear early t late rfl)
  · exact ⟨before, t, after, hall, hclear, hk, hblame⟩
  · -- The parse fails no later than at the obstacle, and the invalid token stands behind it.
    have hbehind := (List.pairwise_cons.1 (List.pairwise_append.1 hpairwise).2.1).1 t hlate
    rw [hblame] at hoffset
    exact absurd hbehind (Nat.not_lt.2 hoffset)

end Agreement

namespace Cli

open Token (IsClear)

variable {o : Options} {input : Bytes} {before after : List Token} {forms : List Form}

theorem run_of_ending {w : Listing.Walk} (hast : o.ast = false) (hprint : o.print = false)
    (h : Listing.ofInput ⟨false, o.pos⟩ input = ⟨[], .ok w⟩) :
    run o (.ok input) = .ok (.success (Utf8.encode w.summary)) := by
  simp [run, hast, listing, hprint, h]

theorem run_of_isClear (hast : o.ast = false) (hprint : o.print = false)
    (hclear : IsClear (Token.all input)) :
    ∃ stdout, run o (.ok input) = .ok (.success stdout) :=
  ⟨_, run_of_ending hast hprint (Listing.ofInput_of_isClear hclear o.pos)⟩

theorem run_of_forms (hast : o.ast = false) (hprint : o.print = false)
    (hforms : Form.listTokens forms = Token.all input) (hclear : IsClear (Token.all input))
    (hlength : (Token.all input).length < 2 ^ 31) :
    run o (.ok input) = .ok (.success (Utf8.encode
      (";; count_toplevel = " ++ toString forms.length ++ ", count_enter = " ++
        toString ((Token.all input).countP (·.kind = .leftParen)) ++ "\n"))) := by
  rcases Listing.ofInput_of_forms hforms hclear o.pos with ⟨w, hlisting, htoplevel, hentered⟩
  have hrun := run_of_ending hast hprint hlisting
  have hcount := hforms ▸ Form.length_le_length_listTokens forms
  have hopening := List.countP_le_length (p := (·.kind = .leftParen)) (l := Token.all input)
  unfold Listing.Walk.summary at hrun
  rwa [htoplevel, hentered, Listing.toString_count (hcount.trans_lt hlength),
    Listing.toString_count (hopening.trans_lt hlength)] at hrun

theorem run_of_obstructs (hast : o.ast = false) (hprint : o.print = false)
    (hall : Token.all input = before ++ t :: after) (hclear : IsClear before)
    (ht : t.Obstructs before) : run o (.ok input) =
      .ok (.failure [] (t.obstacle.message o.pathBytes (Position.ofOffset input t.offset))) := by
  have hlisting := Listing.ofInput_of_obstructs hall hclear ht o.pos
  simp [run, hast, listing, hprint, hlisting, Utf8.encode]

end Cli

/-- A run that lists tokens without showing them agrees with the parse. Of what is parsed, it counts
the forms and the lists, as long as no counter of 32 bits can overflow. It fails exactly if there is
an invalid token, or a closing parenthesis without an open list, and tells of the first of these, at
its place. Then every parse fails too, there or before. A parse that fails for an invalid token
fails at the token that the run tells of. -/
theorem listing_agrees_with_parse (o : Cli.Options) (input : Bytes) (hast : o.ast = false)
    (hprint : o.print = false) :
    ((Token.all input).length < 2 ^ 31 → ∀ a d r, (parse input a d).result = .ok r →
      ∃ items, (parse input a d).arena.items r = .ok items ∧
        Cli.run o (.ok input) = .ok (.success (Utf8.encode
          (";; count_toplevel = " ++ toString items.length ++ ", count_enter = " ++
            toString ((Token.all input).countP (·.kind = .leftParen)) ++ "\n")))) ∧
    (∃ outcome, Cli.run o (.ok input) = .ok outcome ∧
      (outcome.exitCode = 1 ↔
        ∃ before t after, Token.all input = before ++ t :: after ∧ t.Obstructs before)) ∧
    (∀ before t after, Token.all input = before ++ t :: after → t.Obstructs before →
      (∀ early u late, before = early ++ u :: late → ¬ u.Obstructs early) →
        Cli.run o (.ok input) = .ok (.failure []
          ((if t.kind = .invalid then "invalid token '" ++ t.shown ++ "'"
              else "unexpected closing character ')'") ++
            " at " ++ Text.quoted o.pathBytes ++ (Position.ofOffset input t.offset).text)) ∧
        ∀ a d, ∃ e, (parse input a d).result = .error (.failure e) ∧ e.offset ≤ t.offset) ∧
    ∀ a d e, (parse input a d).result = .error (.failure e) → e.cause = .invalidToken →
        Cli.run o (.ok input) = .ok (.failure []
          ("invalid token '" ++ e.text ++ "'" ++ " at " ++ Text.quoted o.pathBytes ++
            (Position.ofOffset input e.offset).text)) := by
  refine ⟨?_, ?_, ?_, ?_⟩
  · intro hcount a d r hr
    rcases parse_eq_ok_iff.1 hr with ⟨forms, hread, hroom, rfl⟩
    rcases Arena.items_eq (unfolds_parse hread hroom) with ⟨items, hitems, htrees⟩
    have hlength : items.length = forms.length := by
      rw [htrees.length_eq, Form.listTree_eq, Tree.elements_ofList, List.length_map]
    have hforms := (Outline.read_eq_top_iff.1 hread).1
    have hclear : Token.IsClear (Token.all input) := by
      intro before t after hall ht
      rcases parse_of_obstructs hall ht a d with ⟨e, herror, _⟩
      cases hr.symm.trans herror
    refine ⟨items, hitems, ?_⟩
    rw [hlength]
    exact Cli.run_of_forms hast hprint hforms hclear hcount
  · rcases Token.isClear_or_exists_first (Token.all input) with
      hclear | ⟨before, t, after, hall, hclear, ht⟩
    · rcases Cli.run_of_isClear hast hprint hclear with ⟨stdout, hrun⟩
      refine ⟨_, hrun, iff_of_false (by simp [Cli.Outcome.success]) ?_⟩
      rintro ⟨before, t, after, hall, ht⟩
      exact hclear before t after hall ht
    · exact ⟨_, Cli.run_of_obstructs hast hprint hall hclear ht,
        iff_of_true rfl ⟨before, t, after, hall, ht⟩⟩
  · intro before t after hall ht hclear
    refine ⟨?_, parse_of_obstructs hall ht⟩
    rw [Cli.run_of_obstructs hast hprint hall hclear ht, Token.obstacle]
    split <;> rfl
  · intro a d e herror hcause
    rcases exists_obstacle_of_invalid herror hcause with
      ⟨before, t, after, hall, hclear, hk, rfl⟩
    have hshown : t.shown = Utf8.decodeLossy t.text := by simp [Token.shown, hk]
    rw [Cli.run_of_obstructs hast hprint hall hclear (.inl hk), Token.obstacle, if_pos hk, hshown]
    rfl

/-- A quoted list and a symbol, a closing parenthesis too many, and a byte that begins no token. -/
theorem listing_agrees_with_parse_quote_and_obstacles :
    let o : Cli.Options := { path := some "in" }
    o.ast = false ∧ o.print = false ∧
    Cli.run o (.ok [39, 40, 97, 41, 32, 98]) = .ok (.success (Utf8.encode
      (";; count_toplevel = " ++ toString 2 ++ ", count_enter = " ++ toString 1 ++ "\n"))) ∧
    Cli.run o (.ok [40, 41, 41]) = .ok (.failure []
      ("unexpected closing character ')'" ++ " at " ++ Text.quoted o.pathBytes ++
        (⟨0, 2⟩ : Position).text)) ∧
    Cli.run o (.ok [97, 32, 127]) = .ok (.failure []
      ("invalid token '" ++ Utf8.decodeLossy [127] ++ "'" ++ " at " ++ Text.quoted o.pathBytes ++
        (⟨0, 2⟩ : Position).text)) := by
  intro o
  refine ⟨rfl, rfl, ?_, ?_, ?_⟩
  · have hall : Token.all [39, 40, 97, 41, 32, 98] =
        [⟨.quote, [39], 0⟩, ⟨.leftParen, [40], 1⟩, ⟨.symbol, [97], 2⟩, ⟨.rightParen, [41], 3⟩,
          ⟨.symbol, [98], 5⟩] :=
      Lexes.iff_eq_all.1 (.token rfl rfl (.token rfl rfl (.token rfl rfl (.token rfl rfl
        (.blank rfl (.token rfl rfl .done))))))
    have hresult : (parse [39, 40, 97, 41, 32, 98] {}).result = .ok ⟨6⟩ := by
      rw [parse, hall]
      rfl
    have hforms : (parse [39, 40, 97, 41, 32, 98] {}).arena.items ⟨6⟩ = .ok [⟨5⟩, ⟨7⟩] := by
      rw [parse, hall]
      rfl
    have hcount : (Token.all [39, 40, 97, 41, 32, 98]).length < 2 ^ 31 := by
      rw [hall]
      decide
    rcases (listing_agrees_with_parse o [39, 40, 97, 41, 32, 98] rfl rfl).1 hcount {} _ ⟨6⟩ hresult
      with ⟨items, hitems, hrun⟩
    cases hforms.symm.trans hitems
    rwa [hall] at hrun
  · have hall : Token.all [40, 41, 41] =
        [⟨.leftParen, [40], 0⟩, ⟨.rightParen, [41], 1⟩] ++ ⟨.rightParen, [41], 2⟩ :: [] :=
      Lexes.iff_eq_all.1 (.token rfl rfl (.token rfl rfl (.token rfl rfl .done)))
    have hclear : Token.IsClear ([] ++ [⟨.leftParen, [40], 0⟩] ++ [⟨.rightParen, [41], 1⟩]) := by
      rw [Token.isClear_append_singleton, Token.isClear_append_singleton, Token.obstructs_iff,
        Token.obstructs_iff]
      exact ⟨⟨Token.isClear_nil, by decide⟩, by decide⟩
    have hobstructs : Token.Obstructs [⟨.leftParen, [40], 0⟩, ⟨.rightParen, [41], 1⟩]
        ⟨.rightParen, [41], 2⟩ := Token.obstructs_iff.2 (.inr ⟨rfl, rfl⟩)
    have hposition : Position.ofOffset [40, 41, 41] 2 = ⟨0, 2⟩ := rfl
    have hrun := ((listing_agrees_with_parse o [40, 41, 41] rfl rfl).2.2.1 _ _ _ hall hobstructs
      hclear).1
    rw [if_neg (by decide)] at hrun
    rwa [hposition] at hrun
  · have hall : Token.all [97, 32, 127] = [⟨.symbol, [97], 0⟩, ⟨.invalid, [127], 2⟩] :=
      Lexes.iff_eq_all.1 (.token rfl rfl (.blank rfl (.token rfl rfl .done)))
    have hresult : (parse [97, 32, 127] {}).result =
        .error (.failure ⟨.invalidToken, Utf8.decodeLossy [127], 2, ⟨0, 2⟩⟩) := by
      rw [parse, hall]
      rfl
    have hposition : Position.ofOffset [97, 32, 127] 2 = ⟨0, 2⟩ := rfl
    have hrun := (listing_agrees_with_parse o [97, 32, 127] rfl rfl).2.2.2 {} _ _ hresult rfl
    rwa [hposition] at hrun

end Sexpr
