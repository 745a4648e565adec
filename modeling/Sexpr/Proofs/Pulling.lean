import Sexpr.Parser.Log
import Sexpr.Proofs.Decomposition
import Sexpr.Proofs.Obstacle

/-! # The tokens that a parse pulls

A parse pulls the tokens of a text in order and never one more than it needs. The token that it
blames is the last one that it pulled, unless the room ran out. Then it may be the first token of a
list or of a quoted form, whose last token was pulled just before. Each token is recorded, and after
the tokens what the parse came to.
-/

namespace Sexpr

/-- The frames of an outline, whatever cells its lists have got. -/
inductive Outline.Framed : Outline → List Frame → Prop
  | top (forms : List Form) : Framed (.top forms) []
  | list {outer frames} (opening : Terminal .leftParen) (items : List Form) (cells : OpenList)
      (h : Framed outer frames) :
    Framed (.list opening items outer) (.list opening.1 cells :: frames)
  | quote {outer frames} (mark : Terminal .quote) (h : Framed outer frames) :
    Framed (.quote mark outer) (.quote mark.1 :: frames)

/-- The last of some tokens completes a form, and the form began with a token. -/
def Form.CompletedFrom (t : Token) (ts : List Token) : Prop :=
  ∃ before, ∃ form : Form, ts = before ++ form.tokens ∧ form.first = t

/-- Token to blame behind some tokens. It is the last of them, unless room is lacking for the form
that it began. -/
def Blame.Recent (blame : Blame) (ts : List Token) : Prop :=
  (∃ before, ts = before ++ [blame.token]) ∨
    blame.cause = .outOfMemory ∧ Form.CompletedFrom blame.token ts

variable {d : Nat} {o o' : Outline} {frames : List Frame} {s next : Stack} {t : Token}
  {ts : List Token} {a b : Arena} {blame : Blame} {form : Form}

namespace Outline

theorem Framed.length_eq (h : o.Framed frames) : frames.length = o.level := by
  induction h with
  | top forms => rfl
  | list opening items cells h ih => rw [List.length_cons, ih, level]
  | quote mark h ih => rw [List.length_cons, ih, level]

theorem Framed.place (h : o.Framed frames) {v : Ref} {cells : OpenList}
    (hplace : Stack.place v t frames cells a = .ok next b) : (o.place form).Framed next.frames := by
  induction h generalizing v t a form with
  | top forms =>
    obtain ⟨_, _, _, hpure⟩ := bind_eq_ok hplace
    cases hpure
    exact .top (forms ++ [form])
  | list opening items _ h ih =>
    obtain ⟨cells, _, _, hpure⟩ := bind_eq_ok hplace
    cases hpure
    exact .list opening (items ++ [form]) cells h
  | quote mark h ih =>
    obtain ⟨_, _, _, hplace⟩ := bind_eq_ok hplace
    obtain ⟨_, _, _, hplace⟩ := bind_eq_ok hplace
    exact ih hplace

/-- If there is no room to place a form, this or a quote in front of it has just been completed. -/
theorem Framed.blame_of_place (h : o.Framed frames) (form : Form) {v : Ref} {cells : OpenList}
    (hplace : Stack.place v form.first frames cells a = .error (.failure blame) b) :
    blame.cause = .outOfMemory ∧
      Form.CompletedFrom blame.token (o.tokens ++ form.tokens) := by
  induction h generalizing v a form with
  | top | list =>
    obtain hcharge | ⟨_, _, _, hpure⟩ := bind_eq_error hplace
    · cases Token.blame_of_charge hcharge
      exact ⟨rfl, _, form, rfl, rfl⟩
    · cases hpure
  | @quote outer _ mark h ih =>
    have htokens : (Outline.quote mark outer).tokens ++ form.tokens =
        outer.tokens ++ (Form.quote mark form).tokens := by
      simp [tokens, Form.tokens]
    have hmark : Form.CompletedFrom mark.1 (outer.tokens ++ (Form.quote mark form).tokens) :=
      ⟨outer.tokens, .quote mark form, rfl, rfl⟩
    rw [htokens]
    obtain hsymbol | ⟨_, _, _, hplace⟩ := bind_eq_error hplace
    · cases Token.blame_of_charge hsymbol
      exact ⟨rfl, hmark⟩
    obtain hcouple | ⟨_, _, _, hplace⟩ := bind_eq_error hplace
    · cases Token.blame_of_charge hcouple
      exact ⟨rfl, hmark⟩
    exact ih (.quote mark form) hplace

theorem Framed.descend {inner : Outline} {frame : Frame} (h : o.Framed s.frames)
    (hinner : inner.Framed (frame :: s.frames)) (hdescend : s.descend d t frame a = .ok next b) :
    o.enter d t inner = .ok inner ∧ inner.Framed next.frames := by
  rw [Stack.descend, h.length_eq] at hdescend
  split at hdescend <;> cases hdescend
  exact ⟨enter_eq_ok_iff.2 ⟨‹_›, rfl⟩, hinner⟩

theorem Framed.step (h : o.Framed s.frames) (hstep : s.step d t a = .ok next b) :
    ∃ o', o.step d t = .ok o' ∧ o'.Framed next.frames := by
  cases hrole : t.role with
  | error halt =>
    rw [Stack.step, hrole] at hstep
    cases hstep
  | ok role =>
    rw [Stack.step, hrole] at hstep
    cases role with
    | atom node =>
      obtain ⟨v, c, _, hplace⟩ := bind_eq_ok hstep
      exact ⟨_, step_of_atom hrole, h.place hplace⟩
    | opening =>
      rw [step_of_opening hrole]
      exact ⟨_, h.descend (.list ⟨t, Token.suits_of_role hrole⟩ [] {} h) hstep⟩
    | quoting =>
      rw [step_of_quoting hrole]
      exact ⟨_, h.descend (.quote ⟨t, Token.suits_of_role hrole⟩ h) hstep⟩
    | closing =>
      rw [step_of_closing hrole]
      obtain ⟨frames, cells⟩ := s
      cases h with
      | top forms => cases hstep
      | list opening items cells h => exact ⟨_, rfl, h.place hstep⟩
      | quote mark h => cases hstep

/-- A token that is refused is blamed for what it is, or for what it completes. -/
theorem Framed.recent_of_step (h : o.Framed s.frames)
    (hstep : s.step d t a = .error (.failure blame) b) : blame.Recent (o.tokens ++ [t]) := by
  have hlast (htoken : blame.token = t) : blame.Recent (o.tokens ++ [t]) :=
    .inl ⟨o.tokens, by rw [htoken]⟩
  cases hrole : t.role with
  | error halt =>
    rw [Stack.step, hrole] at hstep
    cases hstep
    exact hlast (Token.blame_of_role hrole)
  | ok role =>
    rw [Stack.step, hrole] at hstep
    cases role with
    | atom node =>
      obtain hcharge | ⟨v, c, _, hplace⟩ := bind_eq_error hstep
      · cases Token.blame_of_charge hcharge
        exact hlast rfl
      · exact .inr (h.blame_of_place (.atom ⟨t, Token.suits_of_role hrole⟩) hplace)
    | opening | quoting => exact hlast (Stack.blame_of_descend hstep)
    | closing =>
      obtain ⟨frames, cells⟩ := s
      cases h with
      | top forms =>
        cases hstep
        exact hlast rfl
      | @list outer _ opening items cells h =>
        have hplace := h.blame_of_place
          (.list opening items ⟨t, Token.suits_of_role hrole⟩) hstep
        rw [Form.tokens, ← List.cons_append, ← List.append_assoc] at hplace
        exact .inr hplace
      | quote mark h =>
        cases hstep
        exact hlast rfl

/-- A run pulls all tokens if it succeeds. Otherwise it pulls a beginning of them, which completes
what is blamed. -/
theorem Framed.pulled_run (h : o.Framed s.frames) (eof : Token) (ts : List Token) (a : Arena) :
    let r := Parser.run d eof ts s a
    r.pulled <+: ts ++ [eof] ∧ (∀ v, r.result = .ok v → r.pulled = ts ++ [eof]) ∧
      ∀ blame, r.result = .error (.failure blame) → blame.Recent (o.tokens ++ r.pulled) := by
  -- The tokens of the outline are those that were pulled before.
  induction ts generalizing o s a with
  | nil =>
    refine ⟨List.prefix_rfl, fun _ _ => rfl, fun blame hblame => ?_⟩
    simp only [Parser.run, Stack.finish] at hblame
    split at hblame <;> cases hblame
    exact .inl ⟨o.tokens, rfl⟩
  | cons t ts ih =>
    cases hstep : s.step d t a with
    | error halt b =>
      simp only [Parser.run_of_error hstep]
      refine ⟨⟨ts ++ [eof], rfl⟩, fun v hv => ?_, fun blame hblame => ?_⟩
      · cases hv
      · cases hblame
        exact h.recent_of_step hstep
    | ok next b =>
      obtain ⟨o', ho', hnext⟩ := h.step hstep
      obtain ⟨hfront, hok, herror⟩ := ih hnext b
      simp only [Parser.run_of_ok hstep]
      refine ⟨?_, fun v hv => ?_, fun blame hblame => ?_⟩
      · exact (List.prefix_cons_inj t).2 hfront
      · rw [hok v hv, List.cons_append]
      · rw [← List.singleton_append, ← List.append_assoc, ← (tokens_step ho').1]
        exact herror blame hblame

end Outline

/-- Of the tokens up to a recent one, those behind it are the rest of a list or of a quoted form. -/
theorem Blame.Recent.exists_late (h : blame.Recent ts) :
    ∃ early late, ts = early ++ blame.token :: late ∧
      (late = [] ∨ blame.cause = .outOfMemory ∧
        ((∃ opening forms closing,
            blame.token :: late = (Form.list opening forms closing).tokens) ∨
          ∃ mark form, blame.token :: late = (Form.quote mark form).tokens)) := by
  obtain ⟨before, hts⟩ | ⟨hcause, before, form, hts, hfirst⟩ := h
  · exact ⟨before, [], hts, .inl rfl⟩
  · rw [hts, ← hfirst]
    cases form with
    | atom t => exact ⟨before, [], rfl, .inl rfl⟩
    | list opening forms closing =>
      exact ⟨before, _, rfl, .inr ⟨hcause, .inl ⟨opening, forms, closing, rfl⟩⟩⟩
    | quote mark form => exact ⟨before, _, rfl, .inr ⟨hcause, .inr ⟨mark, form, rfl⟩⟩⟩

section Result

variable {input : Bytes}

theorem result_parse (input : Bytes) (a : Arena) (d : Nat) : (parse input a d).result =
    (Parser.run d (Token.eof input) (Token.all input) {} a).result.mapError
      (Halt.map (Blame.locate input)) :=
  rfl

theorem result_parse_eq_ok_iff {v : Ref} : (parse input a d).result = .ok v ↔
    (Parser.run d (Token.eof input) (Token.all input) {} a).result = .ok v := by
  rw [result_parse]
  cases (Parser.run d (Token.eof input) (Token.all input) {} a).result <;> simp [Except.mapError]

theorem result_parse_eq_failure_iff {e : ParseFailure} :
    (parse input a d).result = .error (.failure e) ↔
      ∃ blame, (Parser.run d (Token.eof input) (Token.all input) {} a).result =
        .error (.failure blame) ∧ Blame.locate input blame = e := by
  rw [result_parse]
  rcases (Parser.run d (Token.eof input) (Token.all input) {} a).result with (blame | f) | v <;>
    simp [Except.mapError, Halt.map]

end Result

theorem pulled_parse (input : Bytes) (a : Arena) (d : Nat) :
    (parse input a d).pulled <+: Token.stream input ∧
      (∀ v, (parse input a d).result = .ok v →
        (parse input a d).pulled = Token.stream input) ∧
      ∀ e, (parse input a d).result = .error (.failure e) →
        ∃ blame : Blame, Blame.locate input blame = e ∧
          blame.Recent (parse input a d).pulled := by
  have hempty : (Outline.top []).Framed ({} : Stack).frames := .top []
  obtain ⟨hfront, hok, herror⟩ :=
    hempty.pulled_run (d := d) (Token.eof input) (Token.all input) a
  refine ⟨hfront, fun v hv => hok v (result_parse_eq_ok_iff.1 hv), fun e he => ?_⟩
  obtain ⟨blame, hblame, rfl⟩ := result_parse_eq_failure_iff.1 he
  exact ⟨blame, rfl, herror blame hblame⟩

end Sexpr
