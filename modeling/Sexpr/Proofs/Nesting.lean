import Sexpr.Proofs.Limit

/-! # Levels of nesting

The lists and quotes around a token follow from the kinds of the tokens before it, and the parser
has a frame for each of them. In taking in a token, the parser asks for the number of levels that it
may open only if the token opens one.
-/

namespace Sexpr

inductive Opener
  | list
  | quote
deriving DecidableEq

/-- The levels that are open, the innermost first. -/
abbrev Nesting := List Opener

namespace Nesting

/-- A form that ends is the form of all quotes right in front of it, so these end with it. -/
def settle (n : Nesting) : Nesting := n.dropWhile (· = .quote)

def next (n : Nesting) : Token.Kind → Nesting
  | .leftParen => .list :: n
  | .quote => .quote :: n
  | .rightParen =>
    match n with
    | .list :: outer => settle outer
    | _ => n
  | .integer | .string | .symbol => n.settle
  | .endOfInput | .invalid => n

/-- Levels that are open behind some tokens of a text. -/
def behind (ts : List Token) : Nesting := ts.foldl (fun n t => n.next t.kind) []

/-- Number of lists and quotes around whatever follows some tokens of a text. -/
def level (before : List Token) : Nat := (behind before).length

variable {n : Nesting} {k : Token.Kind}

theorem length_settle_le (n : Nesting) : n.settle.length ≤ n.length :=
  (List.dropWhile_sublist _).length_le

theorem length_next_of_opens (h : k.opens = true) : (n.next k).length = n.length + 1 := by
  cases k <;> first | rfl | cases h

theorem length_next_le (h : k.opens = false) : (n.next k).length ≤ n.length := by
  have hsettle := length_settle_le n
  cases k with
  | leftParen | quote => cases h
  | integer | string | symbol => exact hsettle
  | rightParen =>
    rcases n with _ | ⟨_ | _, outer⟩
    · exact Nat.le_refl _
    · exact (length_settle_le outer).trans (Nat.le_succ _)
    · exact Nat.le_refl _
  | endOfInput | invalid => exact Nat.le_refl _

theorem next_of_isAtom (h : k.isAtom = true) : n.next k = n.settle := by
  cases k <;> first | rfl | cases h

end Nesting

def Frame.opener : Frame → Opener
  | .list _ _ => .list
  | .quote _ => .quote

def Frame.token : Frame → Token
  | .list opening _ => opening
  | .quote mark => mark

theorem Token.blame_of_charge {α : Type} {t : Token} {build : Build α} {a b : Arena} {blame : Blame}
    (h : t.charge build a = .error (.failure blame) b) : blame = ⟨.outOfMemory, t⟩ := by
  cases hbuild : build a with
  | ok v c => cases (charge_eq_of_ok hbuild).symm.trans h
  | error halt c =>
    have hcharge := (charge_eq_of_error hbuild).symm.trans h
    cases halt with
    | failure e =>
      cases hcharge
      rfl
    | fault f => cases hcharge

namespace Stack

def nesting (s : Stack) : Nesting := s.frames.map Frame.opener

def read (maxDepth : Nat) (s : Stack) (ts : List Token) : Parse Stack :=
  ts.foldlM (step maxDepth) s

/-- Calls under way while the next token is taken in, each nested in the one before: one for each
list or quote whose end is still to come, and one for the token. -/
def calls (s : Stack) : Nat := s.frames.length + 1

variable {d e : Nat} {s next : Stack} {t : Token} {ts us : List Token} {a b : Arena} {blame : Blame}

@[simp] theorem length_nesting (s : Stack) : s.nesting.length = s.frames.length := List.length_map _

/-- While a form is placed, nothing but room can be lacking, and it is lacking for the form or for a
quote in front of it. -/
theorem blame_of_place {p : Token → Prop} {v : Ref} {frames : List Frame} {forms : OpenList}
    (ht : p t) (hframes : ∀ frame ∈ frames, p frame.token)
    (h : place v t frames forms a = .error (.failure blame) b) :
    blame.cause = .outOfMemory ∧ p blame.token := by
  induction frames generalizing v t a with
  | nil =>
    rcases bind_eq_error h with hcharge | ⟨_, _, _, hpure⟩
    · cases Token.blame_of_charge hcharge
      exact ⟨rfl, ht⟩
    · cases hpure
  | cons frame frames ih =>
    rw [List.forall_mem_cons] at hframes
    cases frame with
    | list opening items =>
      rcases bind_eq_error h with hcharge | ⟨_, _, _, hpure⟩
      · cases Token.blame_of_charge hcharge
        exact ⟨rfl, ht⟩
      · cases hpure
    | quote mark =>
      rcases bind_eq_error h with hsymbol | ⟨symbol, c, _, h⟩
      · cases Token.blame_of_charge hsymbol
        exact ⟨rfl, hframes.1⟩
      rcases bind_eq_error h with hcouple | ⟨list, c, _, h⟩
      · cases Token.blame_of_charge hcouple
        exact ⟨rfl, hframes.1⟩
      exact ih hframes.1 hframes.2 h

theorem place_eq_error {v : Ref} {frames : List Frame} {forms : OpenList}
    (h : place v t frames forms a = .error (.failure blame) b) : blame.cause = .outOfMemory :=
  (blame_of_place (p := fun _ => True) trivial (fun _ _ => trivial) h).1

theorem nesting_place {v : Ref} {frames : List Frame} {forms : OpenList}
    (h : place v t frames forms a = .ok next b) :
    next.nesting = Nesting.settle (frames.map Frame.opener) := by
  induction frames generalizing v t a with
  | nil =>
    rcases bind_eq_ok h with ⟨_, _, _, hpure⟩
    cases hpure
    rfl
  | cons frame frames ih =>
    cases frame with
    | list opening items =>
      rcases bind_eq_ok h with ⟨_, _, _, hpure⟩
      cases hpure
      rfl
    | quote mark =>
      rcases bind_eq_ok h with ⟨_, _, _, h⟩
      rcases bind_eq_ok h with ⟨_, _, _, h⟩
      exact ih h

theorem step_of_opens (h : t.kind.opens = true) : ∃ frame : Frame,
    (∀ n : Nesting, n.next t.kind = frame.opener :: n) ∧
      ∀ d, s.step d t = s.descend d t frame := by
  cases hk : t.kind with
  | leftParen =>
    refine ⟨.list t {}, fun _ => rfl, fun d => ?_⟩
    rw [step, Token.role_leftParen hk]
  | quote =>
    refine ⟨.quote t, fun _ => rfl, fun d => ?_⟩
    rw [step, Token.role_quote hk]
  | _ =>
    rw [hk] at h
    cases h

theorem step_too_deep (h : t.kind.opens = true) (hd : d ≤ s.frames.length) (a : Arena) :
    s.step d t a = .error (.failure ⟨.nestingTooDeep, t⟩) a := by
  rcases step_of_opens (s := s) h with ⟨frame, _, hstep⟩
  rw [hstep, descend, if_neg (Nat.not_lt.2 hd)]
  rfl

theorem step_deeper (h : t.kind.opens = true) (hd : s.frames.length < d) (a : Arena) :
    ∃ frame : Frame, (∀ n : Nesting, n.next t.kind = frame.opener :: n) ∧
      s.step d t a = .ok { s with frames := frame :: s.frames } a := by
  rcases step_of_opens (s := s) h with ⟨frame, hopener, hstep⟩
  refine ⟨frame, hopener, ?_⟩
  rw [hstep, descend, if_pos hd]
  rfl

/-- Where there are levels left, it does not matter how many. -/
theorem step_congr (h : t.kind.opens = true → s.frames.length < d ∧ s.frames.length < e) :
    s.step d t = s.step e t := by
  cases hopens : t.kind.opens with
  | true =>
    rcases h hopens with ⟨hd, he⟩
    rcases step_of_opens (s := s) hopens with ⟨frame, _, hstep⟩
    rw [hstep, hstep, descend, descend, if_pos hd, if_pos he]
  | false =>
    cases hrole : t.role with
    | error halt => rw [step, step, hrole]
    | ok role =>
      have hsuits := Token.suits_of_role hrole
      cases role with
      | opening | quoting =>
        rw [Token.Kind.Suits] at hsuits
        rw [hsuits] at hopens
        cases hopens
      | _ => rw [step, step, hrole]

theorem cause_ne_nestingTooDeep (hd : t.kind.opens = true → s.frames.length < d)
    (h : s.step d t a = .error (.failure blame) b) : blame.cause ≠ .nestingTooDeep := by
  intro hcause
  cases hrole : t.role with
  | error halt =>
    rw [step, hrole] at h
    cases h
    rcases Token.cause_of_role hrole with hc | hc | hc <;> cases hc.symm.trans hcause
  | ok role =>
    have hsuits := Token.suits_of_role hrole
    cases role with
    | opening | quoting =>
      rw [Token.Kind.Suits] at hsuits
      have hopens : t.kind.opens = true := by rw [hsuits]; rfl
      rcases step_deeper hopens (hd hopens) a with ⟨frame, _, hstep⟩
      cases hstep.symm.trans h
    | atom node =>
      rw [step, hrole] at h
      rcases bind_eq_error h with hcharge | ⟨v, c, _, hplace⟩
      · cases Token.blame_of_charge hcharge
        cases hcause
      · cases (place_eq_error hplace).symm.trans hcause
    | closing =>
      rw [step, hrole] at h
      rcases s with ⟨_ | ⟨opening, items⟩ | mark, frames⟩
      · cases h
        cases hcause
      · cases (place_eq_error h).symm.trans hcause
      · cases h
        cases hcause

theorem frames_lt_of_step (h : s.step d t a = .ok next b) (hopens : t.kind.opens = true) :
    s.frames.length < d := by
  by_contra hd
  cases (step_too_deep hopens (Nat.not_lt.1 hd) a).symm.trans h

/-- The frames follow the nesting of the tokens. -/
theorem nesting_step (h : s.step d t a = .ok next b) : next.nesting = s.nesting.next t.kind := by
  cases hrole : t.role with
  | error halt =>
    rw [step, hrole] at h
    cases h
  | ok role =>
    have hsuits := Token.suits_of_role hrole
    cases role with
    | opening | quoting =>
      rw [Token.Kind.Suits] at hsuits
      have hopens : t.kind.opens = true := by rw [hsuits]; rfl
      rcases step_deeper hopens (frames_lt_of_step h hopens) a with ⟨frame, hopener, hstep⟩
      cases hstep.symm.trans h
      rw [hopener]
      rfl
    | atom node =>
      rw [step, hrole] at h
      rcases bind_eq_ok h with ⟨v, c, _, hplace⟩
      rw [Nesting.next_of_isAtom hsuits]
      exact nesting_place hplace
    | closing =>
      rw [step, hrole] at h
      rw [Token.Kind.Suits] at hsuits
      rw [hsuits]
      rcases s with ⟨_ | ⟨opening, items⟩ | mark, frames⟩
      · cases h
      · exact nesting_place h
      · cases h

theorem read_cons : s.read d (t :: ts) = (s.step d t >>= fun next => next.read d ts) :=
  List.foldlM_cons

theorem read_append : s.read d (ts ++ us) = (s.read d ts >>= fun next => next.read d us) :=
  List.foldlM_append

theorem read_mono (hde : d ≤ e) (h : s.read d ts a = .ok next b) : s.read e ts a = .ok next b := by
  induction ts generalizing s a with
  | nil => exact h
  | cons t ts ih =>
    rw [read_cons] at h
    rcases bind_eq_ok h with ⟨first, c, hstep, hread⟩
    have hcongr : s.step d t = s.step e t := step_congr fun hopens =>
      have hlt := frames_lt_of_step hstep hopens
      ⟨hlt, hlt.trans_le hde⟩
    rw [read_cons, bind_eq_of_ok (hcongr ▸ hstep)]
    exact ih hread

theorem nesting_read (h : s.read d ts a = .ok next b) :
    next.nesting = ts.foldl (fun n t => n.next t.kind) s.nesting := by
  induction ts generalizing s a with
  | nil =>
    cases h
    rfl
  | cons t ts ih =>
    rw [read_cons] at h
    rcases bind_eq_ok h with ⟨first, c, hstep, hread⟩
    rw [List.foldl_cons, ← nesting_step hstep]
    exact ih hread

theorem length_frames_read (h : ({} : Stack).read d ts a = .ok next b) :
    next.frames.length = Nesting.level ts := by
  rw [← length_nesting, nesting_read h]
  rfl

theorem length_frames_read_le (hs : s.frames.length ≤ d) (h : s.read d ts a = .ok next b) :
    next.frames.length ≤ d := by
  induction ts generalizing s a with
  | nil =>
    cases h
    exact hs
  | cons t ts ih =>
    rw [read_cons] at h
    rcases bind_eq_ok h with ⟨first, c, hstep, hread⟩
    apply ih _ hread
    rw [← length_nesting, nesting_step hstep]
    cases hopens : t.kind.opens with
    | true =>
      rw [Nesting.length_next_of_opens hopens, length_nesting]
      exact frames_lt_of_step hstep hopens
    | false =>
      have hle := Nesting.length_next_le (n := s.nesting) hopens
      rw [length_nesting] at hle
      exact hle.trans hs

theorem level_lt_of_read {early later : List Token}
    (h : ({} : Stack).read d (early ++ t :: later) a = .ok next b) (hopens : t.kind.opens = true) :
    Nesting.level early < d := by
  rw [read_append] at h
  rcases bind_eq_ok h with ⟨s, c, hearly, h⟩
  rw [read_cons] at h
  rcases bind_eq_ok h with ⟨_, _, hstep, _⟩
  rw [← length_frames_read hearly]
  exact frames_lt_of_step hstep hopens

end Stack

end Sexpr
