import Sexpr.Cli.Run
import Sexpr.Proofs.Listing
import Sexpr.Proofs.Pulling

/-! # The places that a listing shows

A position that is advanced over a text piece by piece is the position that is found by scanning the
text again, however it is cut. A listing advances its position from token to token, so each line
that it shows, and the obstacle at which it ends, has the position of its token. The lines are those
of the tokens before the first one that stops the listing.
-/

namespace Sexpr

namespace Position

end Position

/-- Indentation of a token of a kind inside of open lists. A closing parenthesis stands under the
opening one. -/
def Token.Kind.indentation (n : Nat) : Token.Kind → Nat
  | rightParen => n - 1
  | _ => n

namespace Listing

open Token (openLists)

/-- A token that ends a listing: it stands in the way, or it is to be shown and indented too far. -/
inductive Stops (style : Style) (before : List Token) (t : Token) : Obstacle → Prop
  | obstructs (h : t.Obstructs before) : Stops style before t t.obstacle
  | tooDeep (hprint : style.print = true) (hclear : ¬ t.Obstructs before)
      (hdeep : widest < t.kind.indentation (openLists before)) : Stops style before t .tooDeep

/-- Lines of the tokens of a text that stand behind some others, if tokens are shown. -/
def Style.shown (style : Style) (input : Bytes) (before : List Token) : List Token → List String
  | [] => []
  | t :: ts =>
    let later := style.shown input (before ++ [t]) ts
    if style.print then
      style.line (t.kind.indentation (openLists before)) (Position.ofOffset input t.offset) t ::
        later
    else later

/-- What a listing of the tokens behind some others comes to. It goes on behind each token that does
not end it, and tells of one that does at its place. -/
inductive Comes (style : Style) (input : Bytes) : List Token → List Token → Listing → Prop
  | finished {before} (w : Walk) : Comes style input before [] ⟨[], .ok w⟩
  | stopped {before t obstacle} (ts : List Token) (h : Stops style before t obstacle) :
    Comes style input before (t :: ts) ⟨[], .error (obstacle, Position.ofOffset input t.offset)⟩
  | passed {before t ts l} (h : ∀ obstacle, ¬ Stops style before t obstacle)
      (hlater : Comes style input (before ++ [t]) ts l) :
    Comes style input before (t :: ts) ⟨style.shown input before [t] ++ l.lines, l.ending⟩

variable {style : Style} {input : Bytes} {before ts us : List Token} {t : Token} {w : Walk}
  {obstacle : Obstacle} {l : Listing}

theorem Style.shown_append (style : Style) (input : Bytes) (before ts us : List Token) :
    style.shown input before (ts ++ us) =
      style.shown input before ts ++ style.shown input (before ++ ts) us := by
  induction ts generalizing before with
  | nil => simp [shown]
  | cons t ts ih => cases hprint : style.print <;> simp [shown, hprint, ih]

theorem Walk.indentation_of_enter {n : Nat} {behind : Walk} (h : w.enter t = .ok (n, behind)) :
    n = t.kind.indentation w.depth := by
  cases hk : t.kind with
  | invalid => simp [enter, hk] at h
  | rightParen =>
    simp only [enter, hk] at h
    split at h <;> cases h
    rfl
  | _ =>
    simp only [enter, hk] at h
    cases h
    rfl

theorem Walk.enter_approach (h : w.Behind input before) (hoffset : w.offset ≤ t.offset)
    (ht : ¬ t.Obstructs before) :
    (w.approach t).enter t = .ok (t.kind.indentation (openLists before), w.pass t) := by
  have happroach := h.approach hoffset
  obtain ⟨indentation, behind, henter, _⟩ := enter_of_clear ht happroach.depth
  rw [pass, henter, indentation_of_enter henter, happroach.depth]

theorem ofTokens_of_stops (h : w.Behind input before) (hoffset : w.offset ≤ t.offset)
    (ht : Stops style before t obstacle) (ts : List Token) :
    ofTokens style w (t :: ts) = ⟨[], .error (obstacle, Position.ofOffset input t.offset)⟩ := by
  cases ht with
  | obstructs ht =>
    have henter := Walk.enter_of_obstructs ht (h.approach hoffset).depth
    rw [ofTokens, henter, Walk.approach_position h hoffset]
  | tooDeep hprint hclear hdeep =>
    rw [ofTokens, Walk.enter_approach h hoffset hclear, Walk.approach_position h hoffset]
    simp [hprint, hdeep]

theorem ofTokens_of_not_stops (h : w.Behind input before) (hoffset : w.offset ≤ t.offset)
    (ht : ∀ obstacle, ¬ Stops style before t obstacle) (ts : List Token) :
    ofTokens style w (t :: ts) =
      ⟨style.shown input before [t] ++ (ofTokens style (w.pass t) ts).lines,
        (ofTokens style (w.pass t) ts).ending⟩ := by
  have hclear : ¬ t.Obstructs before := fun hobstructs => ht _ (.obstructs hobstructs)
  rw [ofTokens, Walk.enter_approach h hoffset hclear, Walk.approach_position h hoffset]
  cases hprint : style.print with
  | false => simp [Style.shown, hprint]
  | true =>
    have hwide : ¬ widest < t.kind.indentation (openLists before) :=
      fun hdeep => ht _ (.tooDeep hprint hclear hdeep)
    simp [Style.shown, hprint, hwide]

/-- The walk keeps its place at every token that it passes. -/
theorem comes_ofTokens (h : w.Behind input before) (hoffset : ∀ t ∈ ts, w.offset ≤ t.offset)
    (hpairwise : ts.Pairwise fun t u => t.offset < u.offset) :
    Comes style input before ts (ofTokens style w ts) := by
  induction ts generalizing before w with
  | nil => exact .finished w
  | cons t ts ih =>
    have hhere := hoffset t List.mem_cons_self
    rw [List.pairwise_cons] at hpairwise
    by_cases hstops : ∃ obstacle, Stops style before t obstacle
    · obtain ⟨obstacle, ht⟩ := hstops
      rw [ofTokens_of_stops h hhere ht]
      exact .stopped ts ht
    · have ht : ∀ obstacle, ¬ Stops style before t obstacle := not_exists.1 hstops
      have hclear : ¬ t.Obstructs before := fun hobstructs => ht _ (.obstructs hobstructs)
      obtain ⟨hbehind, hplace, _⟩ := h.pass hhere hclear
      rw [ofTokens_of_not_stops h hhere ht]
      apply Comes.passed ht
      apply ih hbehind _ hpairwise.2
      intro u hu
      rw [hplace]
      exact Nat.le_of_lt (hpairwise.1 u hu)

theorem comes_ofInput (style : Style) (input : Bytes) :
    Comes style input [] (Token.all input) (ofInput style input) := by
  apply comes_ofTokens ⟨rfl, rfl, rfl⟩ fun t _ => Nat.zero_le t.offset
  exact Lexes.pairwise_offset (Lexes.iff_eq_all.2 rfl)

theorem Comes.exists_passed (h : Comes style input before ts l) :
    ∃ passed left, ts = passed ++ left ∧ l.lines = style.shown input before passed ∧
      (∀ early t late, passed = early ++ t :: late →
        ∀ obstacle, ¬ Stops style (before ++ early) t obstacle) ∧
      ((left = [] ∧ ∃ w, l.ending = .ok w) ∨
        ∃ t after obstacle, left = t :: after ∧ Stops style (before ++ passed) t obstacle ∧
          l.ending = .error (obstacle, Position.ofOffset input t.offset)) := by
  induction h with
  | finished w => exact ⟨[], [], rfl, rfl, by simp, .inl ⟨rfl, w, rfl⟩⟩
  | @stopped before t obstacle ts h =>
    refine ⟨[], t :: ts, rfl, rfl, by simp, .inr ⟨t, ts, obstacle, rfl, ?_, rfl⟩⟩
    rwa [List.append_nil]
  | @passed before t ts l h _ ih =>
    obtain ⟨passed, left, rfl, hlines, hpassed, hending⟩ := ih
    refine ⟨t :: passed, left, rfl, ?_, ?_, by simpa using hending⟩
    · have hshown := Style.shown_append style input before [t] passed
      rw [List.singleton_append] at hshown
      rw [hshown, ← hlines]
    · intro early u late heq
      cases early with
      | nil =>
        cases heq
        simpa using h
      | cons v early =>
        cases heq
        simpa using hpassed early u late rfl

end Listing

theorem exists_place_of_failure {input : Bytes} {a : Arena} {d : Nat} {e : ParseFailure}
    (h : (parse input a d).result = .error (.failure e)) :
    ∃ t ∈ Token.stream input, e.offset = t.offset ∧ e.text = Utf8.decodeLossy t.text ∧
      e.position = Position.ofOffset input t.offset := by
  obtain ⟨hfront, _, herror⟩ := pulled_parse input a d
  obtain ⟨blame, rfl, hrecent⟩ := herror e h
  obtain ⟨early, late, hpulled, _⟩ := hrecent.exists_late
  have hmem : blame.token ∈ (parse input a d).pulled := by simp [hpulled]
  exact ⟨blame.token, hfront.subset hmem, rfl, rfl, rfl⟩

end Sexpr
