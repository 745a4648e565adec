import Sexpr.Cli.Listing
import Sexpr.Proofs.Form

/-! # What a listing counts and where it ends

A listing walks the tokens of a text with a few counters. The positions that it keeps are those that
are found by scanning the text again, its depth is the number of lists that are open, and it comes
to its end unless a token stands in its way. Past the tokens of a row of forms it has counted the
forms.
-/

namespace Sexpr

namespace Position

theorem ofConsumed_append_singleton (s : Bytes) (b : UInt8) :
    ofConsumed (s ++ [b]) = (ofConsumed s).step b := by
  by_cases hb : b = Byte.newline
  · subst hb
    simp [ofConsumed, step]
    omega
  · simp [ofConsumed, step, hb]
    omega

theorem advance_origin (s : Bytes) : ({} : Position).advance s = ofConsumed s := by
  induction s using List.reverseRecOn with
  | nil => rfl
  | append_singleton s b ih =>
    rw [advance_append, ih, ofConsumed_append_singleton]
    rfl

theorem advance_ofOffset (input : Bytes) {m n : Nat} (h : m ≤ n) :
    (ofOffset input m).advance ((input.drop m).take (n - m)) = ofOffset input n := by
  have htake : input.take n = input.take m ++ (input.drop m).take (n - m) := by
    rw [← List.take_add, Nat.add_sub_cancel' h]
  rw [ofOffset, ofOffset, ← advance_origin, ← advance_origin, htake, advance_append]

end Position

theorem Lexes.pairwise_offset {s : Bytes} {offset : Nat} {ts : List Token}
    (h : Lexes s offset ts) : ts.Pairwise fun t u => t.offset < u.offset := by
  induction h with
  | done => exact .nil
  | blank _ _ ih => exact ih
  | token _ hs h ih =>
    refine List.pairwise_cons.2 ⟨fun u hu => ?_, ih⟩
    have htext := List.length_pos_iff.2 (Lexeme.text_ne_nil_of_scan hs)
    have hbehind := (h.offset_bounds hu).1
    dsimp only
    omega

namespace Token

/-- Lists that are open behind a token of a kind. A parenthesis that closes none of them changes
nothing. -/
def Kind.listsBehind (n : Nat) : Kind → Nat
  | leftParen => n + 1
  | rightParen => n - 1
  | _ => n

def openLists (ts : List Token) : Nat := ts.foldl (fun n t => t.kind.listsBehind n) 0

/-- Tokens whose parentheses match one another. -/
inductive Balanced : List Token → Prop
  | nil : Balanced []
  | single {t ts} (hopening : t.kind ≠ .leftParen) (hclosing : t.kind ≠ .rightParen)
      (h : Balanced ts) : Balanced (t :: ts)
  | enclosed {opening inner closing ts} (hopening : opening.kind = .leftParen)
      (hinner : Balanced inner) (hclosing : closing.kind = .rightParen) (h : Balanced ts) :
    Balanced (opening :: (inner ++ closing :: ts))

/-- An opening parenthesis stands before, and all parentheses behind it match one another. -/
def HasOpening (before : List Token) : Prop :=
  ∃ early opening inner, before = early ++ opening :: inner ∧ opening.kind = .leftParen ∧
    Balanced inner

/-- A token that stands in the way of a listing is invalid, or it is a closing parenthesis and
nothing is open before it. -/
def Obstructs (before : List Token) (t : Token) : Prop :=
  t.kind = .invalid ∨ t.kind = .rightParen ∧ ¬ HasOpening before

variable {before ts us : List Token} {t : Token} {n : Nat}

theorem Balanced.append (h : Balanced ts) (h' : Balanced us) : Balanced (ts ++ us) := by
  induction h with
  | nil => exact h'
  | single hopening hclosing _ ih => exact .single hopening hclosing ih
  | @enclosed opening inner closing ts hopening hinner hclosing _ _ ih =>
    rw [List.cons_append, List.append_assoc, List.cons_append]
    exact .enclosed hopening hinner hclosing ih

theorem Balanced.foldl_listsBehind (h : Balanced ts) (n : Nat) :
    ts.foldl (fun n t => t.kind.listsBehind n) n = n := by
  induction h generalizing n with
  | nil => rfl
  | @single t ts hopening hclosing _ ih =>
    rw [List.foldl_cons, ih]
    cases hk : t.kind <;> first | rfl | contradiction
  | enclosed hopening _ hclosing _ ihinner ih =>
    rw [List.foldl_cons, List.foldl_append, List.foldl_cons, hopening, hclosing, ihinner, ih]
    rfl

theorem openLists_append_singleton (ts : List Token) (t : Token) :
    openLists (ts ++ [t]) = t.kind.listsBehind (openLists ts) := by
  rw [openLists, List.foldl_append]
  rfl

theorem exists_opening (h : openLists ts = n + 1) :
    ∃ early opening inner, ts = early ++ opening :: inner ∧ opening.kind = .leftParen ∧
      Balanced inner ∧ openLists early = n := by
  induction hlength : ts.length using Nat.strongRecOn generalizing ts n with
  | _ length ih =>
    subst hlength
    rcases List.eq_nil_or_concat ts with rfl | ⟨ts, t, rfl⟩
    · cases h
    rw [List.concat_eq_append] at h ih ⊢
    rw [openLists_append_singleton] at h
    have hshorter : ts.length < (ts ++ [t]).length := by simp
    have hinside (hopening : t.kind ≠ .leftParen) (hclosing : t.kind ≠ .rightParen)
        (h : openLists ts = n + 1) : ∃ early opening inner, ts ++ [t] = early ++ opening :: inner ∧
          opening.kind = .leftParen ∧ Balanced inner ∧ openLists early = n := by
      rcases ih _ hshorter h rfl with ⟨early, opening, inner, rfl, hk, hinner, hearly⟩
      exact ⟨early, opening, inner ++ [t], by simp, hk,
        hinner.append (.single hopening hclosing .nil), hearly⟩
    cases hk : t.kind with
    | leftParen =>
      rw [hk] at h
      exact ⟨ts, t, [], rfl, hk, .nil, Nat.succ.inj h⟩
    | rightParen =>
      rw [hk, Kind.listsBehind] at h
      rcases ih _ hshorter (show openLists ts = n + 1 + 1 by omega) rfl with
        ⟨early, opening, inner, rfl, hopening, hinner, hearly⟩
      have hearlier : early.length < (early ++ opening :: inner ++ [t]).length := by simp
      rcases ih _ hearlier hearly rfl with ⟨before, outer, between, rfl, houter, hbetween, hbefore⟩
      exact ⟨before, outer, between ++ opening :: (inner ++ [t]), by simp, houter,
        hbetween.append (.enclosed hopening hinner hk .nil), hbefore⟩
    | _ =>
      rw [hk] at h
      exact hinside (by simp [hk]) (by simp [hk]) h

theorem openLists_ne_zero_iff : openLists ts ≠ 0 ↔ HasOpening ts := by
  constructor
  · intro h
    rcases exists_opening (Nat.succ_pred_eq_of_ne_zero h).symm with
      ⟨early, opening, inner, hts, hk, hinner, _⟩
    exact ⟨early, opening, inner, hts, hk, hinner⟩
  · rintro ⟨early, opening, inner, rfl, hk, hinner⟩
    rw [openLists, List.foldl_append, List.foldl_cons, hk, hinner.foldl_listsBehind]
    exact Nat.succ_ne_zero _

theorem obstructs_iff : t.Obstructs before ↔
    t.kind = .invalid ∨ t.kind = .rightParen ∧ openLists before = 0 := by
  rw [Obstructs, ← openLists_ne_zero_iff, not_not]

/-- No token stands in the way of those behind it. -/
def IsClear (ts : List Token) : Prop :=
  ∀ before t after, ts = before ++ t :: after → ¬ t.Obstructs before

theorem isClear_nil : IsClear [] := by simp [IsClear]

theorem isClear_append_singleton : IsClear (ts ++ [t]) ↔ IsClear ts ∧ ¬ t.Obstructs ts := by
  constructor
  · intro h
    refine ⟨fun before u after hts => h before u (after ++ [t]) (by simp [hts]), ?_⟩
    exact h ts t [] rfl
  · rintro ⟨hts, ht⟩ before u after heq
    rcases List.eq_nil_or_concat after with rfl | ⟨after, last, rfl⟩
    · rcases List.append_inj' heq rfl with ⟨rfl, hlast⟩
      cases hlast
      exact ht
    · rw [List.concat_eq_append, ← List.cons_append, ← List.append_assoc] at heq
      exact hts before u after (List.append_inj' heq rfl).1

theorem isClear_or_exists_first (ts : List Token) : IsClear ts ∨
    ∃ before t after, ts = before ++ t :: after ∧ IsClear before ∧ t.Obstructs before := by
  induction ts using List.reverseRecOn with
  | nil => exact .inl isClear_nil
  | append_singleton ts t ih =>
    rcases ih with hclear | ⟨before, u, after, rfl, hfirst⟩
    · by_cases ht : t.Obstructs ts
      · exact .inr ⟨ts, t, [], rfl, hclear, ht⟩
      · exact .inl (isClear_append_singleton.2 ⟨hclear, ht⟩)
    · exact .inr ⟨before, u, after ++ [t], by simp, hfirst⟩

def obstacle (t : Token) : Listing.Obstacle :=
  if t.kind = .invalid then .invalid t.shown else .unexpectedClosing

end Token

namespace Form

theorem tokens_ne_nil (form : Form) : form.tokens ≠ [] := by
  cases form <;> exact List.cons_ne_nil _ _

theorem length_le_length_listTokens (forms : List Form) :
    forms.length ≤ (listTokens forms).length := by
  induction forms with
  | nil => exact Nat.le_refl _
  | cons form forms ih =>
    have hform := List.length_pos_iff.2 (tokens_ne_nil form)
    rw [listTokens, List.length_append, List.length_cons]
    omega

end Form

namespace Listing

open Token (openLists IsClear)

/-- The walk behind a token, or in front of it if the token stands in the way. -/
def Walk.pass (w : Walk) (t : Token) : Walk :=
  match (w.approach t).enter t with
  | .ok (_, behind) => behind
  | .error _ => w.approach t

def Walk.start (input : Bytes) : Walk := ⟨input, 0, {}, 0, 0, 0⟩

/-- What a walk knows behind some tokens: the text that is left, the position, and how many lists
are open. -/
structure Walk.Behind (input : Bytes) (before : List Token) (w : Walk) : Prop where
  ahead : w.ahead = input.drop w.offset
  position : w.position = Position.ofOffset input w.offset
  depth : w.depth = openLists before

variable {input : Bytes} {before rest : List Token} {t : Token} {w : Walk}

theorem Walk.approach_position (h : w.Behind input before) (ht : w.offset ≤ t.offset) :
    (w.approach t).position = Position.ofOffset input t.offset := by
  rw [approach, h.ahead, h.position]
  exact Position.advance_ofOffset input ht

theorem Walk.Behind.approach (h : w.Behind input before) (ht : w.offset ≤ t.offset) :
    (w.approach t).Behind input before where
  ahead := by
    rw [Walk.approach, h.ahead, List.drop_drop, Nat.add_sub_cancel' ht]
  position := approach_position h ht
  depth := h.depth

theorem Walk.count_eq (w : Walk) :
    w.count = { w with toplevel := w.toplevel + if w.depth = 0 then 1 else 0 } := by
  by_cases hzero : w.depth = 0 <;> simp [count, hzero]

theorem Walk.enter_of_clear (h : ¬ t.Obstructs before) (hdepth : w.depth = openLists before) :
    ∃ indentation behind, w.enter t = .ok (indentation, behind) ∧ behind.ahead = w.ahead ∧
      behind.offset = w.offset ∧ behind.position = w.position ∧
      behind.depth = t.kind.listsBehind w.depth := by
  rw [Token.obstructs_iff, ← hdepth] at h
  have hcount : w.count.ahead = w.ahead ∧ w.count.offset = w.offset ∧
      w.count.position = w.position ∧ w.count.depth = w.depth := by
    rw [count_eq]
    exact ⟨rfl, rfl, rfl, rfl⟩
  rcases hcount with ⟨hahead, hoffset, hposition, hdepth⟩
  cases hk : t.kind with
  | invalid => exact absurd (.inl hk) h
  | leftParen =>
    refine ⟨w.depth, { w.count with entered := w.entered + 1, depth := w.depth + 1 }, ?_, hahead,
      hoffset, hposition, rfl⟩
    rw [enter, hk]
  | rightParen =>
    have hopen : w.depth ≠ 0 := fun hzero => h (.inr ⟨hk, hzero⟩)
    refine ⟨w.depth - 1, { w with depth := w.depth - 1 }, ?_, rfl, rfl, rfl, rfl⟩
    simp [enter, hk, hopen]
  | quote => exact ⟨_, _, by rw [enter, hk], rfl, rfl, rfl, rfl⟩
  | _ => exact ⟨_, _, by rw [enter, hk], hahead, hoffset, hposition, hdepth⟩

theorem Walk.enter_of_obstructs (h : t.Obstructs before) (hdepth : w.depth = openLists before) :
    w.enter t = .error t.obstacle := by
  rw [Token.obstructs_iff, ← hdepth] at h
  rcases h with hk | ⟨hk, hzero⟩
  · rw [enter, Token.obstacle, hk]
    rfl
  · simp [enter, Token.obstacle, hk, hzero]

theorem Walk.Behind.pass (h : w.Behind input before) (ht : w.offset ≤ t.offset)
    (hclear : ¬ t.Obstructs before) : (w.pass t).Behind input (before ++ [t]) ∧
      (w.pass t).offset = t.offset ∧
      ∀ positions tokens, ofTokens ⟨false, positions⟩ w (t :: tokens) =
        ofTokens ⟨false, positions⟩ (w.pass t) tokens := by
  have happroach := h.approach ht
  rcases Walk.enter_of_clear hclear happroach.depth with
    ⟨indentation, behind, henter, hahead, hoffset, hposition, hdepth⟩
  have hpass : w.pass t = behind := by rw [Walk.pass, henter]
  rw [hpass]
  refine ⟨⟨?_, ?_, ?_⟩, hoffset, ?_⟩
  · rw [hahead, hoffset, happroach.ahead]
  · rw [hposition, hoffset, happroach.position]
  · rw [hdepth, happroach.depth, Token.openLists_append_singleton]
  · intro positions tokens
    rw [ofTokens, henter]
    rfl

/-- A walk that shows no tokens comes past those in front of which nothing stands in the way. -/
theorem walk_of_isClear (hall : Token.all input = before ++ rest) (hclear : IsClear before) :
    let w := before.foldl Walk.pass (.start input)
    w.Behind input before ∧ (∀ t ∈ rest, w.offset ≤ t.offset) ∧
      ∀ positions, ofInput ⟨false, positions⟩ input = ofTokens ⟨false, positions⟩ w rest := by
  induction before using List.reverseRecOn generalizing rest with
  | nil =>
    refine ⟨⟨rfl, rfl, rfl⟩, fun t _ => Nat.zero_le _, fun positions => ?_⟩
    rw [ofInput, hall]
    rfl
  | append_singleton before t ih =>
    rw [List.append_assoc] at hall
    rw [Token.isClear_append_singleton] at hclear
    rcases ih hall hclear.1 with ⟨hbehind, hoffset, hlisting⟩
    have hpass := hbehind.pass (hoffset t (by simp)) hclear.2
    rw [List.foldl_append, List.foldl_cons, List.foldl_nil]
    refine ⟨hpass.1, fun u hu => ?_, fun positions => ?_⟩
    · -- Tokens stand behind one another, so the walk never has to go back.
      have hpairwise := Lexes.pairwise_offset (Lexes.iff_eq_all.2 hall)
      have hrest := (List.pairwise_append.1 hpairwise).2.1
      rw [hpass.2.1]
      exact Nat.le_of_lt ((List.pairwise_cons.1 hrest).1 u hu)
    · rw [hlisting]
      exact hpass.2.2 positions rest

theorem ofInput_of_isClear (hclear : IsClear (Token.all input)) (positions : Bool) :
    ofInput ⟨false, positions⟩ input =
      ⟨[], .ok ((Token.all input).foldl Walk.pass (.start input))⟩ := by
  have hwalk := walk_of_isClear (List.append_nil _).symm hclear
  exact hwalk.2.2 positions

/-- A walk ends in front of the first obstacle and knows its place. -/
theorem ofInput_of_obstructs {after : List Token} (hall : Token.all input = before ++ t :: after)
    (hclear : IsClear before) (ht : t.Obstructs before) (positions : Bool) :
    ofInput ⟨false, positions⟩ input =
      ⟨[], .error (t.obstacle, Position.ofOffset input t.offset)⟩ := by
  rcases walk_of_isClear hall hclear with ⟨hbehind, hoffset, hlisting⟩
  have hbelow := hoffset t (by simp)
  have happroach := hbehind.approach hbelow
  rw [hlisting, ofTokens, Walk.enter_of_obstructs ht happroach.depth,
    ← Walk.approach_position hbehind hbelow]

theorem Walk.entered_pass (w : Walk) (t : Token) :
    (w.pass t).entered = w.entered + Int32.ofNat (if t.kind = .leftParen then 1 else 0) := by
  cases hk : t.kind with
  | rightParen => by_cases hzero : w.depth = 0 <;> simp [pass, enter, hk, approach, hzero]
  | leftParen | quote | invalid => simp [pass, enter, hk, approach]
  | _ => simp [pass, enter, hk, approach, count_eq]

theorem Walk.entered_foldl_pass (ts : List Token) (w : Walk) :
    (ts.foldl pass w).entered = w.entered + Int32.ofNat (ts.countP (·.kind = .leftParen)) := by
  induction ts generalizing w with
  | nil => exact (Int32.add_zero _).symm
  | cons t ts ih =>
    rw [List.foldl_cons, ih, entered_pass, List.countP_cons, Int32.add_assoc, ← Int32.ofNat_add,
      Nat.add_comm]
    simp only [decide_eq_true_eq]

/-- Between two places of a walk some forms begin and end, which count if no list is open. -/
structure Walk.Counts (forms : Nat) (w w' : Walk) : Prop where
  depth : w'.depth = w.depth
  toplevel : w'.toplevel = w.toplevel + Int32.ofNat (if w.depth = 0 then forms else 0)

theorem Walk.Counts.trans {m n : Nat} {w w' w'' : Walk} (h : Counts m w w')
    (h' : Counts n w' w'') : Counts (m + n) w w'' where
  depth := h'.depth.trans h.depth
  toplevel := by
    rw [h'.toplevel, h.toplevel, h.depth, Int32.add_assoc, ← Int32.ofNat_add]
    split <;> rfl

theorem Walk.Counts.nothing {w w' : Walk} (hdepth : w'.depth = w.depth)
    (htoplevel : w'.toplevel = w.toplevel) : Counts 0 w w' :=
  ⟨hdepth, by rw [htoplevel, ite_self]; exact (Int32.add_zero _).symm⟩

theorem Walk.counts_approach (w : Walk) (t : Token) : Counts 0 w (w.approach t) :=
  .nothing rfl rfl

theorem Walk.counts_count (w : Walk) : Counts 1 w w.count := by
  rw [count_eq]
  refine ⟨rfl, ?_⟩
  split <;> rfl

theorem Walk.counts_pass_atom (h : t.kind.isAtom = true) (w : Walk) : Counts 1 w (w.pass t) := by
  have hpass : w.pass t = (w.approach t).count := by
    cases hk : t.kind with
    | integer | string | symbol => rw [pass, enter, hk]
    | _ =>
      rw [hk] at h
      cases h
  rw [hpass, ← Nat.zero_add 1]
  exact (counts_approach w t).trans (counts_count _)

theorem Walk.counts_pass_quote (h : t.kind = .quote) (w : Walk) : Counts 0 w (w.pass t) := by
  have hpass : w.pass t = w.approach t := by rw [pass, enter, h]
  rw [hpass]
  exact counts_approach w t

theorem Walk.pass_opening (h : t.kind = .leftParen) (w : Walk) :
    (w.pass t).depth = w.depth + 1 ∧
      (w.pass t).toplevel = w.toplevel + Int32.ofNat (if w.depth = 0 then 1 else 0) := by
  have hcount := ((counts_approach w t).trans (counts_count _)).toplevel
  rw [Nat.zero_add] at hcount
  rw [← hcount, pass, enter, h]
  exact ⟨rfl, rfl⟩

theorem Walk.pass_closing (h : t.kind = .rightParen) (hopen : w.depth ≠ 0) :
    (w.pass t).depth = w.depth - 1 ∧ (w.pass t).toplevel = w.toplevel := by
  have hpass : w.pass t = { w.approach t with depth := w.depth - 1 } := by
    simp [pass, enter, h, approach, hopen]
  rw [hpass]
  exact ⟨rfl, rfl⟩

theorem Walk.counts_enclosed {opening closing : Token} {inner : List Token} {forms : Nat}
    (hopening : opening.kind = .leftParen) (hclosing : closing.kind = .rightParen) (w : Walk)
    (hinner : ∀ w : Walk, Counts forms w (inner.foldl pass w)) :
    Counts 1 w ((opening :: (inner ++ [closing])).foldl pass w) := by
  have hopened := pass_opening hopening w
  have hinside := hinner (w.pass opening)
  have hdepth := hinside.depth.trans hopened.1
  have hclosed := pass_closing hclosing (hdepth.trans_ne (Nat.succ_ne_zero _))
  rw [List.foldl_cons, List.foldl_append, List.foldl_cons, List.foldl_nil]
  refine ⟨?_, ?_⟩
  · rw [hclosed.1, hdepth, Nat.add_sub_cancel]
  · rw [hclosed.2, hinside.toplevel, hopened.1, if_neg (Nat.succ_ne_zero _), hopened.2]
    exact Int32.add_zero _

mutual

/-- A form counts once, however it is built. -/
theorem Walk.counts_form : ∀ (form : Form) (w : Walk), Counts 1 w (form.tokens.foldl pass w)
  | .atom t, w => counts_pass_atom t.2 w
  | .list opening forms closing, w =>
    counts_enclosed opening.2 closing.2 w (counts_forms forms)
  | .quote mark form, w => (counts_pass_quote mark.2 w).trans (counts_form form _)

theorem Walk.counts_forms : ∀ (forms : List Form) (w : Walk),
    Counts forms.length w ((Form.listTokens forms).foldl pass w)
  | [], w => .nothing rfl rfl
  | form :: forms, w => by
    rw [Form.listTokens, List.foldl_append, List.length_cons, Nat.add_comm]
    exact (counts_form form w).trans (counts_forms forms _)

end

/-- A counter is shown as the number counted if this has no more than 31 bits. -/
theorem toString_count {n : Nat} (h : n < 2 ^ 31) : toString (Int32.ofNat n) = toString n := by
  change toString (Int32.ofNat n).toInt = _
  rw [Int32.toInt_ofNat_of_lt h]
  rfl

/-- A listing of some forms tells how many they are, and how many lists they contain. -/
theorem ofInput_of_forms {forms : List Form} (hall : Form.listTokens forms = Token.all input)
    (hclear : IsClear (Token.all input)) (positions : Bool) :
    ∃ w : Walk, ofInput ⟨false, positions⟩ input = ⟨[], .ok w⟩ ∧
      w.toplevel = Int32.ofNat forms.length ∧
      w.entered = Int32.ofNat ((Token.all input).countP (·.kind = .leftParen)) := by
  refine ⟨_, ofInput_of_isClear hclear positions, ?_, ?_⟩
  · have hcounts := Walk.counts_forms forms (.start input)
    rw [← hall, hcounts.toplevel]
    exact Int32.zero_add _
  · rw [Walk.entered_foldl_pass]
    exact Int32.zero_add _

end Listing

end Sexpr
