import Sexpr.Proofs.Building

/-! # Limits of arenas

A computation that allocates in an arena with a limit does what it does without the limit, up to
the first allocation for which there is no room. There it halts, with as many nodes as are allowed.
This holds of an allocation, it is kept when computations follow one another, and so it holds of
each step of the parser and of the whole run.
-/

namespace Sexpr

namespace Arena

def unlimited (a : Arena) : Arena := { a with limit := none }

def limitedTo (a : Arena) (most : Nat) : Arena := { a with limit := some most }

@[simp] theorem size_limitedTo (a : Arena) (most : Nat) : (a.limitedTo most).size = a.size := rfl

@[simp] theorem get?_limitedTo (a : Arena) (most : Nat) (r : Ref) :
    (a.limitedTo most).get? r = a.get? r := rfl

theorem limitedTo_unlimited {a : Arena} {most : Nat} (h : a.limit = some most) :
    a.unlimited.limitedTo most = a := by
  rcases a with ⟨nodes, limit⟩
  cases h
  rfl

theorem limitedTo_set (a : Arena) (most : Nat) (r : Ref) (node : Node) :
    (a.limitedTo most).set r node = (a.set r node).limitedTo most := by
  rcases r with ⟨_ | i⟩ <;> rfl

@[simp] theorem size_set (a : Arena) (r : Ref) (node : Node) : (a.set r node).size = a.size := by
  rcases r with ⟨_ | i⟩
  · rfl
  · simp [set, size]

@[simp] theorem limit_set (a : Arena) (r : Ref) (node : Node) : (a.set r node).limit = a.limit := by
  rcases r with ⟨_ | i⟩ <;> rfl

theorem isFull_limitedTo (a : Arena) (most : Nat) :
    (a.limitedTo most).isFull = decide (min most mostNodes ≤ a.size) := rfl

variable {a b : Arena}

section CutsOff

variable {ε α β : Type}

def leftBy : EStateM.Result ε Arena α → Arena
  | .ok _ a => a
  | .error _ a => a

def underLimit (most : Nat) : EStateM.Result ε Arena α → EStateM.Result ε Arena α
  | .ok v a => .ok v (a.limitedTo most)
  | .error e a => .error e (a.limitedTo most)

/-- A limit on the arena leaves the computation as it is if the nodes that it needs are allowed.
Otherwise it halts for lack of room when as many nodes are there as are allowed. -/
structure CutsOff (lack : ε → Prop) (x : EStateM ε Arena α) (a : Arena) : Prop where
  limit : (leftBy (x a)).limit = none
  size : a.size ≤ (leftBy (x a)).size
  fits : ∀ most, (leftBy (x a)).size ≤ most → x (a.limitedTo most) = underLimit most (x a)
  lacks : ∀ most, a.size ≤ most → most < (leftBy (x a)).size →
    ∃ e b, x (a.limitedTo most) = .error e b ∧ lack e ∧ b.size = most

variable {lack : ε → Prop} {x : EStateM ε Arena α} {f : α → EStateM ε Arena β}

theorem CutsOff.of_size_eq (hlimit : (leftBy (x a)).limit = none)
    (hsize : (leftBy (x a)).size = a.size)
    (hx : ∀ n, x (a.limitedTo n) = underLimit n (x a)) : CutsOff lack x a where
  limit := hlimit
  size := Nat.le_of_eq hsize.symm
  fits _ _ := hx _
  lacks _ hle hlt := absurd hle (Nat.not_le.2 (hsize ▸ hlt))

theorem cutsOff_pure (ha : a.limit = none) (v : α) :
    CutsOff lack (pure v : EStateM ε Arena α) a :=
  .of_size_eq ha rfl fun _ => rfl

theorem cutsOff_throw (ha : a.limit = none) (e : ε) :
    CutsOff lack (throw e : EStateM ε Arena α) a :=
  .of_size_eq ha rfl fun _ => rfl

/-- If either of two computations meets the limit, so do both in a row. -/
theorem CutsOff.bind (hx : CutsOff lack x a)
    (hf : ∀ v b, b.limit = none → CutsOff lack (f v) b) : CutsOff lack (x >>= f) a := by
  rcases hx with ⟨hlimit, hsize, hfits, hlacks⟩
  cases h : x a with
  | error e b =>
    rw [h] at hlimit hsize hfits hlacks
    have hrun : (x >>= f) a = .error e b := bind_eq_of_error h
    refine ⟨by rwa [hrun], by rwa [hrun], fun most hle => ?_, fun most hle hlt => ?_⟩
    · rw [hrun] at hle ⊢
      exact bind_eq_of_error (hfits most hle)
    · rw [hrun] at hlt
      rcases hlacks most hle hlt with ⟨e', b', hx', hlack⟩
      exact ⟨e', b', bind_eq_of_error hx', hlack⟩
  | ok v b =>
    rw [h] at hlimit hsize hfits hlacks
    have hrun : (x >>= f) a = f v b := bind_eq_of_ok h
    have hnext := hf v b hlimit
    refine ⟨hrun ▸ hnext.limit, hrun ▸ hsize.trans hnext.size, fun most hle => ?_,
      fun most hle hlt => ?_⟩
    · rw [hrun] at hle ⊢
      rw [bind_eq_of_ok (hfits most (hnext.size.trans hle))]
      exact hnext.fits most hle
    · rw [hrun] at hlt
      by_cases hb : b.size ≤ most
      · rw [bind_eq_of_ok (hfits most hb)]
        exact hnext.lacks most hb hlt
      · rcases hlacks most hle (Nat.not_le.1 hb) with ⟨e', b', hx', hlack⟩
        exact ⟨e', b', bind_eq_of_error hx', hlack⟩

end CutsOff

theorem cutsOff_alloc (ha : a.limit = none) (node : Node) : CutsOff LacksRoom (alloc node) a := by
  have hcapacity := capacity_of_unlimited ha
  cases hfree : a.isFull with
  | true =>
    have halloc := alloc_of_full hfree node
    refine .of_size_eq (by rwa [halloc]) (by rw [halloc]; rfl) fun most => ?_
    have hfull : (a.limitedTo most).isFull = true := by
      rw [isFull_iff, hcapacity] at hfree
      rw [isFull_limitedTo, decide_eq_true_iff]
      exact (Nat.min_le_right _ _).trans hfree
    rw [halloc, alloc_of_full hfull]
    rfl
  | false =>
    have halloc := alloc_of_room hfree node
    have hsize : (leftBy (alloc node a)).size = a.size + 1 := by
      rw [halloc, leftBy, size_extend, List.length_singleton]
    have hmost : a.size < mostNodes := by
      rw [← hcapacity, ← Nat.not_le, ← isFull_iff, hfree]
      exact Bool.false_ne_true
    refine ⟨by rwa [halloc], by omega, fun most hle => ?_, fun most hle hlt => ?_⟩
    · have hroom : (a.limitedTo most).isFull = false := by
        rw [isFull_limitedTo, decide_eq_false_iff_not]
        omega
      rw [halloc, alloc_of_room hroom]
      rfl
    · have hfull : (a.limitedTo most).isFull = true := by
        rw [isFull_limitedTo, decide_eq_true_iff]
        omega
      refine ⟨_, _, alloc_of_full hfull node, ⟨_, rfl⟩, ?_⟩
      rw [size_limitedTo]
      omega

theorem cutsOff_link (ha : a.limit = none) (cell rest : Ref) :
    CutsOff LacksRoom (link cell rest) a := by
  refine .of_size_eq ?_ ?_ fun most => ?_
  · unfold link
    split
    · split
      · exact (limit_set a cell _).trans ha
      · exact ha
    · exact ha
    · exact ha
  · unfold link
    split
    · split
      · exact size_set a cell _
      · rfl
    · rfl
    · rfl
  · simp only [link, get?_limitedTo, limitedTo_set]
    split
    · split <;> rfl
    · rfl
    · rfl

theorem cutsOff_couple (ha : a.limit = none) (x y : Ref) : CutsOff LacksRoom (couple x y) a :=
  (cutsOff_alloc ha _).bind fun _ _ hb => cutsOff_alloc hb _

end Arena

theorem OpenList.cutsOff_append {a : Arena} (ha : a.limit = none) (l : OpenList) (item : Ref) :
    Arena.CutsOff Arena.LacksRoom (l.append item) a := by
  refine (Arena.cutsOff_alloc ha _).bind fun cell b hb => ?_
  cases h : l.last.isNil with
  | true => exact Arena.cutsOff_pure hb _
  | false =>
    exact (Arena.cutsOff_link hb _ _).bind fun _ c hc => Arena.cutsOff_pure hc _

open Arena (CutsOff LacksRoom cutsOff_pure cutsOff_throw)

variable {a : Arena}

theorem Token.cutsOff_charge {α : Type} {build : Build α} (h : CutsOff LacksRoom build a)
    (t : Token) : CutsOff Halt.OutOfMemory (t.charge build) a := by
  have hleft : Arena.leftBy (t.charge build a) = Arena.leftBy (build a) := by
    cases hbuild : build a with
    | ok v b => rw [charge_eq_of_ok hbuild]; rfl
    | error halt b => rw [charge_eq_of_error hbuild]; rfl
  rcases h with ⟨hlimit, hsize, hfits, hlacks⟩
  refine ⟨by rwa [hleft], by rwa [hleft], fun most hle => ?_, fun most hle hlt => ?_⟩
  · rw [hleft] at hle
    have hfit := hfits most hle
    cases hbuild : build a with
    | ok v b =>
      rw [hbuild] at hfit
      rw [charge_eq_of_ok hbuild, charge_eq_of_ok hfit]
      rfl
    | error halt b =>
      rw [hbuild] at hfit
      rw [charge_eq_of_error hbuild, charge_eq_of_error hfit]
      rfl
  · rw [hleft] at hlt
    rcases hlacks most hle hlt with ⟨_, b, hx, ⟨e, rfl⟩, hb⟩
    exact ⟨_, b, charge_eq_of_error hx, ⟨t, rfl⟩, hb⟩

namespace Stack

theorem cutsOff_place (ha : a.limit = none) (v : Ref) (t : Token) (frames : List Frame)
    (forms : OpenList) : CutsOff Halt.OutOfMemory (place v t frames forms) a := by
  induction frames generalizing a v t with
  | nil =>
    exact (Token.cutsOff_charge (forms.cutsOff_append ha v) t).bind fun _ _ hb => cutsOff_pure hb _
  | cons frame frames ih =>
    cases frame with
    | list opening items =>
      exact (Token.cutsOff_charge (items.cutsOff_append ha v) t).bind fun _ _ hb =>
        cutsOff_pure hb _
    | quote mark =>
      refine (Token.cutsOff_charge (Arena.cutsOff_alloc ha _) mark).bind fun quote b hb => ?_
      exact (Token.cutsOff_charge (Arena.cutsOff_couple hb quote v) mark).bind fun list c hc =>
        ih hc list mark

theorem cutsOff_descend (ha : a.limit = none) (maxDepth : Nat) (s : Stack) (t : Token)
    (frame : Frame) : CutsOff Halt.OutOfMemory (s.descend maxDepth t frame) a := by
  unfold descend
  split
  · exact cutsOff_pure ha _
  · exact cutsOff_throw ha _

theorem cutsOff_step (ha : a.limit = none) (maxDepth : Nat) (s : Stack) (t : Token) :
    CutsOff Halt.OutOfMemory (s.step maxDepth t) a := by
  unfold step
  split
  · exact cutsOff_throw ha _
  · exact (Token.cutsOff_charge (Arena.cutsOff_alloc ha _) t).bind fun v b hb =>
      cutsOff_place hb v t s.frames s.forms
  · exact cutsOff_descend ha _ _ _ _
  · exact cutsOff_descend ha _ _ _ _
  · split
    · exact cutsOff_place ha _ _ _ _
    · exact cutsOff_throw ha _

end Stack

namespace Parser

theorem run_limitedTo (ha : a.limit = none) (d : Nat) (eof : Token) (ts : List Token) (s : Stack) :
    a.size ≤ (run d eof ts s a).arena.size ∧ ∀ most, a.size ≤ most →
      ((run d eof ts s a).arena.size ≤ most → run d eof ts s (a.limitedTo most) =
        ⟨(run d eof ts s a).result, (run d eof ts s a).arena.limitedTo most,
          (run d eof ts s a).pulled⟩) ∧
      (most < (run d eof ts s a).arena.size → ∃ t,
        (run d eof ts s (a.limitedTo most)).result = .error (.failure ⟨.outOfMemory, t⟩) ∧
          (run d eof ts s (a.limitedTo most)).arena.size = most) := by
  induction ts generalizing s a with
  | nil =>
    exact ⟨Nat.le_refl _, fun most hle => ⟨fun _ => rfl, fun hlt => absurd hlt (Nat.not_lt.2 hle)⟩⟩
  | cons t ts ih =>
    rcases Stack.cutsOff_step ha d s t with ⟨hlimit, hsize, hfits, hlacks⟩
    -- If the limit is met in the step, the rest of the run does not matter.
    have hhalt (most : Nat) (hle : a.size ≤ most)
        (hlt : most < (Arena.leftBy (s.step d t a)).size) : ∃ u,
        (run d eof (t :: ts) s (a.limitedTo most)).result = .error (.failure ⟨.outOfMemory, u⟩) ∧
          (run d eof (t :: ts) s (a.limitedTo most)).arena.size = most := by
      rcases hlacks most hle hlt with ⟨_, b, hstep, ⟨u, rfl⟩, hb⟩
      rw [run_of_error hstep]
      exact ⟨u, rfl, hb⟩
    cases hstep : s.step d t a with
    | error halt b =>
      rw [hstep] at hsize hfits hhalt
      rw [run_of_error hstep]
      exact ⟨hsize, fun most hle => ⟨fun hfit => run_of_error (hfits most hfit), hhalt most hle⟩⟩
    | ok next b =>
      simp only [hstep, Arena.leftBy] at hlimit hsize hfits hhalt
      rcases ih hlimit next with ⟨hgrows, hcut⟩
      rw [run_of_ok hstep]
      refine ⟨hsize.trans hgrows, fun most hle => ⟨fun hfit => ?_, fun hlt => ?_⟩⟩
      · have hb := hgrows.trans hfit
        rw [run_of_ok (hfits most hb), (hcut most hb).1 hfit]
      · by_cases hb : b.size ≤ most
        · rw [run_of_ok (hfits most hb)]
          exact (hcut most hb).2 hlt
        · exact hhalt most hle (Nat.not_le.1 hb)

end Parser

theorem parse_limitedTo (input : Bytes) (ha : a.limit = none) (d : Nat) {most : Nat}
    (hsize : a.size ≤ most) :
    ((parse input a d).arena.size ≤ most → parse input (a.limitedTo most) d =
      { parse input a d with arena := (parse input a d).arena.limitedTo most }) ∧
    (most < (parse input a d).arena.size →
      ∃ e, (parse input (a.limitedTo most) d).result = .error (.failure e) ∧
        e.cause = .outOfMemory ∧ (parse input (a.limitedTo most) d).arena.size = most) := by
  have hrun := (Parser.run_limitedTo ha d (Token.eof input) (Token.all input) {}).2 most hsize
  rcases hrun with ⟨hfits, hlacks⟩
  constructor
  · intro hle
    rw [parse, hfits hle]
    rfl
  · intro hlt
    rcases hlacks hlt with ⟨t, hresult, harena⟩
    refine ⟨Blame.locate input ⟨.outOfMemory, t⟩, ?_, rfl, harena⟩
    rw [parse, hresult]
    rfl

/-- A limit on the arena cuts a parse off when it would add one node too many. If the parse without
the limit comes to no more nodes than are allowed, it is the same with the limit, whether it
succeeds or fails. If it comes to more, the parse with the limit fails for lack of memory with just
as many nodes as are allowed, whatever would have come of it later. -/
theorem parse_cut_off_at_limit (input : Bytes) (a : Arena) (maxDepth : Nat) {most : Nat}
    (hlimit : a.limit = some most) (hsize : a.size ≤ most) :
    ((parse input a.unlimited maxDepth).arena.size ≤ most →
      parse input a maxDepth = { parse input a.unlimited maxDepth with
        arena := (parse input a.unlimited maxDepth).arena.limitedTo most }) ∧
    (most < (parse input a.unlimited maxDepth).arena.size →
      ∃ e, (parse input a maxDepth).result = .error (.failure e) ∧ e.cause = .outOfMemory ∧
        (parse input a maxDepth).arena.size = most) := by
  have hfree : a.unlimited.limit = none := rfl
  have hcut := parse_limitedTo input hfree maxDepth hsize
  rwa [Arena.limitedTo_unlimited hlimit] at hcut

theorem parse_cut_off_in_open_list :
    (Arena.mk #[.integer 1] (some 2)).limit = some 2 ∧ (Arena.mk #[.integer 1] (some 2)).size ≤ 2 ∧
      (∃ e, (parse [40, 97] ⟨#[.integer 1], some 2⟩ 1).result = .error (.failure e) ∧
        e.cause = .outOfMemory ∧ (parse [40, 97] ⟨#[.integer 1], some 2⟩ 1).arena.size = 2) ∧
      (parse [40, 97] ⟨#[.integer 1], some 3⟩ 1).result =
        .error (.failure ⟨.endOfInput, "", 2, ⟨0, 2⟩⟩) := by
  have hall : Token.all [40, 97] = [⟨.leftParen, [40], 0⟩, ⟨.symbol, [97], 1⟩] :=
    Lexes.iff_eq_all.1 (.token rfl rfl (.token rfl rfl .done))
  have hfree (limit : Option Nat) : parse [40, 97] (Arena.mk #[.integer 1] limit).unlimited 1 =
      ⟨.error (.failure ⟨.endOfInput, "", 2, ⟨0, 2⟩⟩),
        ⟨#[.integer 1, .symbol "a", .pair ⟨2⟩ Ref.nil], none⟩,
        Token.all [40, 97] ++ [Token.eof [40, 97]]⟩ := by
    rw [parse, hall]
    rfl
  have htight := parse_cut_off_at_limit [40, 97] ⟨#[.integer 1], some 2⟩ 1 rfl (by decide)
  have hloose := parse_cut_off_at_limit [40, 97] ⟨#[.integer 1], some 3⟩ 1 rfl (by decide)
  rw [hfree] at htight hloose
  refine ⟨rfl, by decide, htight.2 (by decide), ?_⟩
  rw [hloose.1 (by decide)]

end Sexpr
