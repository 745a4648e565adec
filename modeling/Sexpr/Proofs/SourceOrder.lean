import Mathlib.Data.List.DropRight
import Mathlib.Data.Nat.SuccPred
import Mathlib.Data.Prod.Lex
import Mathlib.Order.Interval.Set.Monotone
import Sexpr.Proofs.ShownPlaces

/-! # Positions in the order of the source

Positions are ordered by line and on a line by column. As long as neither of the counters has to
stop, every byte of a text moves the position forward, so the positions are in the order of the
offsets and no two offsets share one. Written positions keep offsets apart as well, because a
position is found again from its text, as long as the counter of its line has not stopped.
-/

namespace Sexpr

namespace Position

def key (p : Position) : ℕ ×ₗ ℕ := toLex (p.line, p.column)

theorem key_injective : Function.Injective key := by
  rintro ⟨line, column⟩ ⟨line', column'⟩ h
  obtain ⟨rfl, rfl⟩ := Prod.mk.inj (toLex_inj.1 h)
  rfl

instance : LinearOrder Position := LinearOrder.lift' key key_injective

theorem lt_iff {p q : Position} :
    p < q ↔ p.line < q.line ∨ p.line = q.line ∧ p.column < q.column :=
  Prod.Lex.toLex_lt_toLex

/-- Neither the count of the newlines of a text nor the length of a row of bytes without newline
reaches a bound. -/
structure CountsBelow (bound : Nat) (input : Bytes) : Prop where
  line : input.count Byte.newline < bound
  column : ∀ row, row <:+: input → Byte.newline ∉ row → row.length < bound

/-- Bytes behind the last newline. -/
def lastRow (s : Bytes) : Bytes := s.rtakeWhile (· != Byte.newline)

variable {bound m n : Nat} {b : UInt8} {row s input : Bytes}

theorem CountsBelow.mono (h : CountsBelow m input) (hmn : m ≤ n) : CountsBelow n input where
  line := h.line.trans_le hmn
  column row hrow hnewline := (h.column row hrow hnewline).trans_le hmn

theorem CountsBelow.of_length_lt (h : input.length < bound) : CountsBelow bound input where
  line := List.count_le_length.trans_lt h
  column _ hrow _ := hrow.length_le.trans_lt h

theorem CountsBelow.of_infix (h : CountsBelow bound input) (hs : s <:+: input) :
    CountsBelow bound s where
  line := (hs.sublist.count_le Byte.newline).trans_lt h.line
  column row hrow := h.column row (hrow.trans hs)

theorem lastRow_suffix (s : Bytes) : lastRow s <:+ s := List.rtakeWhile_suffix _ s

theorem newline_notMem_lastRow (s : Bytes) : Byte.newline ∉ lastRow s := fun h => by
  simpa using List.mem_rtakeWhile_imp h

theorem length_le_lastRow (hrow : row <:+ s) (hnewline : Byte.newline ∉ row) :
    row.length ≤ (lastRow s).length := by
  obtain ⟨front, rfl⟩ := hrow
  have hkept : ∀ b ∈ row.reverse, (b != Byte.newline) = true := by
    intro b hb
    rw [bne_iff_ne]
    rintro rfl
    exact hnewline (List.mem_reverse.1 hb)
  rw [lastRow, List.rtakeWhile, List.length_reverse, List.reverse_append,
    List.takeWhile_append_of_pos hkept, List.length_append, List.length_reverse]
  exact Nat.le_add_right _ _

theorem column_ofConsumed (s : Bytes) : (ofConsumed s).column = min (lastRow s).length limit := by
  rw [ofConsumed, lastRow, List.rtakeWhile, List.length_reverse]

theorem lt_newline_iff :
    ofConsumed s < ofConsumed (s ++ [Byte.newline]) ↔ s.count Byte.newline < limit := by
  rw [ofConsumed_append_singleton, lt_iff]
  simp [step, ofConsumed]

theorem lt_append_iff (hb : b ≠ Byte.newline) :
    ofConsumed s < ofConsumed (s ++ [b]) ↔ (lastRow s).length < limit := by
  rw [ofConsumed_append_singleton, lt_iff]
  simp [step, hb, column_ofConsumed]

theorem infix_or_eq_append (hrow : row <:+: s ++ [b]) :
    row <:+: s ∨ ∃ front, row = front ++ [b] ∧ front <:+ s := by
  obtain hsuffix | hinfix := List.infix_concat_iff.1 hrow
  · obtain rfl | hends := List.suffix_concat_iff.1 hsuffix
    · exact .inl List.nil_infix
    · exact .inr hends
  · exact .inl hinfix

theorem countsBelow_newline_iff :
    CountsBelow (bound + 1) (s ++ [Byte.newline]) ↔
      CountsBelow (bound + 1) s ∧ s.count Byte.newline < bound := by
  have hcount : (s ++ [Byte.newline]).count Byte.newline = s.count Byte.newline + 1 := by
    rw [List.count_append, List.count_singleton_self]
  constructor
  · intro h
    have hline := hcount ▸ h.line
    exact ⟨h.of_infix List.infix_append_left, Nat.lt_of_succ_lt_succ hline⟩
  · rintro ⟨h, hline⟩
    refine ⟨hcount ▸ Nat.succ_lt_succ hline, fun row hrow hnewline => ?_⟩
    obtain hinfix | ⟨front, rfl, _⟩ := infix_or_eq_append hrow
    · exact h.column row hinfix hnewline
    · exact absurd (List.mem_append_right front List.mem_cons_self) hnewline

theorem countsBelow_append_iff (hb : b ≠ Byte.newline) :
    CountsBelow (bound + 1) (s ++ [b]) ↔
      CountsBelow (bound + 1) s ∧ (lastRow s).length < bound := by
  have hcount : (s ++ [b]).count Byte.newline = s.count Byte.newline := by
    rw [List.count_append, List.count_singleton, if_neg (by simpa using hb), Nat.add_zero]
  have hlength (row : Bytes) : (row ++ [b]).length = row.length + 1 := List.length_append
  constructor
  · intro h
    have hrow : lastRow s ++ [b] <:+: s ++ [b] :=
      (List.suffix_append_self_iff.2 (lastRow_suffix s)).isInfix
    have hlast := h.column _ hrow (by simp [newline_notMem_lastRow, hb.symm])
    rw [hlength] at hlast
    exact ⟨h.of_infix List.infix_append_left, Nat.lt_of_succ_lt_succ hlast⟩
  · rintro ⟨h, hlast⟩
    refine ⟨hcount ▸ h.line, fun row hrow hnewline => ?_⟩
    obtain hinfix | ⟨front, rfl, hfront⟩ := infix_or_eq_append hrow
    · exact h.column row hinfix hnewline
    · have hle := length_le_lastRow hfront fun hmem => hnewline (List.mem_append_left [b] hmem)
      rw [hlength]
      exact Nat.succ_lt_succ (hle.trans_lt hlast)

theorem ofOffset_append (h : n ≤ s.length) (t : Bytes) : ofOffset (s ++ t) n = ofOffset s n := by
  rw [ofOffset, ofOffset, List.take_append_of_le_length h]

theorem ofOffset_of_length_le (h : input.length ≤ n) :
    ofOffset input n = ofOffset input input.length := by
  rw [ofOffset, ofOffset, List.take_of_length_le h, List.take_length]

theorem ofOffset_length (s : Bytes) : ofOffset s s.length = ofConsumed s := by
  rw [ofOffset, List.take_length]

theorem strictMonoOn_append_singleton :
    StrictMonoOn (ofOffset (s ++ [b])) (Set.Iic (s ++ [b]).length) ↔
      StrictMonoOn (ofOffset s) (Set.Iic s.length) ∧ ofConsumed s < ofConsumed (s ++ [b]) := by
  have hlength : (s ++ [b]).length = s.length + 1 := List.length_append
  have heq : Set.EqOn (ofOffset (s ++ [b])) (ofOffset s) (Set.Iic s.length) :=
    fun n hn => ofOffset_append hn [b]
  have hlast : ofOffset (s ++ [b]) s.length < ofOffset (s ++ [b]) (s.length + 1) ↔
      ofConsumed s < ofConsumed (s ++ [b]) := by
    rw [ofOffset_append le_rfl, ofOffset_length, ← hlength, ofOffset_length]
  rw [hlength, ← hlast, ← heq.congr_strictMonoOn]
  constructor
  · intro h
    exact ⟨h.mono (Set.Iic_subset_Iic.2 (Nat.le_succ _)),
      h (Nat.le_succ _) Set.self_mem_Iic (Nat.lt_succ_self _)⟩
  · rintro ⟨h, hlast⟩
    apply strictMonoOn_Iic_of_lt_succ
    intro n hn
    obtain hn | rfl := Nat.lt_succ_iff_lt_or_eq.1 hn
    · exact h hn.le hn (Nat.lt_succ_self n)
    · exact hlast

/-- Positions are in the order of the offsets exactly if no counter has to stop. -/
theorem strictMonoOn_ofOffset_iff :
    StrictMonoOn (ofOffset input) (Set.Iic input.length) ↔ CountsBelow (limit + 1) input := by
  induction input using List.reverseRecOn with
  | nil =>
    refine iff_of_true ?_ (.of_length_lt (Nat.succ_pos limit))
    intro m _ n hn hmn
    exact absurd (hmn.trans_le hn) (Nat.not_lt_zero m)
  | append_singleton s b ih =>
    rw [strictMonoOn_append_singleton, ih]
    by_cases hb : b = Byte.newline
    · rw [hb, countsBelow_newline_iff, lt_newline_iff]
    · rw [countsBelow_append_iff hb, lt_append_iff hb]

theorem toDigits_injective : Function.Injective (Nat.toDigits 10) := by
  intro m n h
  calc
    m = Nat.ofDigitChars 10 (Nat.toDigits 10 m) 0 := Nat.ofDigitChars_ten_toDigits.symm
    _ = Nat.ofDigitChars 10 (Nat.toDigits 10 n) 0 := by rw [h]
    _ = n := Nat.ofDigitChars_ten_toDigits

theorem period_notMem_toDigits (n : Nat) : '.' ∉ Nat.toDigits 10 n := by
  intro h
  have hdigit := Nat.isDigit_of_mem_toDigits (by decide) (by decide) h
  revert hdigit
  decide

theorem toList_text {p : Position} (h : p.line < limit) :
    p.text.toList = '@' :: (Nat.toDigits 10 (p.line + 1) ++ '.' :: Nat.toDigits 10 p.column) := by
  simp [text_of_lt h]

/-- The period tells the two numerals of a position apart, as long as no line is counted as zero. -/
theorem text_inj {p q : Position} (hp : p.line < limit) (hq : q.line < limit) :
    p.text = q.text ↔ p = q := by
  refine ⟨fun h => ?_, congrArg text⟩
  have hchars := congrArg String.toList h
  rw [toList_text hp, toList_text hq, List.cons_inj_right] at hchars
  obtain ⟨hline, _, hcolumn⟩ := (List.append_cons_inj_of_notMem (period_notMem_toDigits _)
    (period_notMem_toDigits _)).1 hchars
  rcases p with ⟨line, column⟩
  cases toDigits_injective hline
  cases toDigits_injective hcolumn
  rfl

theorem CountsBelow.line_ofOffset (h : CountsBelow bound input) (n : Nat) :
    (ofOffset input n).line < bound :=
  (min_le_left _ _).trans_lt (h.of_infix (List.take_prefix n input).isInfix).line

end Position

theorem Token.offset_le_of_mem_stream {input : Bytes} {t : Token} (h : t ∈ stream input) :
    t.offset ≤ input.length := by
  rw [stream, List.mem_append, List.mem_singleton] at h
  obtain h | rfl := h
  · have hbounds := (Lexes.offset_bounds (Lexes.iff_eq_all.2 rfl) h).2
    omega
  · exact Nat.le_refl input.length

theorem position_of_failure {input : Bytes} {a : Arena} {d : Nat} {e : ParseFailure}
    (h : (parse input a d).result = .error (.failure e)) :
    e.offset ≤ input.length ∧ e.position = Position.ofOffset input e.offset := by
  obtain ⟨t, ht, hoffset, _, hposition⟩ := exists_place_of_failure h
  rw [hoffset]
  exact ⟨Token.offset_le_of_mem_stream ht, hposition⟩

/-- Where no count of lines or columns reaches the largest number, positions are in the order of the
offsets up to the end of the text, so no two of these offsets share one. All offsets past the end
have the position of the end. Two failures to read the text have their positions in the order of
the tokens that are to blame, and show the same position only if they blame the same place. -/
theorem positions_identify_offsets {input : Bytes}
    (h : Position.CountsBelow Position.limit input) :
    StrictMonoOn (Position.ofOffset input) (Set.Iic input.length) ∧
    Set.InjOn (Position.ofOffset input) (Set.Iic input.length) ∧
    (∀ n, input.length ≤ n →
      Position.ofOffset input n = Position.ofOffset input input.length) ∧
    ∀ a d e a' d' e', (parse input a d).result = .error (.failure e) →
      (parse input a' d').result = .error (.failure e') →
      (e.position < e'.position ↔ e.offset < e'.offset) ∧
        (e.position.text = e'.position.text ↔ e.offset = e'.offset) := by
  have hmono : StrictMonoOn (Position.ofOffset input) (Set.Iic input.length) :=
    Position.strictMonoOn_ofOffset_iff.2 (h.mono (Nat.le_succ _))
  refine ⟨hmono, hmono.injOn, fun n => Position.ofOffset_of_length_le, ?_⟩
  intro a d e a' d' e' hresult hresult'
  obtain ⟨hoffset, hposition⟩ := position_of_failure hresult
  obtain ⟨hoffset', hposition'⟩ := position_of_failure hresult'
  rw [hposition, hposition', Position.text_inj (h.line_ofOffset _) (h.line_ofOffset _)]
  exact ⟨hmono.lt_iff_lt hoffset hoffset', hmono.injOn.eq_iff hoffset hoffset'⟩

/-- Three lists that are left open, read with one and with two levels. The later failure has the
smaller column. -/
theorem positions_identify_offsets_on_two_lines :
    let input : Bytes := [40, 40, 10, 40]
    Position.CountsBelow Position.limit input ∧
    (parse input {} 1).result =
      .error (.failure ⟨.nestingTooDeep, Utf8.decodeLossy [40], 1, ⟨0, 1⟩⟩) ∧
    (parse input {} 2).result =
      .error (.failure ⟨.nestingTooDeep, Utf8.decodeLossy [40], 3, ⟨1, 0⟩⟩) ∧
    (⟨0, 1⟩ : Position) < ⟨1, 0⟩ ∧ (⟨0, 1⟩ : Position).text ≠ (⟨1, 0⟩ : Position).text ∧
    Position.ofOffset input 1 < Position.ofOffset input 4 ∧
    Position.ofOffset input 9 = ⟨1, 1⟩ := by
  intro input
  have hbelow : Position.CountsBelow Position.limit input := .of_length_lt (by decide)
  have hall : Token.all input = [⟨.leftParen, [40], 0⟩, ⟨.leftParen, [40], 1⟩,
      ⟨.leftParen, [40], 3⟩] :=
    Lexes.iff_eq_all.1
      (.token rfl rfl (.token rfl rfl (.blank rfl (.token rfl rfl .done))))
  have hfirst : (parse input {} 1).result =
      .error (.failure ⟨.nestingTooDeep, Utf8.decodeLossy [40], 1, ⟨0, 1⟩⟩) := by
    rw [parse, hall]
    rfl
  have hsecond : (parse input {} 2).result =
      .error (.failure ⟨.nestingTooDeep, Utf8.decodeLossy [40], 3, ⟨1, 0⟩⟩) := by
    rw [parse, hall]
    rfl
  obtain ⟨hmono, _, hend, hfailures⟩ := positions_identify_offsets hbelow
  obtain ⟨horder, htext⟩ := hfailures _ _ _ _ _ _ hfirst hsecond
  refine ⟨hbelow, hfirst, hsecond, horder.2 (by decide), htext.not.2 (by decide), ?_, ?_⟩
  · exact hmono (by decide) (by decide) (by decide)
  · rw [hend 9 (by decide)]
    rfl

end Sexpr
