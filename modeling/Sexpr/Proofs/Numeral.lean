import Mathlib.Data.List.Induction
import Mathlib.Data.Nat.Digits.Defs
import Sexpr.Decimal

/-! # Numerals and their values

A numeral denotes a whole number by the rules of decimal notation. Reading a literal yields the
value of the numeral if it fits into 64 bits and fails on every other text. The printed form of a
number is a numeral of that number.
-/

namespace Sexpr.Decimal

/-- Whole number in base ten, the most significant digit first. -/
def valueOf (ds : Bytes) : Nat := Nat.ofDigits 10 (ds.reverse.map fun b => b.toNat - 48)

inductive Numeral : Bytes → Int → Prop
  | plain {ds} (hne : ds ≠ []) (hds : ∀ b ∈ ds, Byte.isDigit b = true) : Numeral ds (valueOf ds)
  | minus {ds} (hne : ds ≠ []) (hds : ∀ b ∈ ds, Byte.isDigit b = true) :
    Numeral (Byte.minus :: ds) (-valueOf ds)

theorem isDigit_iff {b : UInt8} : Byte.isDigit b = true ↔ 48 ≤ b.toNat ∧ b.toNat ≤ 57 := by
  simp only [Byte.isDigit, Bool.and_eq_true, decide_eq_true_eq, UInt8.le_iff_toNat_le]
  rfl

theorem toNat_sub_zero {b : UInt8} (h : Byte.isDigit b = true) :
    (b - Byte.zero).toNat = b.toNat - 48 := by
  have hle : Byte.zero ≤ b := UInt8.le_iff_toNat_le.2 (isDigit_iff.1 h).1
  rw [UInt8.toNat_sub_of_le _ _ hle]
  rfl

theorem valueOf_append_singleton (ds : Bytes) (b : UInt8) :
    valueOf (ds ++ [b]) = valueOf ds * 10 + (b.toNat - 48) := by
  simp only [valueOf, List.reverse_append, List.reverse_singleton, List.singleton_append,
    List.map_cons, Nat.ofDigits_cons]
  ring

theorem magnitude_append_singleton (ds : Bytes) (b : UInt8) :
    magnitude (ds ++ [b]) = magnitude ds * 10 + (b - Byte.zero).toNat := by
  simp [magnitude]

theorem magnitude_eq_valueOf {ds : Bytes} (hds : ∀ b ∈ ds, Byte.isDigit b = true) :
    magnitude ds = valueOf ds := by
  induction ds using List.reverseRecOn with
  | nil => rfl
  | append_singleton ds b ih =>
    have hb := hds b (by simp)
    rw [magnitude_append_singleton, valueOf_append_singleton, toNat_sub_zero hb,
      ih fun c hc => hds c (by simp [hc])]

theorem magnitude?_eq_some_iff {ds : Bytes} {n : Nat} :
    magnitude? ds = some n ↔ ds ≠ [] ∧ (∀ b ∈ ds, Byte.isDigit b = true) ∧ n = valueOf ds := by
  unfold magnitude?
  split
  · rename_i h
    simp only [Bool.and_eq_true, Bool.not_eq_true', List.isEmpty_eq_false_iff,
      List.all_eq_true] at h
    rw [Option.some_inj, magnitude_eq_valueOf h.2]
    exact ⟨fun heq => ⟨h.1, h.2, heq.symm⟩, fun heq => heq.2.2.symm⟩
  · rename_i h
    simp only [Bool.and_eq_true, Bool.not_eq_true', List.isEmpty_eq_false_iff, List.all_eq_true,
      not_and] at h
    simp only [reduceCtorEq, false_iff, not_and]
    exact fun hne hds => absurd hds (h hne)

theorem not_isDigit_minus : Byte.isDigit Byte.minus = false := by decide

theorem value?_eq_some_iff {text : Bytes} {n : Int} : value? text = some n ↔ Numeral text n := by
  constructor
  · intro h
    match text with
    | b :: text =>
      simp only [value?] at h
      split at h
      · rename_i hb
        rcases Option.map_eq_some_iff.1 h with ⟨m, hm, rfl⟩
        rcases magnitude?_eq_some_iff.1 hm with ⟨hne, hds, rfl⟩
        rw [eq_of_beq hb]
        exact .minus hne hds
      · rcases Option.map_eq_some_iff.1 h with ⟨m, hm, rfl⟩
        rcases magnitude?_eq_some_iff.1 hm with ⟨hne, hds, rfl⟩
        exact .plain hne hds
  · intro h
    cases h with
    | plain hne hds =>
      match text with
      | b :: text =>
        have hb : ¬ (b == Byte.minus) = true := by
          intro hb
          have hd := hds b (by simp)
          rw [eq_of_beq hb, not_isDigit_minus] at hd
          cases hd
        rw [value?, if_neg hb, magnitude?_eq_some_iff.2 ⟨hne, hds, rfl⟩]
        rfl
    | minus hne hds =>
      rw [value?, if_pos (by simp), magnitude?_eq_some_iff.2 ⟨hne, hds, rfl⟩]
      rfl

theorem inRange_iff {n : Int} : inRange n = true ↔ -2 ^ 63 ≤ n ∧ n ≤ 2 ^ 63 - 1 := by
  simp only [inRange, Bool.and_eq_true, decide_eq_true_eq]
  omega

/-- A literal is read as the number that it denotes. -/
theorem read?_eq_some_iff {text : Bytes} {v : Int64} :
    read? text = some v ↔ Numeral text v.toInt := by
  rw [← value?_eq_some_iff]
  constructor
  · intro h
    rcases Option.bind_eq_some_iff.1 h with ⟨n, hn, hv⟩
    split at hv
    · rename_i hr
      rcases inRange_iff.1 hr with ⟨hlow, hhigh⟩
      cases hv
      rw [Int64.toInt_ofInt_of_le hlow (by omega), hn]
    · cases hv
  · intro h
    have hr : inRange v.toInt = true :=
      inRange_iff.2 ⟨v.le_toInt, by have := v.toInt_lt; omega⟩
    simp [read?, h, hr]

theorem read?_isSome_iff {text : Bytes} :
    (read? text).isSome ↔ ∃ n, Numeral text n ∧ -2 ^ 63 ≤ n ∧ n ≤ 2 ^ 63 - 1 := by
  simp only [Option.isSome_iff_exists, read?_eq_some_iff]
  constructor
  · rintro ⟨v, hv⟩
    exact ⟨v.toInt, hv, v.le_toInt, by have := v.toInt_lt; omega⟩
  · rintro ⟨n, hn, hlow, hhigh⟩
    exact ⟨Int64.ofInt n, by rwa [Int64.toInt_ofInt_of_le hlow (by omega)]⟩

theorem toNat_digit {n : Nat} (h : n < 10) : (digit n).toNat = 48 + n := by
  have hn : (UInt8.ofNat n).toNat = n := by
    rw [UInt8.toNat_ofNat']
    omega
  rw [digit, UInt8.toNat_add, hn]
  change (48 + n) % 256 = _
  omega

theorem isDigit_digit {n : Nat} (h : n < 10) : Byte.isDigit (digit n) = true := by
  rw [isDigit_iff, toNat_digit h]
  omega

theorem digits_ne_nil (n : Nat) : digits n ≠ [] := by
  rw [digits]
  split <;> simp

theorem isDigit_of_mem_digits (n : Nat) : ∀ b ∈ digits n, Byte.isDigit b = true := by
  fun_induction digits n with
  | case1 n h =>
    intro b hb
    rw [List.mem_singleton.1 hb]
    exact isDigit_digit h
  | case2 n h ih =>
    intro b hb
    rcases List.mem_append.1 hb with hb | hb
    · exact ih b hb
    · rw [List.mem_singleton.1 hb]
      exact isDigit_digit (Nat.mod_lt _ (by decide))

theorem valueOf_digits (n : Nat) : valueOf (digits n) = n := by
  fun_induction digits n with
  | case1 n h => simp [valueOf, toNat_digit h]
  | case2 n h ih =>
    rw [valueOf_append_singleton, ih, toNat_digit (Nat.mod_lt _ (by decide))]
    omega

theorem numeral_ofInt (n : Int) : Numeral (ofInt n) n := by
  unfold ofInt
  split
  · have h := Numeral.minus (digits_ne_nil n.natAbs) (isDigit_of_mem_digits n.natAbs)
    rw [valueOf_digits] at h
    rwa [show -(n.natAbs : Int) = n by omega] at h
  · have h := Numeral.plain (digits_ne_nil n.natAbs) (isDigit_of_mem_digits n.natAbs)
    rw [valueOf_digits] at h
    rwa [show (n.natAbs : Int) = n by omega] at h

@[simp] theorem read?_print (v : Int64) : read? (print v) = some v :=
  read?_eq_some_iff.2 (numeral_ofInt v.toInt)

end Sexpr.Decimal
