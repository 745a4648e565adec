import Sexpr.Byte
import Sexpr.Stream.Error

/-! # Writing to a sink

A sink is offered bytes and accepts some beginning of them, or fails. Whole fragments are written by
offering what is left until nothing is. Interruptions are tried again, which a sink allows only
finitely often in a row. The first other error ends the writing, and so does a sink that accepts
nothing.
-/

namespace Sexpr

/-- Reply of a sink to a text that is not empty, with the state it is in afterwards. -/
inductive Reply (σ : Type)
  | accepted (count : Nat) (next : σ)
  | failed (error : IoError) (next : σ)

structure Sink (σ : Type) where
  write : σ → Bytes → Reply σ
  flush : σ → Except IoError Unit × σ
  /-- Bound on the interruptions to come before anything else. -/
  patience : σ → Nat
  patience_lt : ∀ s bytes error next, write s bytes = .failed error next →
    error.isInterruption = true → patience next < patience s

/-- End of a writing: the bytes that were accepted and the error that ended it, if any. -/
structure Transfer (σ : Type) where
  accepted : Bytes
  error : Option IoError
  state : σ

namespace Sink

variable {σ : Type} (sink : Sink σ)

def writeAll (s : σ) (bytes : Bytes) : Transfer σ :=
  if _hb : bytes = [] then ⟨[], none, s⟩
  else
    match _hw : sink.write s bytes with
    | .accepted 0 next => ⟨[], some IoError.writeZero, next⟩
    | .accepted (n + 1) next =>
      let later := writeAll next (bytes.drop (n + 1))
      { later with accepted := bytes.take (n + 1) ++ later.accepted }
    | .failed error next =>
      if _hi : error.isInterruption then writeAll next bytes else ⟨[], some error, next⟩
termination_by (bytes.length, sink.patience s)
decreasing_by
  · have := List.length_pos_iff.2 _hb
    exact Prod.Lex.left _ _ (by simp only [List.length_drop]; omega)
  · exact Prod.Lex.right _ (sink.patience_lt s bytes error next _hw _hi)

/-- Write fragments in order, up to the first error. -/
def writeFragments (s : σ) : List Bytes → Transfer σ
  | [] => ⟨[], none, s⟩
  | fragment :: fragments =>
    let first := sink.writeAll s fragment
    match first.error with
    | some _ => first
    | none =>
      let later := writeFragments first.state fragments
      { later with accepted := first.accepted ++ later.accepted }

variable {sink} {s next : σ} {bytes : Bytes} {n : Nat} {error : IoError}

theorem writeAll_nil (sink : Sink σ) (s : σ) : sink.writeAll s [] = ⟨[], none, s⟩ := by
  rw [writeAll, dif_pos rfl]

theorem writeAll_of_nothing (hne : bytes ≠ []) (hw : sink.write s bytes = .accepted 0 next) :
    sink.writeAll s bytes = ⟨[], some .writeZero, next⟩ := by
  rw [writeAll, dif_neg hne]
  split <;> simp_all

theorem writeAll_of_accepted (hne : bytes ≠ [])
    (hw : sink.write s bytes = .accepted (n + 1) next) :
    sink.writeAll s bytes =
      { sink.writeAll next (bytes.drop (n + 1)) with
        accepted := bytes.take (n + 1) ++ (sink.writeAll next (bytes.drop (n + 1))).accepted } := by
  rw [writeAll, dif_neg hne]
  split <;> simp_all

theorem writeAll_of_interrupted (hne : bytes ≠ []) (hw : sink.write s bytes = .failed error next)
    (herror : error.isInterruption = true) : sink.writeAll s bytes = sink.writeAll next bytes := by
  rw [writeAll, dif_neg hne]
  split <;> simp_all

theorem writeAll_of_failed (hne : bytes ≠ []) (hw : sink.write s bytes = .failed error next)
    (herror : error.isInterruption = false) : sink.writeAll s bytes = ⟨[], some error, next⟩ := by
  rw [writeAll, dif_neg hne]
  split <;> simp_all

end Sink

end Sexpr
