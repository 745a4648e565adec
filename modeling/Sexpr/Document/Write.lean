import Sexpr.Printer
import Sexpr.Stream.Sink

/-! # Writing documents

Every top-level form takes a line of its own, with an empty line between two forms. The sink is
flushed once all of the text is written, and not after an error.
-/

namespace Sexpr

namespace Arena

/-- Forms of a list from one of its cells on, each behind a separator. -/
def renderFormsWithin (a : Arena) : Nat → Bytes → Ref → Rendering
  | 0, _, r => .stopped (.endless r)
  | n + 1, separator, r =>
    match a.get r with
    | .ok (.pair form next) =>
      .of separator ++ a.render form ++ .of [Byte.newline]
        ++ a.renderFormsWithin n [Byte.newline] next
    | .ok _ => {}
    | .error fault => .stopped fault

def renderForms (a : Arena) (forms : Ref) : Rendering := a.renderFormsWithin (a.size + 1) [] forms

end Arena

structure Written (σ : Type) where
  accepted : Bytes
  result : Except (Halt IoError) Unit
  state : σ

namespace Document

variable {σ : Type} (sink : Sink σ)

def writeAll (s : σ) (a : Arena) (forms : Ref) : Written σ :=
  let r := a.renderForms forms
  let t := sink.writeFragments s r.fragments
  match t.error, r.fault with
  | some error, _ => ⟨t.accepted, .error (.failure error), t.state⟩
  | none, some fault => ⟨t.accepted, .error (.fault fault), t.state⟩
  | none, none =>
    let flushed := sink.flush t.state
    ⟨t.accepted, flushed.1.mapError .failure, flushed.2⟩

end Document

end Sexpr
