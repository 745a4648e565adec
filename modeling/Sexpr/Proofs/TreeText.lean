import Sexpr.Document.Write
import Sexpr.Proofs.Tree
import Sexpr.Stream.Device

/-! # Written forms of trees

What is printed of a value depends on the tree that it stands for and on nothing else, and printing
never breaks off. The same holds of documents, whose text a sink without bounds receives whole.
-/

namespace Sexpr

namespace Tree

/-- Written form of a tree that is no pair. -/
def atomText : Tree → Bytes
  | nil => [Byte.leftParen, Byte.rightParen]
  | pair _ _ => []
  | string contents => Escape.literal contents
  | symbol name => Utf8.encode name
  | integer value => Decimal.print value

mutual

def text : Tree → Bytes
  | pair first rest => Byte.leftParen :: first.text ++ rest.tailText
  | t => t.atomText

/-- What follows the first element of a list, closing parenthesis included. -/
def tailText : Tree → Bytes
  | nil => [Byte.rightParen]
  | pair item next => Byte.space :: item.text ++ next.tailText
  | t => [Byte.space, Byte.period, Byte.space] ++ t.atomText ++ [Byte.rightParen]

end

/-- Text of a document, with a separator in front of its first form. -/
def framedText (separator : Bytes) : List Tree → Bytes
  | [] => []
  | t :: ts => separator ++ t.text ++ [Byte.newline] ++ framedText [Byte.newline] ts

def documentText (forms : List Tree) : Bytes := framedText [] forms

@[simp] theorem documentText_singleton (t : Tree) :
    documentText [t] = t.text ++ [Byte.newline] := by
  simp [documentText, framedText]

theorem documentText_cons_cons (t u : Tree) (ts : List Tree) :
    documentText (t :: u :: ts) =
      t.text ++ [Byte.newline, Byte.newline] ++ documentText (u :: ts) := by
  simp [documentText, framedText]

end Tree

namespace Rendering

theorem complete_eq_ok_iff {r : Rendering} {x : Bytes} :
    r.complete = .ok x ↔ r.fault = none ∧ r.text = x := by
  unfold complete
  split <;> simp_all

theorem complete_append {r s : Rendering} {x y : Bytes} (hr : r.complete = .ok x)
    (hs : s.complete = .ok y) : (r ++ s).complete = .ok (x ++ y) := by
  change (append r s).complete = _
  rw [complete_eq_ok_iff] at *
  simp [append, hr, hs, text, ← hr.2, ← hs.2]

@[simp] theorem complete_ofParts (parts : List Bytes) :
    (ofParts parts).complete = .ok parts.flatten := rfl

@[simp] theorem complete_of (fragment : Bytes) : (of fragment).complete = .ok fragment := by
  simp [of]

end Rendering

namespace Arena

variable {a : Arena} {r : Ref} {t : Tree}

/-- Each step of printing goes down one node, so any bound above the height will do. -/
theorem complete_renderWithin (h : a.Unfolds r t) : ∀ n, t.height ≤ n →
    (a.renderWithin n r).complete = .ok t.text ∧
      (a.renderTailWithin n r).complete = .ok t.tailText := by
  induction h with
  | pair h _ _ ihfirst ihrest =>
    intro n hn
    simp only [Tree.height] at hn
    obtain ⟨n, rfl⟩ : ∃ m, n = m + 1 := ⟨n - 1, by omega⟩
    have hfirst := (ihfirst n (by omega)).1
    have hrest := (ihrest n (by omega)).2
    simp only [renderWithin, renderTailWithin, get_eq_ok h, Tree.text, Tree.tailText]
    constructor
    · exact Rendering.complete_append (Rendering.complete_append (Rendering.complete_of _) hfirst)
        hrest
    · exact Rendering.complete_append (Rendering.complete_append (Rendering.complete_of _) hfirst)
        hrest
  | nil h =>
    intro n hn
    obtain ⟨n, rfl⟩ : ∃ m, n = m + 1 := ⟨n - 1, by simp only [Tree.height] at hn; omega⟩
    simp [renderWithin, renderTailWithin, get_eq_ok h, atomParts, Tree.text, Tree.tailText,
      Tree.atomText]
  | _ h =>
    intro n hn
    obtain ⟨n, rfl⟩ : ∃ m, n = m + 1 := ⟨n - 1, by simp only [Tree.height] at hn; omega⟩
    simp only [renderWithin, renderTailWithin, get_eq_ok h]
    constructor
    · simp [atomParts, Tree.text, Tree.atomText]
    · apply Rendering.complete_append _ (Rendering.complete_of _)
      apply Rendering.complete_append (Rendering.complete_of _)
      simp [atomParts, Tree.atomText]

theorem complete_render (h : a.Unfolds r t) : (a.render r).complete = .ok t.text :=
  (complete_renderWithin h _ h.height_le).1

theorem print_eq (h : a.Unfolds r t) : a.print r = .ok t.text := complete_render h

theorem complete_renderFormsWithin (h : a.Unfolds r t) : ∀ n, t.height ≤ n →
    ∀ separator, (a.renderFormsWithin n separator r).complete =
      .ok (Tree.framedText separator t.elements) := by
  induction h with
  | pair h hfirst _ _ ih =>
    intro n hn separator
    simp only [Tree.height] at hn
    obtain ⟨n, rfl⟩ : ∃ m, n = m + 1 := ⟨n - 1, by omega⟩
    simp only [renderFormsWithin, get_eq_ok h]
    have hform := Rendering.complete_append (Rendering.complete_of separator)
      (complete_render hfirst)
    exact Rendering.complete_append (Rendering.complete_append hform (Rendering.complete_of _))
      (ih n (by omega) _)
  | _ h =>
    intro n hn separator
    obtain ⟨n, rfl⟩ : ∃ m, n = m + 1 := ⟨n - 1, by simp only [Tree.height] at hn; omega⟩
    simp only [renderFormsWithin, get_eq_ok h]
    rfl

theorem complete_renderForms (h : a.Unfolds r t) :
    (a.renderForms r).complete = .ok (Tree.documentText t.elements) :=
  complete_renderFormsWithin h _ h.height_le []

end Arena

theorem Document.writeAll_ne_fault {a : Arena} {r : Ref} {t : Tree} (h : a.Unfolds r t) {σ : Type}
    (sink : Sink σ) (s : σ) (f : Fault) :
    (Document.writeAll sink s a r).result ≠ .error (.fault f) := by
  have hfault := (Rendering.complete_eq_ok_iff.1 (Arena.complete_renderForms h)).1
  simp only [writeAll, hfault]
  split
  · simp
  · simp_all
  · cases (sink.flush _).1 <;> simp [Except.mapError]

namespace Device

theorem writeAll_unbounded (bytes : Bytes) : sink.writeAll {} bytes = ⟨bytes, none, {}⟩ := by
  cases bytes with
  | nil => exact Sink.writeAll_nil sink {}
  | cons b bytes =>
    have hwrite : sink.write {} (b :: bytes) = .accepted (bytes.length + 1) {} := rfl
    rw [Sink.writeAll_of_accepted (List.cons_ne_nil _ _) hwrite]
    simp [Sink.writeAll_nil]

theorem writeFragments_unbounded (fragments : List Bytes) :
    sink.writeFragments {} fragments = ⟨fragments.flatten, none, {}⟩ := by
  induction fragments with
  | nil => rfl
  | cons fragment fragments ih => simp [Sink.writeFragments, writeAll_unbounded, ih]

end Device

/-- A sink without bounds accepts the whole text of a document and is flushed once. -/
theorem Document.writeAll_unbounded {a : Arena} {r : Ref} {ts : List Tree}
    (h : a.Unfolds r (.ofList ts)) :
    Document.writeAll Device.sink {} a r = ⟨Tree.documentText ts, .ok (), { flushes := 1 }⟩ := by
  rcases Rendering.complete_eq_ok_iff.1 (Arena.complete_renderForms h) with ⟨hfault, htext⟩
  simp only [Rendering.text, Tree.elements_ofList] at htext
  simp only [Document.writeAll, Device.writeFragments_unbounded, hfault, htext]
  rfl

end Sexpr
