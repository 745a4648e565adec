import Sexpr.Proofs.Cells
import Sexpr.Proofs.RoundTrip

/-! # The calls that a sink receives

A document is written to a sink in many calls. A sink that records its calls tells that each one
offers a beginning of what is left of the text, so that no byte is offered out of order, twice once
it was accepted, or not at all. The first call that fails for good is the last one. If there is
none, the whole text was accepted, and one call is left, which flushes the sink.
-/

namespace Sexpr

namespace Sink

/-- A call of a sink with its reply, which is a number of bytes for an offer that is accepted. -/
inductive Call
  | write (offered : Bytes) (reply : Except IoError Nat)
  | flush (reply : Except IoError Unit)

def Call.taken : Call → Bytes
  | write offered (.ok n) => offered.take n
  | _ => []

def Call.isFlush : Call → Bool
  | write _ _ => false
  | flush _ => true

structure Recording (σ : Type) where
  state : σ
  calls : List Call

variable {σ : Type}

def recorded (sink : Sink σ) : Sink (Recording σ) where
  write s bytes :=
    match sink.write s.state bytes with
    | .accepted n next => .accepted n ⟨next, s.calls ++ [.write bytes (.ok n)]⟩
    | .failed error next => .failed error ⟨next, s.calls ++ [.write bytes (.error error)]⟩
  flush s :=
    let flushed := sink.flush s.state
    (flushed.1, ⟨flushed.2, s.calls ++ [.flush flushed.1]⟩)
  patience s := sink.patience s.state
  patience_lt s bytes error next h herror := by
    split at h
    · cases h
    · cases h
      exact sink.patience_lt _ _ _ _ ‹_› herror

/-- Calls that pass on some of a text. Each offers a beginning of what is left. It is accepted in
part or as a whole, or it is interrupted and nothing is accepted. -/
inductive Passes : Bytes → List Call → Bytes → Prop
  | nil {text} : Passes text [] text
  | accepted {text offered n after calls rest} (hne : offered ≠ []) (hoffered : offered <+: text)
      (htext : text = offered.take (n + 1) ++ after) (h : Passes after calls rest) :
    Passes text (.write offered (.ok (n + 1)) :: calls) rest
  | interrupted {text offered error calls rest} (hne : offered ≠ []) (hoffered : offered <+: text)
      (herror : error.isInterruption = true) (h : Passes text calls rest) :
    Passes text (.write offered (.error error) :: calls) rest

/-- A call that ends the writing of what is left with an error: nothing was accepted, or the sink
failed and was not just interrupted. -/
inductive Fails (text : Bytes) : Call → IoError → Prop
  | nothing {offered} (hne : offered ≠ []) (hoffered : offered <+: text) :
    Fails text (.write offered (.ok 0)) .writeZero
  | failed {offered error} (hne : offered ≠ []) (hoffered : offered <+: text)
      (herror : error.isInterruption = false) : Fails text (.write offered (.error error)) error

/-- A transfer of a text beside the same transfer with a record behind some calls. -/
inductive Recorded (text : Bytes) (before : List Call) :
    Transfer σ → Transfer (Recording σ) → Prop
  | done {calls s} (h : Passes text calls []) :
    Recorded text before ⟨text, none, s⟩ ⟨text, none, ⟨s, before ++ calls⟩⟩
  | failed {calls accepted rest last error s} (htext : text = accepted ++ rest)
      (h : Passes text calls rest) (hlast : Fails rest last error) :
    Recorded text before ⟨accepted, some error, s⟩
      ⟨accepted, some error, ⟨s, before ++ calls ++ [last]⟩⟩

variable {text x y z later rest : Bytes} {calls more before : List Call} {last : Call}
  {error : IoError} {sink : Sink σ}

theorem Passes.append (h : Passes x calls y) (later : Bytes) :
    Passes (x ++ later) calls (y ++ later) := by
  induction h with
  | nil => exact .nil
  | accepted hne hoffered htext _ ih =>
    refine .accepted hne (hoffered.trans (List.prefix_append _ _)) ?_ ih
    rw [htext, List.append_assoc]
  | interrupted hne hoffered herror _ ih =>
    exact .interrupted hne (hoffered.trans (List.prefix_append _ _)) herror ih

theorem Passes.trans (h : Passes x calls y) (h' : Passes y more z) :
    Passes x (calls ++ more) z := by
  induction h with
  | nil => exact h'
  | accepted hne hoffered htext _ ih => exact .accepted hne hoffered htext (ih h')
  | interrupted hne hoffered herror _ ih => exact .interrupted hne hoffered herror (ih h')

theorem Passes.eq_append (h : Passes x calls y) : x = calls.flatMap Call.taken ++ y := by
  induction h with
  | nil => rfl
  | accepted _ _ htext _ ih => rw [htext, List.flatMap_cons, List.append_assoc, ← ih, Call.taken]
  | interrupted _ _ _ _ ih => exact ih

theorem Passes.countP_isFlush (h : Passes x calls y) : calls.countP Call.isFlush = 0 := by
  induction h with
  | nil => rfl
  | accepted _ _ _ _ ih => exact ih
  | interrupted _ _ _ _ ih => exact ih

theorem Fails.append (h : Fails x last error) (later : Bytes) : Fails (x ++ later) last error := by
  cases h with
  | nothing hne hoffered => exact .nothing hne (hoffered.trans (List.prefix_append _ _))
  | failed hne hoffered herror =>
    exact .failed hne (hoffered.trans (List.prefix_append _ _)) herror

theorem Fails.ne_nil (h : Fails x last error) : x ≠ [] := by
  cases h with
  | nothing hne hoffered | failed hne hoffered =>
    rintro rfl
    exact hne (List.prefix_nil.1 hoffered)

theorem Fails.taken (h : Fails x last error) : last.taken = [] ∧ last.isFlush = false := by
  cases h <;> exact ⟨rfl, rfl⟩

theorem Recorded.behind {accepted after : Bytes} {t : Transfer σ} {t' : Transfer (Recording σ)}
    (hfront : Passes (accepted ++ after) calls after) (h : Recorded after (before ++ calls) t t') :
    Recorded (accepted ++ after) before { t with accepted := accepted ++ t.accepted }
      { t' with accepted := accepted ++ t'.accepted } := by
  cases h with
  | done h =>
    simp only [List.append_assoc]
    exact .done (hfront.trans h)
  | failed htext h hlast =>
    rw [List.append_assoc before]
    refine .failed ?_ (hfront.trans h) hlast
    rw [htext, List.append_assoc]

theorem Recorded.nil (before : List Call) (s : σ) :
    Recorded [] before ⟨[], none, s⟩ ⟨[], none, ⟨s, before⟩⟩ := by
  have hdone : Recorded [] before ⟨[], none, s⟩ ⟨[], none, ⟨s, before ++ []⟩⟩ := .done .nil
  rwa [List.append_nil] at hdone

theorem Recorded.of_fails (h : Fails text last error) (before : List Call) (s : σ) :
    Recorded text before ⟨[], some error, s⟩ ⟨[], some error, ⟨s, before ++ [last]⟩⟩ := by
  have hfailed : Recorded text before ⟨[], some error, s⟩
      ⟨[], some error, ⟨s, before ++ [] ++ [last]⟩⟩ := .failed rfl .nil h
  rwa [List.append_nil] at hfailed

theorem recorded_write_of_accepted {s next : σ} {bytes : Bytes} {n : Nat}
    (hw : sink.write s bytes = .accepted n next) (before : List Call) :
    sink.recorded.write ⟨s, before⟩ bytes =
      .accepted n ⟨next, before ++ [.write bytes (.ok n)]⟩ := by
  simp [recorded, hw]

theorem recorded_write_of_failed {s next : σ} {bytes : Bytes}
    (hw : sink.write s bytes = .failed error next) (before : List Call) :
    sink.recorded.write ⟨s, before⟩ bytes =
      .failed error ⟨next, before ++ [.write bytes (.error error)]⟩ := by
  simp [recorded, hw]

/-- A fragment is offered again and again, each time what is left of it. -/
theorem recorded_writeAll (sink : Sink σ) (s : σ) (bytes : Bytes) (before : List Call) :
    Recorded bytes before (sink.writeAll s bytes) (sink.recorded.writeAll ⟨s, before⟩ bytes) := by
  fun_induction Sink.writeAll sink s bytes generalizing before with
  | case1 s =>
    rw [writeAll_nil]
    exact .nil before s
  | case2 s bytes hne next hw =>
    rw [writeAll_of_nothing hne (recorded_write_of_accepted hw before)]
    exact .of_fails (.nothing hne List.prefix_rfl) before next
  | case3 s bytes hne n next hw later ih =>
    have hcut := List.take_append_drop (n + 1) bytes
    have hfront : Passes (bytes.take (n + 1) ++ bytes.drop (n + 1)) [.write bytes (.ok (n + 1))]
        (bytes.drop (n + 1)) := .accepted hne (hcut.symm ▸ List.prefix_rfl) rfl .nil
    have hbehind := Recorded.behind hfront (ih (before ++ [.write bytes (.ok (n + 1))]))
    rw [writeAll_of_accepted hne (recorded_write_of_accepted hw before)]
    rwa [hcut] at hbehind
  | case4 s bytes hne error next hw herror ih =>
    have hfront : Passes ([] ++ bytes) [.write bytes (.error error)] bytes :=
      .interrupted hne List.prefix_rfl herror .nil
    rw [writeAll_of_interrupted hne (recorded_write_of_failed hw before) herror]
    exact Recorded.behind hfront (ih _)
  | case5 s bytes hne error next hw herror =>
    rw [Bool.not_eq_true] at herror
    rw [writeAll_of_failed hne (recorded_write_of_failed hw before) herror]
    exact .of_fails (.failed hne List.prefix_rfl herror) before next

/-- Fragments are passed on one behind the other, up to the first call that fails. -/
theorem recorded_writeFragments (sink : Sink σ) (s : σ) (fragments : List Bytes)
    (before : List Call) : Recorded fragments.flatten before (sink.writeFragments s fragments)
      (sink.recorded.writeFragments ⟨s, before⟩ fragments) := by
  induction fragments generalizing s before with
  | nil => exact .nil before s
  | cons fragment fragments ih =>
    have hfirst := recorded_writeAll sink s fragment before
    rw [writeFragments, writeFragments, List.flatten_cons]
    generalize sink.writeAll s fragment = t at hfirst
    generalize sink.recorded.writeAll ⟨s, before⟩ fragment = t' at hfirst
    cases hfirst with
    | done h => exact .behind (h.append fragments.flatten) (ih _ _)
    | failed htext h hlast =>
      exact .failed (by rw [htext, List.append_assoc]) (h.append _) (hlast.append _)

end Sink

theorem Tree.documentText_eq_intercalate (ts : List Tree) : documentText ts =
    [Byte.newline].intercalate (ts.map fun t => t.text ++ [Byte.newline]) := by
  induction ts with
  | nil => rfl
  | cons t ts ih =>
    cases ts with
    | nil => simp
    | cons u ts =>
      rw [documentText_cons_cons, ih]
      simp [List.intercalate_cons_cons]

namespace Document

open Sink (Call Passes Fails)

variable {σ : Type} {a : Arena} {v : Ref} {t : Tree}

/-- How the writing of a text ends: all of it was passed on and the sink was flushed, or a call
failed before and was the last one. -/
inductive Ends (text : Bytes) : Written (Sink.Recording σ) → Prop
  | flushed {calls reply s} (h : Passes text calls []) :
    Ends text ⟨text, reply.mapError .failure, ⟨s, calls ++ [.flush reply]⟩⟩
  | failed {calls accepted rest last error s} (htext : text = accepted ++ rest)
      (h : Passes text calls rest) (hlast : Fails rest last error) :
    Ends text ⟨accepted, .error (.failure error), ⟨s, calls ++ [last]⟩⟩

/-- A record of the calls changes nothing else. -/
theorem writeAll_recorded (h : a.Unfolds v t) (sink : Sink σ) (s : σ) :
    let w := writeAll sink.recorded ⟨s, []⟩ a v
    writeAll sink s a v = ⟨w.accepted, w.result, w.state.state⟩ ∧
      Ends (Tree.documentText t.elements) w := by
  obtain ⟨hfault, htext⟩ := Rendering.complete_eq_ok_iff.1 (Arena.complete_renderForms h)
  have htransfer := Sink.recorded_writeFragments sink s (a.renderForms v).fragments []
  rw [Rendering.text] at htext
  rw [htext] at htransfer
  simp only [writeAll, hfault]
  generalize sink.writeFragments s (a.renderForms v).fragments = w at htransfer
  generalize sink.recorded.writeFragments ⟨s, []⟩ (a.renderForms v).fragments = w' at htransfer
  cases htransfer with
  | done h => exact ⟨rfl, .flushed h⟩
  | failed htext h hlast => exact ⟨rfl, .failed htext h hlast⟩

theorem Ends.accepted_isPrefix {text : Bytes} {w : Written (Sink.Recording σ)} (h : Ends text w) :
    w.accepted <+: text := by
  cases h with
  | flushed => exact List.prefix_rfl
  | failed htext => exact ⟨_, htext.symm⟩

theorem Ends.accepted_eq {text : Bytes} {w : Written (Sink.Recording σ)} (h : Ends text w) :
    w.accepted = w.state.calls.flatMap Call.taken := by
  cases h with
  | flushed h =>
    rw [List.flatMap_append, h.eq_append]
    simp [Call.taken]
  | failed htext h hlast =>
    have hfront := h.eq_append
    rw [htext, List.append_cancel_right_eq] at hfront
    simp [List.flatMap_append, hlast.taken.1, hfront]

theorem Ends.countP_isFlush {text : Bytes} {w : Written (Sink.Recording σ)} (h : Ends text w) :
    w.state.calls.countP Call.isFlush = if w.accepted = text then 1 else 0 := by
  cases h with
  | flushed h => simp [h.countP_isFlush, Call.isFlush]
  | failed htext h hlast =>
    simp [h.countP_isFlush, hlast.taken.2, htext, hlast.ne_nil]

theorem Ends.result_eq_ok_iff {text : Bytes} {w : Written (Sink.Recording σ)} (h : Ends text w) :
    w.result = .ok () ↔
      w.accepted = text ∧ w.state.calls.getLast? = some (.flush (.ok ())) := by
  cases h with
  | @flushed _ reply => cases reply <;> simp [Except.mapError]
  | failed htext h hlast => simp [htext, hlast.ne_nil]

end Document

/-- Whatever a sink accepts of the text of a document, it is a beginning of the text, and it was
offered in order: each call offers a beginning of what is left. The sink is flushed once if it has
accepted the whole text, and otherwise not at all. Writing succeeds exactly if the whole text was
accepted and the sink was flushed without an error. Otherwise the last call is the first one that
failed for good, and its error is that of the writing. -/
theorem writeAll_passes_text_in_order (a : Arena) (v : Ref) (h : a.Sound v) :
    ∃ forms texts text, a.items v = .ok forms ∧
      List.Forall₂ (fun form text => a.print form = .ok text) forms texts ∧
      text = [Byte.newline].intercalate (texts.map (· ++ [Byte.newline])) ∧
      ∀ {σ : Type} (sink : Sink σ) (s : σ),
        let w := Document.writeAll sink.recorded ⟨s, []⟩ a v
        let calls := w.state.calls
        Document.writeAll sink s a v = ⟨w.accepted, w.result, w.state.state⟩ ∧
        w.accepted = calls.flatMap Sink.Call.taken ∧ w.accepted <+: text ∧
        (w.result = .ok () ↔ w.accepted = text ∧ calls.getLast? = some (.flush (.ok ()))) ∧
        calls.countP Sink.Call.isFlush = (if w.accepted = text then 1 else 0) ∧
        Document.Ends text w := by
  obtain ⟨t, ht⟩ := h.exists_unfolds
  obtain ⟨forms, hforms, htrees⟩ := Arena.items_eq ht
  refine ⟨forms, t.elements.map Tree.text, Tree.documentText t.elements, hforms, ?_, ?_, ?_⟩
  · rw [List.forall₂_map_right_iff]
    exact htrees.imp fun _ _ => Arena.print_eq
  · rw [Tree.documentText_eq_intercalate, List.map_map]
    rfl
  · intro σ sink s w calls
    obtain ⟨hrecorded, hends⟩ := Document.writeAll_recorded ht sink s
    exact ⟨hrecorded, hends.accepted_eq, hends.accepted_isPrefix, hends.result_eq_ok_iff,
      hends.countP_isFlush, hends⟩

/-- The list `((a) a)` is written to a device that accepts two bytes in a call and five in all. -/
theorem writeAll_passes_text_in_order_full_device :
    let w := Document.writeAll Device.sink.recorded ⟨{ room := some 5, burst := some 2 }, []⟩
      listAndPair ⟨3⟩
    let text : Bytes := [40, 97, 41, 10, 10, 97, 10]
    listAndPair.Sound ⟨3⟩ ∧ w.accepted = w.state.calls.flatMap Sink.Call.taken ∧
      w.accepted <+: text ∧
      (w.result = .ok () ↔ w.accepted = text ∧ w.state.calls.getLast? = some (.flush (.ok ()))) ∧
      w.state.calls.countP Sink.Call.isFlush = (if w.accepted = text then 1 else 0) ∧
      Document.Ends text w := by
  intro w text
  have hsound := listAndPair.unfolds_list.sound
  have hitems : listAndPair.items ⟨3⟩ = .ok [⟨2⟩, ⟨1⟩] := rfl
  have hlist : listAndPair.print ⟨2⟩ = .ok [40, 97, 41] := rfl
  have hsymbol : listAndPair.print ⟨1⟩ = .ok [97] := rfl
  obtain ⟨forms, texts, _, hforms, hprints, rfl, hsink⟩ :=
    writeAll_passes_text_in_order listAndPair ⟨3⟩ hsound
  cases hitems.symm.trans hforms
  cases hprints with
  | cons hfirst hprints =>
    cases hprints with
    | cons hsecond hprints =>
      cases hprints
      cases hlist.symm.trans hfirst
      cases hsymbol.symm.trans hsecond
      exact ⟨hsound, (hsink Device.sink { room := some 5, burst := some 2 }).2⟩

end Sexpr
