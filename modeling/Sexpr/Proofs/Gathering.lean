import Sexpr.Document.Read
import Sexpr.Proofs.Faultless

/-! # Documents and how they are delivered

A stream is asked for more as long as it delivers bytes or is interrupted. So a script of deliveries
begins with some that go on, and then it is at its end or broken by an error. The bytes of those
that go on are all that a document depends on. How they are cut and where they are interrupted does
not matter, nor does anything behind the end. If the script is broken, nothing is parsed.
-/

namespace Sexpr

namespace Delivery

def bytes : Delivery → Bytes
  | chunk bytes => bytes
  | failed _ => []

/-- Deliveries after which a stream is asked for more. -/
def GoesOn : Delivery → Prop
  | chunk bytes => bytes ≠ []
  | failed error => error.isInterruption = true

/-- The stream is at its end. It may be able to deliver more, but it is not asked to. -/
inductive Ended : List Delivery → Prop
  | nothing : Ended []
  | chunk (later : List Delivery) : Ended (.chunk [] :: later)

/-- The stream fails with an error that is not passed over. -/
inductive Broken (error : IoError) : List Delivery → Prop
  | failed (later : List Delivery) (h : error.isInterruption = false) :
    Broken error (.failed error :: later)

variable {before rest : List Delivery} {error : IoError}

theorem gather_cons {d : Delivery} (h : d.GoesOn) (later : List Delivery) :
    gather (d :: later) = (gather later).map (d.bytes ++ ·) := by
  cases d with
  | chunk bytes =>
    have hsome : bytes.isEmpty = false := List.isEmpty_eq_false_iff.2 h
    simp [gather, hsome, Delivery.bytes]
  | failed error =>
    have hinterruption : error.isInterruption = true := h
    rw [gather, if_pos hinterruption]
    cases gather later <;> rfl

theorem gather_append (h : ∀ d ∈ before, d.GoesOn) (rest : List Delivery) :
    gather (before ++ rest) = (gather rest).map (before.flatMap bytes ++ ·) := by
  induction before with
  | nil => cases hrest : gather rest <;> simp [hrest, Except.map]
  | cons d before ih =>
    obtain ⟨hd, hbefore⟩ := List.forall_mem_cons.1 h
    rw [List.cons_append, gather_cons hd, ih hbefore, List.flatMap_cons]
    cases gather rest with
    | error e => rfl
    | ok bytes => simp [Except.map]

theorem Ended.gather (h : Ended rest) : gather rest = .ok [] := by
  cases h <;> rfl

theorem Broken.gather (h : Broken error rest) : gather rest = .error error := by
  cases h with
  | failed later hlasting => simp [Delivery.gather, hlasting]

theorem gather_of_ended (h : ∀ d ∈ before, d.GoesOn) (hrest : Ended rest) :
    gather (before ++ rest) = .ok (before.flatMap bytes) := by
  rw [gather_append h, hrest.gather, Except.map, List.append_nil]

theorem gather_of_broken (h : ∀ d ∈ before, d.GoesOn) (hrest : Broken error rest) :
    gather (before ++ rest) = .error error := by
  rw [gather_append h, hrest.gather, Except.map]

/-- Every script goes on for a while, and then it is at its end or broken. -/
theorem exists_goesOn_append (deliveries : List Delivery) :
    ∃ before rest, deliveries = before ++ rest ∧ (∀ d ∈ before, d.GoesOn) ∧
      (Ended rest ∨ ∃ error, Broken error rest) := by
  induction deliveries with
  | nil => exact ⟨[], [], rfl, by simp, .inl .nothing⟩
  | cons d later ih =>
    by_cases hgoes : d.GoesOn
    · obtain ⟨before, rest, hlater, hbefore, hrest⟩ := ih
      refine ⟨d :: before, rest, by rw [hlater, List.cons_append], ?_, hrest⟩
      exact List.forall_mem_cons.2 ⟨hgoes, hbefore⟩
    · refine ⟨[], d :: later, rfl, by simp, ?_⟩
      cases d with
      | chunk bytes =>
        have hempty : bytes = [] := by simpa [GoesOn] using hgoes
        subst hempty
        exact .inl (.chunk later)
      | failed error => exact .inr ⟨error, .failed later (by simpa [GoesOn] using hgoes)⟩

end Delivery

namespace Document

theorem locate_ofContents_ok (input : Bytes) (a : Arena) (source : Source) :
    (ofContents (.ok input) a).locate source =
      ⟨(parse input a).result.mapError (Halt.map fun e => ⟨.parse e, source⟩),
        (parse input a).arena⟩ := by
  rw [ofContents, locate]
  cases (parse input a).result with
  | ok forms => rfl
  | error halt => cases halt <;> rfl

theorem ofContents_ne_fault (contents : Except IoError Bytes) (a : Arena) (f : Fault) :
    (ofContents contents a).forms ≠ .error (.fault f) := by
  intro hfault
  cases contents with
  | error e => cases hfault
  | ok input =>
    have hmapped : (parse input a).result.mapError (Halt.map ReadError.parse) =
        .error (.fault f) := hfault
    cases hresult : (parse input a).result with
    | ok forms =>
      rw [hresult] at hmapped
      cases hmapped
    | error halt =>
      rw [hresult] at hmapped
      cases halt with
      | failure e => cases hmapped
      | fault g => exact parse_ne_fault g hresult

open Delivery (Ended Broken gather)

/-- A document depends only on the bytes delivered before the end of its stream. Every script of
deliveries goes on for a while, and then it is at its end or broken. If it is at its end, reading
does what parsing the bytes delivered before does, to the result and to the arena. If it is broken,
reading fails with the error that breaks it and leaves the arena as it was, whatever was delivered
before. A file that is opened is read like any other stream, and if it is not opened the arena is
left as it was too. -/
theorem read_depends_on_delivered_bytes (a : Arena) (source : Source) :
    (∀ deliveries, ∃ before rest, deliveries = before ++ rest ∧ (∀ d ∈ before, d.GoesOn) ∧
      (Ended rest ∨ ∃ error, Broken error rest)) ∧
    (∀ before rest, (∀ d ∈ before, d.GoesOn) → Ended rest →
      let parsed := parse (before.flatMap Delivery.bytes) a
      readAll (before ++ rest) a =
        ⟨parsed.result.mapError (Halt.map ReadError.parse), parsed.arena⟩ ∧
      readFrom source (before ++ rest) a =
        ⟨parsed.result.mapError (Halt.map fun e => ⟨.parse e, source⟩), parsed.arena⟩) ∧
    (∀ before rest error, (∀ d ∈ before, d.GoesOn) → Broken error rest →
      readAll (before ++ rest) a = ⟨.error (.failure (.io error)), a⟩ ∧
      readFrom source (before ++ rest) a = ⟨.error (.failure ⟨.io error, source⟩), a⟩) ∧
    (∀ path deliveries,
      ofFile path (gather deliveries) a = readFrom (.file path) deliveries a) ∧
    (∀ path error, ofFile path (.error error) a =
      ⟨.error (.failure ⟨.io error, .file path⟩), a⟩) ∧
    ∀ deliveries f, (readAll deliveries a).forms ≠ .error (.fault f) := by
  refine ⟨Delivery.exists_goesOn_append, ?_, ?_, fun _ _ => rfl, fun _ _ => rfl,
    fun deliveries => ofContents_ne_fault (gather deliveries) a⟩
  · intro before rest hbefore hrest
    have hgather := Delivery.gather_of_ended hbefore hrest
    refine ⟨by rw [readAll, hgather, ofContents], ?_⟩
    rw [readFrom, readAll, hgather, locate_ofContents_ok]
  · intro before rest error hbefore hrest
    have hgather := Delivery.gather_of_broken hbefore hrest
    refine ⟨by rw [readAll, hgather, ofContents], ?_⟩
    rw [readFrom, readAll, hgather]
    rfl

/-- A quoted form is cut behind the quote and interrupted there, and an unfinished string is behind
the end. A complete form is lost if an error comes before the end. -/
theorem read_depends_on_delivered_bytes_cut_quote :
    readAll [.chunk [39], .failed ⟨.interrupted, ""⟩, .chunk [97], .chunk [], .chunk [34]] {} =
      ⟨(parse [39, 97] {}).result.mapError (Halt.map ReadError.parse), (parse [39, 97] {}).arena⟩ ∧
    readAll [.chunk [97], .failed .isADirectory, .chunk []] {} =
      ⟨.error (.failure (.io .isADirectory)), {}⟩ := by
  obtain ⟨_, hended, hbroken, _⟩ := read_depends_on_delivered_bytes {} (.special "stdin")
  constructor
  · have hread := hended [.chunk [39], .failed ⟨.interrupted, ""⟩, .chunk [97]]
      [.chunk [], .chunk [34]] (by simp [Delivery.GoesOn, IoError.isInterruption]) (.chunk _)
    exact hread.1
  · exact (hbroken [.chunk [97]] [.failed .isADirectory, .chunk []] .isADirectory
      (by simp [Delivery.GoesOn]) (.failed _ rfl)).1

end Document

end Sexpr
