import StructTags.World

/-!
# Lines of a report

A report takes bytes as long as there is room for them, and a pass writes it line by line. This file
follows the lines into the report of a world:

* `lineBytes`: the bytes of a line, with the line feed that ends it;
* `Sink.hasRoom_append`, `Sink.offer_of_full`: what is offered in two goes finds room if each part
  does, and once something found none nothing more is taken;
* `report_host`, `reportAll_host`: what writing one line or many does to a world;
* `logAll_host`: what is logged is added to the journal, and nothing else changes.
-/

namespace StructTags

/-! ## 1. Room -/

namespace Sink

/-- A report holds no more than its limit. -/
def Fits (sink : Sink) : Prop := ∀ limit ∈ sink.limit, sink.taken.length ≤ limit

theorem fits_of_limit_eq_none {sink : Sink} (h : sink.limit = none) : sink.Fits := by
  simp [Fits, h]

@[simp] theorem limit_offer (sink : Sink) (bytes : List UInt8) :
    (sink.offer bytes).limit = sink.limit := by
  unfold offer
  split
  · rfl
  · rfl

theorem hasRoom_of_limit_eq_none {sink : Sink} (h : sink.limit = none) (count : Nat) :
    sink.hasRoom count = true := by
  rw [hasRoom, h]

theorem offer_of_limit_eq_none {sink : Sink} (h : sink.limit = none) (bytes : List UInt8) :
    (sink.offer bytes).taken = sink.taken ++ bytes := by
  rw [offer, h]

variable {sink : Sink}

theorem Fits.offer (h : sink.Fits) (bytes : List UInt8) : (sink.offer bytes).Fits := by
  obtain ⟨_ | limit, taken⟩ := sink
  · simp [Fits, Sink.offer]
  · have := h limit rfl
    simp [Fits, Sink.offer] at *
    omega

theorem hasRoom_zero (h : sink.Fits) : sink.hasRoom 0 = true := by
  obtain ⟨_ | limit, taken⟩ := sink
  · rfl
  · exact decide_eq_true (h limit rfl)

/-- What is offered in two goes finds room if each part does. -/
theorem hasRoom_append (h : sink.Fits) (a b : List UInt8) :
    sink.hasRoom (a ++ b).length = (sink.hasRoom a.length && (sink.offer a).hasRoom b.length) := by
  obtain ⟨_ | limit, taken⟩ := sink
  · rfl
  · have := h limit rfl
    rw [Bool.eq_iff_iff]
    simp [hasRoom, Sink.offer] at *
    omega

@[simp] theorem offer_nil (sink : Sink) : sink.offer [] = sink := by
  obtain ⟨_ | limit, taken⟩ := sink <;> simp [Sink.offer]

/-- Once something found no room, nothing more is taken. -/
theorem offer_of_full {a : List UInt8} (h : sink.hasRoom a.length = false) (b : List UInt8) :
    sink.offer (a ++ b) = sink.offer a := by
  obtain ⟨_ | limit, taken⟩ := sink
  · cases h
  · simp only [hasRoom, decide_eq_false_iff_not] at h
    have hnone : limit - taken.length - a.length = 0 := by omega
    simp [Sink.offer, List.take_append, hnone]

end Sink

/-! ## 2. Lines in a world -/

/-- The bytes of a line of the report. -/
def lineBytes (line : String) : List UInt8 := Text.bytesOf (line ++ "\n")

/-- The error for a report that is full. -/
def reportError : Error := .internal "failed to write report" [Fault.full.message]

section

variable {τ α β : Type}

/-- One piece of work after the other. -/
theorem bind_state (x : StateM τ α) (f : α → StateM τ β) (t : τ) :
    (x >>= f) t = f (x t).1 (x t).2 := rfl

theorem pure_state (a : α) (t : τ) : (pure a : StateM τ α) t = (a, t) := rfl

end

/-- **Writing one line takes what finds room**, and fails if that is not all of it. -/
theorem report_host (line : String) (w : World) :
    World.host.report line w =
      (if w.report.hasRoom (lineBytes line).length then .ok () else .error reportError,
        { w with report := w.report.offer (lineBytes line) }) := by
  have hprint : World.host.print (line ++ "\n") w =
      (if w.report.hasRoom (lineBytes line).length then .ok () else .error .full,
        { w with report := w.report.offer (lineBytes line) }) := rfl
  rw [Host.report, bind_state, hprint]
  cases w.report.hasRoom (lineBytes line).length <;> rfl

/-- **Writing lines takes what finds room of all of them**, and fails if that is not all. -/
theorem reportAll_host (lines : List String) {w : World} (hfits : w.report.Fits) :
    World.host.reportAll lines w =
      (if w.report.hasRoom (lines.flatMap lineBytes).length then .ok () else .error reportError,
        { w with report := w.report.offer (lines.flatMap lineBytes) }) := by
  induction lines generalizing w with
  | nil =>
    rw [List.flatMap_nil, List.length_nil, Sink.hasRoom_zero hfits, Sink.offer_nil]
    rfl
  | cons line lines ih =>
    rw [Host.reportAll, bind_state, report_host, List.flatMap_cons, Sink.hasRoom_append hfits]
    cases hroom : w.report.hasRoom (lineBytes line).length with
    | false =>
      rw [Sink.offer_of_full hroom]
      rfl
    | true =>
      rw [← Sink.offer_offer]
      exact ih (hfits.offer _)

theorem logAll_host (signals : List Log.Signal) (w : World) :
    World.host.logAll signals w = ((), { w with journal := w.journal ++ signals }) := by
  induction signals generalizing w with
  | nil =>
    rw [List.append_nil]
    rfl
  | cons signal signals ih =>
    rw [Host.logAll, bind_state, ih, List.append_cons]
    rfl

end StructTags
