import StructTags.Disk.Services
import StructTags.Pass

/-!
# A world to run in

A model of a machine with a disk, a report that may stop taking bytes, and a journal.

* `Sink`: a report that takes a given number of bytes and then fails;
* `World`: disk, report and journal together;
* `World.host`: the services of a world;
* `Sink.offer_offer`, `Sink.hasRoom_iff`: a report takes bytes one by one, and all of them if there
  is room.
-/

namespace StructTags

/-! ## 1. Reports -/

/-- The bytes of a report. With a limit it holds no more than that. -/
structure Sink where
  limit : Option Nat := none
  taken : List UInt8 := []
  deriving DecidableEq, Repr

namespace Sink

/-- Whether that many further bytes find room. -/
def hasRoom (sink : Sink) (count : Nat) : Bool :=
  match sink.limit with
  | none => true
  | some limit => sink.taken.length + count ≤ limit

/-- The sink after the bytes were offered: it takes what finds room. -/
def offer (sink : Sink) (bytes : List UInt8) : Sink :=
  match sink.limit with
  | none => { sink with taken := sink.taken ++ bytes }
  | some limit => { sink with taken := sink.taken ++ bytes.take (limit - sink.taken.length) }

/-- What is offered in two goes is taken as if it came in one. -/
theorem offer_offer (sink : Sink) (a b : List UInt8) :
    (sink.offer a).offer b = sink.offer (a ++ b) := by
  obtain ⟨limit, taken⟩ := sink
  cases limit with
  | none => simp [offer]
  | some limit =>
    have room : limit - (taken.length + min (limit - taken.length) a.length) =
        limit - taken.length - a.length := by omega
    simp [offer, List.take_append, room]

/-- There is room for bytes exactly if all of them are taken. -/
theorem hasRoom_iff {sink : Sink} (fits : ∀ limit ∈ sink.limit, sink.taken.length ≤ limit)
    (bytes : List UInt8) :
    sink.hasRoom bytes.length = true ↔ (sink.offer bytes).taken = sink.taken ++ bytes := by
  obtain ⟨limit, taken⟩ := sink
  cases limit with
  | none => simp [hasRoom, offer]
  | some limit =>
    have := fits limit rfl
    simp only [hasRoom, offer, decide_eq_true_eq, List.append_cancel_left_eq]
    constructor
    · intro h
      exact List.take_of_length_le (by omega)
    · intro h
      have := congrArg List.length h
      rw [List.length_take] at this
      simp only at *
      omega

/-- Appends a text, or as much of it as finds room. -/
def print (sink : Sink) (text : String) : Except Fault Unit × Sink :=
  let bytes := Text.bytesOf text
  (if sink.hasRoom bytes.length then .ok () else .error .full, sink.offer bytes)

end Sink

/-! ## 2. Worlds -/

/-- A disk, a report and a journal. -/
structure World where
  disk : Disk := {}
  report : Sink := {}
  journal : List Log.Signal := []

namespace World

/-- The services of a world. -/
def host : Host (StateM World) where
  workingDirectory := fun w => (w.disk.workingDirectory, w)
  entries := fun path w => (w.disk.entries path, w)
  isFile := fun path w => (w.disk.isFile path, w)
  read := fun path w => (w.disk.read path, w)
  write := fun path content w =>
    match w.disk.write path content with
    | .error fault => (.error fault, w)
    | .ok disk => (.ok (), { w with disk })
  print := fun text w =>
    let (result, report) := w.report.print text
    (result, { w with report })
  log := fun signal w => ((), { w with journal := w.journal ++ [signal] })

end World

end StructTags
