import StructTags.Proofs.Augment.Noted
import StructTags.Proofs.Pass.Account

/-!
# What a pass tells its log

A pass that comes to its end tells its log what was noted about each file and what became of it, and
then its summary. The report says the same in other words:

* `Encounter.events`: the events about one file, which are those of its journal entries;
* `story`: the events of a pass;
* `filter_story_of_notes`, `filter_story_of_outcomes`: the events of one kind, file by file;
* **`agrees_story`**: the augmentations and the errors of the report, and the counts of the summary,
  are those of the events.
-/

namespace StructTags

open Pass

/-! ## 1. The events of a pass -/

namespace Encounter

/-- The event for what became of a file. -/
def outcome (v : Encounter) : Log.Event :=
  match v.failure? with
  | some e => failedEvent e
  | none => writtenEvent v.applied.length

/-- The events about a file: what was noted about its text, and what became of it. -/
def events (v : Encounter) : List Log.Event := v.notes.map noteEvent ++ [v.outcome]

/-- The journal entries about a file have these events. -/
theorem events_signals (v : Encounter) : Log.events v.signals = v.events := by
  have hnotes : Log.events (v.notes.map fun note => .event (noteEvent note)) =
      v.notes.map noteEvent := by
    rw [Log.events, List.filterMap_map]
    exact congrFun (List.filterMap_eq_map (f := noteEvent)) v.notes
  have hopening : Log.events v.opening = v.notes.map noteEvent := hnotes
  have hending : Log.events v.ending = [v.outcome] := by
    rw [ending, outcome]
    cases v.failure? <;> rfl
  have hclosed : Log.events [.closed] = [] := rfl
  rw [signals, Log.events_append, Log.events_append, hopening, hending, hclosed, List.append_nil,
    events]

/-- The notes about a text that is read have its augmentations. -/
theorem notes_applied (v : Encounter) : v.notes.filterMap Note.applied? = v.applied := by
  cases htext : v.text with
  | error e =>
    obtain ⟨-, happlied, hnotes⟩ := of_text_error htext
    rw [happlied, hnotes]
    rfl
  | ok text =>
    obtain ⟨happlied, hnotes, -⟩ := of_text_ok htext
    rw [happlied, hnotes, augment_notes_applied]

end Encounter

/-- The events of a pass that comes to its end: file by file, and then its summary. -/
def story (visits : List Encounter) (summary : Summary) : List Log.Event :=
  visits.flatMap Encounter.events ++ [completeEvent summary]

theorem events_flatMap_signals (visits : List Encounter) :
    Log.events (visits.flatMap Encounter.signals) = visits.flatMap Encounter.events := by
  induction visits with
  | nil => rfl
  | cons v vs ih =>
    rw [List.flatMap_cons, Log.events_append, v.events_signals, ih, List.flatMap_cons]

/-! ## 2. The events of one kind -/

section

variable {p : Log.Event → Bool} {visits : List Encounter} {summary : Summary}

/-- The events of a kind that is not about the whole pass. -/
theorem filter_story (h : p (completeEvent summary) = false) :
    (story visits summary).filter p = visits.flatMap fun v => v.events.filter p := by
  rw [story, List.filter_append, List.filter_flatMap, List.filter_cons_of_neg (by simp [h]),
    List.filter_nil, List.append_nil]

/-- The events of a kind that is about tags. -/
theorem filter_story_of_notes (hcomplete : p (completeEvent summary) = false)
    (houtcome : ∀ v : Encounter, p v.outcome = false) :
    (story visits summary).filter p =
      visits.flatMap fun v => (v.notes.map noteEvent).filter p := by
  rw [filter_story hcomplete]
  refine List.flatMap_congr fun v _ => ?_
  rw [Encounter.events, List.filter_append, List.filter_cons_of_neg (by simp [houtcome]),
    List.filter_nil, List.append_nil]

/-- The events of a kind that is about files. -/
theorem filter_story_of_outcomes (hcomplete : p (completeEvent summary) = false)
    (hnote : ∀ note, p (noteEvent note) = false) :
    (story visits summary).filter p = (visits.map Encounter.outcome).filter p := by
  have hevents : ∀ v : Encounter, v.events.filter p = [v.outcome].filter p := by
    intro v
    have hnotes : (v.notes.map noteEvent).filter p = [] := by
      rw [List.filter_eq_nil_iff]
      intro e he
      obtain ⟨note, -, rfl⟩ := List.mem_map.mp he
      rw [hnote]
      exact Bool.false_ne_true
    rw [Encounter.events, List.filter_append, hnotes, List.nil_append]
  rw [filter_story hcomplete, List.flatMap_congr fun v _ => hevents v, ← List.filter_flatMap,
    ← List.map_eq_flatMap]

end

/-- The notes about tags that are left alone. -/
theorem filter_notes_kept (notes : List Note) :
    ((notes.map noteEvent).filter (·.severity = .trace)).map (fun e => (e.message, e.fields)) =
      (notes.filterMap Note.kept?).map fun t =>
        ("already has msgpack", [("group", .plain (String.ofList t.text))]) := by
  induction notes with
  | nil => rfl
  | cons note notes ih =>
    cases note with
    | kept tag => simpa [noteEvent, Note.kept?] using ih
    | applied augmentation => exact ih

/-- The notes about augmentations. -/
theorem filter_notes_applied (notes : List Note) :
    ((notes.map noteEvent).filter fun e =>
        e.severity = .debug ∧ e.message = "applied augmentation").map (·.fields) =
      (notes.filterMap Note.applied?).map fun x =>
        [("augmentation", .plain (String.ofList x))] := by
  induction notes with
  | nil => rfl
  | cons note notes ih =>
    cases note with
    | kept tag => exact ih
    | applied augmentation => simpa [noteEvent, Note.applied?] using ih

/-- The files that failed. -/
theorem filter_outcomes_failed (visits : List Encounter) :
    ((visits.map Encounter.outcome).filter (·.severity = .warn)).map
        (fun e => (e.message, e.fields)) =
      (visits.filterMap Encounter.failure?).map fun e =>
        (e.message, [("code", .plain e.code.text)]) := by
  induction visits with
  | nil => rfl
  | cons v vs ih =>
    cases h : v.failure? with
    | none => simpa [Encounter.outcome, h, writtenEvent] using ih
    | some e => simpa [Encounter.outcome, h, failedEvent] using ih

/-- The files that were written. -/
theorem filter_outcomes_written (visits : List Encounter) :
    ((visits.map Encounter.outcome).filter fun e =>
        e.severity = .debug ∧ e.message = "file written").map (·.fields) =
      (visits.filter (·.failure?.isNone)).map fun v => [("applied", .number v.applied.length)] := by
  induction visits with
  | nil => rfl
  | cons v vs ih =>
    cases h : v.failure? with
    | none => simpa [Encounter.outcome, h, writtenEvent] using ih
    | some e => simpa [Encounter.outcome, h, failedEvent] using ih

/-! ## 3. Agreement -/

/-- Events that agree with the visits and the summary of a pass. -/
structure Agrees (events : List Log.Event) (visits : List Encounter) (summary : Summary) :
    Prop where
  /-- The tags that were left alone. -/
  kept : (events.filter (·.severity = .trace)).map (fun e => (e.message, e.fields)) =
    (visits.flatMap fun v => v.notes.filterMap Note.kept?).map fun t =>
      ("already has msgpack", [("group", .plain (String.ofList t.text))])
  /-- The augmentations, as they are reported. -/
  applied : (events.filter fun e =>
      e.severity = .debug ∧ e.message = "applied augmentation").map (·.fields) =
    (visits.flatMap Encounter.applied).map fun x => [("augmentation", .plain (String.ofList x))]
  /-- The messages of the errors, as they are reported, and their codes. -/
  failed : (events.filter (·.severity = .warn)).map (fun e => (e.message, e.fields)) =
    (visits.filterMap Encounter.failure?).map fun e =>
      (e.message, [("code", .plain e.code.text)])
  /-- The files that were written, as they are counted. -/
  written : ∃ counts : List Nat,
    (events.filter fun e => e.severity = .debug ∧ e.message = "file written").map (·.fields) =
        counts.map (fun n => [("applied", .number n)]) ∧
      counts.length = summary.scanned - summary.failed ∧ counts.sum = summary.augmented
  /-- At the end and only there, the summary. -/
  complete : ∃ before e, events = before ++ [e] ∧ (∀ x ∈ before, x.severity ≠ .info) ∧
    e.severity = .info ∧ e.message = "run complete" ∧
    e.fields = [("scanned", .number summary.scanned), ("rewritten", .number summary.changed),
      ("augmented", .number summary.augmented), ("failed", .number summary.failed)]

/-- No event about a file has the severity of the summary. -/
theorem Encounter.severity_of_mem_events {v : Encounter} {x : Log.Event} (h : x ∈ v.events) :
    x.severity ≠ .info := by
  rw [events, List.mem_append, List.mem_singleton] at h
  rcases h with h | rfl
  · obtain ⟨note, -, rfl⟩ := List.mem_map.mp h
    cases note <;> exact nofun
  · rw [outcome]
    cases v.failure? <;> exact nofun

/-- **The events of a pass agree with its report and its summary.** -/
theorem agrees_story (visits : List Encounter) :
    Agrees (story visits (Summary.countAll {} visits)) visits (Summary.countAll {} visits) where
  kept := by
    rw [filter_story_of_notes rfl fun v => ?_, List.map_flatMap, List.map_flatMap]
    · exact List.flatMap_congr fun v _ => filter_notes_kept v.notes
    · rw [Encounter.outcome]
      cases v.failure? <;> rfl
  applied := by
    rw [filter_story_of_notes rfl fun v => ?_, List.map_flatMap, List.map_flatMap]
    · refine List.flatMap_congr fun v _ => ?_
      rw [← v.notes_applied]
      exact filter_notes_applied v.notes
    · rw [Encounter.outcome]
      cases v.failure? <;> rfl
  failed := by
    rw [filter_story_of_outcomes rfl fun note => ?_]
    · exact filter_outcomes_failed visits
    · cases note <;> rfl
  written := by
    refine ⟨(visits.filter (·.failure?.isNone)).map (·.applied.length), ?_, ?_, ?_⟩
    · rw [filter_story_of_outcomes rfl fun note => ?_, filter_outcomes_written, List.map_map]
      · rfl
      · cases note <;> rfl
    · have hall := List.length_eq_countP_add_countP (l := visits) (·.failure?.isSome)
      have hnone : visits.countP (fun v => decide ¬v.failure?.isSome = true) =
          visits.countP (·.failure?.isNone) :=
        List.countP_congr fun v _ => by cases v.failure? <;> simp
      rw [hnone] at hall
      rw [Summary.countAll_empty, List.length_map, ← List.countP_eq_length_filter]
      dsimp only
      omega
    · rw [Summary.countAll_empty, List.length_flatMap]
  complete := by
    refine ⟨_, _, rfl, fun x hx => ?_, rfl, rfl, rfl⟩
    obtain ⟨v, -, hv⟩ := List.mem_flatMap.mp hx
    exact v.severity_of_mem_events hv

end StructTags
