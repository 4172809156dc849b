import StructTags.Proofs.Pass.Line

/-!
# What a pass meets

A pass meets one file after the other, each on the disk that the files before it have left. What
becomes of a file follows from its path and this disk alone; the report only decides how far the
pass comes. This file gives that account of a file and shows that a visit keeps to it:

* `Encounter`: a path and the disk as it is then, with the text that is read, what is applied to it,
  the error if there is one, the disk afterwards, and what is reported and logged;
* **`visitFile_of_room`**: a visit for which the report has room does all of this;
* **`visitFile_of_full`**: a visit for which it has no room leaves the disk as it is.
-/

namespace StructTags

open Pass

/-! ## 1. The account of a file -/

/-- A file as a pass meets it: its path, and the disk at that time. -/
structure Encounter where
  path : Path
  disk : Disk

/-- The file at a path, as it is met in a world. -/
def World.meet (w : World) (path : Path) : Encounter := ⟨path, w.disk⟩

namespace Encounter

/-- The text that is read, or why there is none. -/
def text (v : Encounter) : Except Error (List Char) :=
  match v.disk.read v.path with
  | .error fault => .error (readError v.path (.service fault))
  | .ok bytes =>
    match Text.decode? bytes with
    | none => .error (readError v.path .notText)
    | some text => .ok text

/-- The disk with the augmented text in the file, or why it could not be read or written. -/
def stored (v : Encounter) : Except Error Disk :=
  match v.text with
  | .error e => .error e
  | .ok text =>
    match v.disk.write v.path (Text.encode (augment text).text) with
    | .error fault => .error (writeError v.path fault)
    | .ok disk => .ok disk

/-- The augmentations for the text that is read; there are none if it is not read. -/
def applied (v : Encounter) : List (List Char) :=
  match v.text with
  | .error _ => []
  | .ok text => (augment text).applied

/-- What is noted about the tags of the text that is read. -/
def notes (v : Encounter) : List Note :=
  match v.text with
  | .error _ => []
  | .ok text => (augment text).notes

/-- Why the file could not be read or written. -/
def failure? (v : Encounter) : Option Error :=
  match v.stored with
  | .error e => some e
  | .ok _ => none

/-- The disk afterwards. -/
def after (v : Encounter) : Disk :=
  match v.stored with
  | .error _ => v.disk
  | .ok disk => disk

/-- What became of the file. -/
def visit (v : Encounter) : Visit :=
  match v.failure? with
  | some e => .failed e
  | none => .written v.applied.length

/-! ## 2. What is reported and logged -/

/-- The lines of the report: the marker, each augmentation, and the message if there is an error. -/
def lines (v : Encounter) : List String :=
  markerLine v.path :: (v.applied.map String.ofList ++ (v.failure?.map Error.message).toList)

/-- The lines of the report as bytes. -/
def block (v : Encounter) : List UInt8 := v.lines.flatMap lineBytes

/-- The bytes of the augmentations in the block. -/
def appliedBytes (v : Encounter) : List UInt8 := (v.applied.map String.ofList).flatMap lineBytes

/-- The bytes of the message in the block. -/
def failureBytes (v : Encounter) : List UInt8 :=
  (v.failure?.map Error.message).toList.flatMap lineBytes

theorem block_eq (v : Encounter) :
    v.block = lineBytes (markerLine v.path) ++ (v.appliedBytes ++ v.failureBytes) := by
  rw [block, lines, List.flatMap_cons, List.flatMap_append, appliedBytes, failureBytes]

/-- What is logged before the augmentations are reported. -/
def opening (v : Encounter) : List Log.Signal :=
  .opened (fileScope v.path) :: v.notes.map fun note => .event (noteEvent note)

/-- What is logged about a file that was written, or failed. -/
def ending (v : Encounter) : List Log.Signal :=
  match v.failure? with
  | some e => [.recorded "error" e.message, .event (failedEvent e)]
  | none => [.event (writtenEvent v.applied.length)]

/-- All that is logged about a file. -/
def signals (v : Encounter) : List Log.Signal := v.opening ++ (v.ending ++ [.closed])

/-! ## 3. How it may go -/

variable {v : Encounter}

/-- A file that is not read fails, and nothing is applied. -/
theorem of_text_error {e : Error} (h : v.text = .error e) :
    v.stored = .error e ∧ v.applied = [] ∧ v.notes = [] := by
  simp [stored, applied, notes, h]

/-- To a text that is read the augmentations are applied, and then it is to be written. -/
theorem of_text_ok {text : List Char} (h : v.text = .ok text) :
    v.applied = (augment text).applied ∧ v.notes = (augment text).notes ∧
      v.stored = match v.disk.write v.path (Text.encode (augment text).text) with
        | .error fault => .error (writeError v.path fault)
        | .ok disk => .ok disk := by
  simp [applied, notes, stored, h]

/-- A file that fails leaves the disk as it is. -/
theorem of_stored_error {e : Error} (h : v.stored = .error e) :
    v.failure? = some e ∧ v.after = v.disk ∧ v.visit = .failed e ∧
      v.failureBytes = lineBytes e.message ∧
      v.ending = [.recorded "error" e.message, .event (failedEvent e)] := by
  simp [failure?, after, visit, failureBytes, ending, h]

/-- A file that is stored does not fail. -/
theorem of_stored_ok {disk : Disk} (h : v.stored = .ok disk) :
    v.failure? = none ∧ v.after = disk ∧ v.visit = .written v.applied.length ∧
      v.failureBytes = [] ∧ v.ending = [.event (writtenEvent v.applied.length)] := by
  simp [failure?, after, visit, failureBytes, ending, h]

end Encounter

/-! ## 4. The services -/

theorem readText_host (path : Path) (w : World) :
    readText World.host path w = ((w.meet path).text, w) := by
  have hread : World.host.read path w = (w.disk.read path, w) := rfl
  rw [readText, bind_state, hread, Encounter.text]
  show _ = (match w.disk.read path with
    | .error fault => _
    | .ok bytes => _, w)
  rcases w.disk.read path with fault | bytes
  · rfl
  · dsimp only
    cases Text.decode? bytes <;> rfl

theorem overwrite_host (path : Path) (text : List Char) (w : World) :
    overwrite World.host path text w =
      match w.disk.write path (Text.encode text) with
      | .error fault => (.error (writeError path fault), w)
      | .ok disk => (.ok (), { w with disk }) := by
  have hwrite : World.host.write path (Text.encode text) w =
      match w.disk.write path (Text.encode text) with
      | .error fault => (.error fault, w)
      | .ok disk => (.ok (), { w with disk }) := rfl
  rw [overwrite, bind_state, hwrite]
  cases w.disk.write path (Text.encode text) <;> rfl

theorem within_host {α : Type} (scope : Log.Scope) (work : StateM World α) (w : World) :
    World.host.within scope work w =
      let (result, w') := work { w with journal := w.journal ++ [.opened scope] }
      (result, { w' with journal := w'.journal ++ [.closed] }) := rfl

theorem giveUp_host (e : Error) (w : World) :
    giveUp World.host e w = (.ok (.failed e), { w with
      journal := w.journal ++ [.recorded "error" e.message, .event (failedEvent e)] }) := by
  rw [giveUp, bind_state, logAll_host]
  rfl

/-! ## 5. One visit -/

/-- What augmenting a file comes to. If the report has no room for the augmentations, the file is
    not written. -/
theorem augmentFile_host (path : Path) (w : World) (hfits : w.report.Fits) :
    augmentFile World.host path w =
      if w.report.hasRoom (w.meet path).appliedBytes.length then
        (.ok (w.meet path).visit, { w with
          disk := (w.meet path).after
          report := w.report.offer (w.meet path).appliedBytes
          journal := w.journal ++ (w.meet path).signals })
      else
        (.error reportError, { w with
          report := w.report.offer (w.meet path).appliedBytes
          journal := w.journal ++ ((w.meet path).opening ++ [.closed]) }) := by
  rw [augmentFile, within_host, bind_state, readText_host]
  have hmeet : World.meet { w with journal := w.journal ++ [.opened (fileScope path)] } path =
    w.meet path := rfl
  dsimp only
  rw [hmeet]
  cases htext : (w.meet path).text with
  | error e =>
    obtain ⟨hstored, happlied, hnotes⟩ := Encounter.of_text_error htext
    obtain ⟨-, hafter, hvisit, -, hending⟩ := Encounter.of_stored_error hstored
    have hopening : (w.meet path).opening = [.opened (fileScope path)] := by
      rw [Encounter.opening, hnotes]
      rfl
    have hbytes : (w.meet path).appliedBytes = [] := by rw [Encounter.appliedBytes, happlied]; rfl
    dsimp only
    rw [giveUp_host, hbytes, List.length_nil, Sink.hasRoom_zero hfits, if_pos rfl, hvisit, hafter,
      Sink.offer_nil, Encounter.signals, hopening, hending]
    simp [World.meet]
  | ok text =>
    obtain ⟨happlied, hnotes, hstored⟩ := Encounter.of_text_ok htext
    have hopening : (w.meet path).opening =
        .opened (fileScope path) :: (augment text).notes.map fun note => .event (noteEvent note) := by
      rw [Encounter.opening, hnotes]
      rfl
    have hbytes : (w.meet path).appliedBytes =
        ((augment text).applied.map String.ofList).flatMap lineBytes := by
      rw [Encounter.appliedBytes, happlied]
    dsimp only
    rw [bind_state, logAll_host, bind_state, reportAll_host _ (by exact hfits), ← hbytes]
    dsimp only
    cases w.report.hasRoom (w.meet path).appliedBytes.length with
    | false =>
      rw [if_neg Bool.false_ne_true, if_neg Bool.false_ne_true, hopening]
      simp [pure_state]
    | true =>
      rw [if_pos rfl, if_pos rfl, Encounter.signals, hopening]
      dsimp only
      rw [bind_state, overwrite_host]
      dsimp only
      cases hwrite : w.disk.write path (Text.encode (augment text).text) with
      | error fault =>
        rw [show (w.meet path).disk.write (w.meet path).path _ = _ from hwrite] at hstored
        obtain ⟨-, hafter, hvisit, -, hending⟩ := Encounter.of_stored_error hstored
        dsimp only
        rw [giveUp_host, hvisit, hafter, hending]
        simp [World.meet]
      | ok disk =>
        rw [show (w.meet path).disk.write (w.meet path).path _ = _ from hwrite] at hstored
        obtain ⟨-, hafter, hvisit, -, hending⟩ := Encounter.of_stored_ok hstored
        dsimp only
        rw [bind_state, hvisit, hafter, hending, happlied]
        simp [pure_state, World.host]

/-- **A visit for which the report has room does all that belongs to it.** -/
theorem visitFile_of_room (path : Path) (w : World) (hfits : w.report.Fits)
    (hroom : w.report.hasRoom (w.meet path).block.length = true) :
    visitFile World.host path w = (.ok (w.meet path).visit, { w with
      disk := (w.meet path).after
      report := w.report.offer (w.meet path).block
      journal := w.journal ++ (w.meet path).signals }) := by
  have hpath : (w.meet path).path = path := rfl
  rw [Encounter.block_eq, hpath] at hroom ⊢
  rw [Sink.hasRoom_append hfits, Sink.hasRoom_append (hfits.offer _), Bool.and_eq_true,
    Bool.and_eq_true] at hroom
  obtain ⟨hmarker, happlied, hfailure⟩ := hroom
  have haugment := augmentFile_host path
    { w with report := w.report.offer (lineBytes (markerLine path)) } (hfits.offer _)
  have hmeet : World.meet { w with report := w.report.offer (lineBytes (markerLine path)) } path =
    w.meet path := rfl
  rw [hmeet, if_pos happlied] at haugment
  rw [visitFile, bind_state, report_host, if_pos hmarker]
  dsimp only
  rw [bind_state, haugment, ← Sink.offer_offer, ← Sink.offer_offer]
  dsimp only
  cases hstored : (w.meet path).stored with
  | ok disk =>
    obtain ⟨-, -, hvisit, hbytes, -⟩ := Encounter.of_stored_ok hstored
    rw [hvisit, hbytes, Sink.offer_nil]
    rfl
  | error e =>
    obtain ⟨-, -, hvisit, hbytes, -⟩ := Encounter.of_stored_error hstored
    rw [hbytes] at hfailure
    rw [hvisit, hbytes]
    dsimp only
    rw [bind_state, report_host, if_pos hfailure]
    rfl

/-- **A visit for which the report has no room leaves the disk as it is.** -/
theorem visitFile_of_full (path : Path) (w : World) (hfits : w.report.Fits)
    (hroom : w.report.hasRoom (w.meet path).block.length = false) :
    ∃ said, said.Sublist (w.meet path).signals ∧
      visitFile World.host path w = (.error reportError, { w with
        report := w.report.offer (w.meet path).block
        journal := w.journal ++ said }) := by
  have hpath : (w.meet path).path = path := rfl
  rw [Encounter.block_eq, hpath] at hroom ⊢
  rw [visitFile, bind_state, report_host]
  dsimp only
  cases hmarker : w.report.hasRoom (lineBytes (markerLine path)).length with
  | false =>
    refine ⟨[], List.nil_sublist _, ?_⟩
    rw [if_neg Bool.false_ne_true, Sink.offer_of_full hmarker, List.append_nil]
    rfl
  | true =>
    rw [Sink.hasRoom_append hfits, hmarker, Bool.true_and] at hroom
    have haugment := augmentFile_host path
      { w with report := w.report.offer (lineBytes (markerLine path)) } (hfits.offer _)
    have hmeet : World.meet { w with report := w.report.offer (lineBytes (markerLine path)) } path =
      w.meet path := rfl
    rw [hmeet] at haugment
    rw [if_pos rfl, ← Sink.offer_offer]
    dsimp only at haugment ⊢
    rw [bind_state, haugment]
    cases happlied : (w.report.offer (lineBytes (markerLine path))).hasRoom
        (w.meet path).appliedBytes.length with
    | false =>
      refine ⟨(w.meet path).opening ++ [.closed], ?_, ?_⟩
      · exact (List.sublist_append_right _ _).append_left _
      · rw [Sink.offer_of_full happlied, if_neg Bool.false_ne_true]
        rfl
    | true =>
      rw [Sink.hasRoom_append (hfits.offer _), happlied, Bool.true_and] at hroom
      rw [if_pos rfl, ← Sink.offer_offer]
      dsimp only
      -- only the message of an error is left, and with one the disk is as it was
      cases hstored : (w.meet path).stored with
      | ok disk =>
        obtain ⟨-, -, -, hbytes, -⟩ := Encounter.of_stored_ok hstored
        have hzero := Sink.hasRoom_zero ((hfits.offer (lineBytes (markerLine path))).offer
          (w.meet path).appliedBytes)
        rw [hbytes, List.length_nil, hzero] at hroom
        cases hroom
      | error e =>
        obtain ⟨-, hafter, hvisit, hbytes, -⟩ := Encounter.of_stored_error hstored
        rw [hbytes] at hroom ⊢
        refine ⟨(w.meet path).signals, List.Sublist.refl _, ?_⟩
        rw [hvisit, hafter]
        dsimp only
        rw [bind_state, report_host, hroom, if_neg Bool.false_ne_true]
        rfl

end StructTags
