import StructTags.Proofs.Augment.Step

/-!
# What is noted while a text is augmented

Each tag with msgpack is noted, and each augmentation where its tag first stands:

* `Tag.note?`: what is noted about a tag, given the tags in front of it;
* **`augment_notes`**: what is noted about a text, tag by tag;
* `augment_notes_kept`, `augment_notes_applied`: the tags that are left alone, and the augmentations
  that are applied, as the notes have them.
-/

namespace StructTags

/-! ## 1. Notes -/

namespace Note

/-- The tag that is left alone. -/
def kept? : Note → Option Tag
  | kept tag => some tag
  | applied _ => none

/-- The augmentation that was applied. -/
def applied? : Note → Option (List Char)
  | kept _ => none
  | applied augmentation => some augmentation

end Note

/-- What is noted about a tag, given the tags in front of it: that it is left alone, or its
    augmentation if no tag in front has the same one. -/
def Tag.note? (earlier : List Tag) (t : Tag) : Option Note :=
  match t.augmentation? with
  | none => some (.kept t)
  | some augmentation =>
    if ∃ u ∈ earlier, u.augmentation? = some augmentation then none
    else some (.applied augmentation)

/-! ## 2. One step and all of them -/

namespace Augmentation

/-- A step adds the note about its tag. -/
theorem step_notes {a : Augmentation} {earlier : List Tag}
    (h : ∀ x, x ∈ a.applied ↔ ∃ u ∈ earlier, u.augmentation? = some x) (t : Tag) :
    (a.step t).notes = a.notes ++ (t.note? earlier).toList ∧
      ∀ x, x ∈ (a.step t).applied ↔ ∃ u ∈ earlier ++ [t], u.augmentation? = some x := by
  have hsnoc : ∀ x, (∃ u ∈ earlier ++ [t], u.augmentation? = some x) ↔
      x ∈ a.applied ∨ t.augmentation? = some x := by
    intro x
    rw [h]
    simp [or_and_right, exists_or]
  simp only [hsnoc]
  rw [step, Tag.note?]
  cases t.augmentation? with
  | none => exact ⟨rfl, fun x => (or_iff_left fun h => absurd h.symm (Option.some_ne_none x)).symm⟩
  | some augmentation =>
    dsimp only
    by_cases hmem : augmentation ∈ a.applied
    · rw [if_pos hmem, if_pos ((h _).mp hmem)]
      refine ⟨(List.append_nil _).symm, fun x => (or_iff_left_of_imp fun heq => ?_).symm⟩
      exact Option.some.inj heq ▸ hmem
    · rw [if_neg hmem, if_neg fun hearlier => hmem ((h _).mpr hearlier)]
      refine ⟨rfl, fun x => ?_⟩
      rw [List.mem_append, List.mem_singleton, Option.some.injEq, eq_comm (a := x)]

theorem foldl_step_notes {a : Augmentation} {earlier : List Tag}
    (h : ∀ x, x ∈ a.applied ↔ ∃ u ∈ earlier, u.augmentation? = some x) (ts : List Tag) :
    (ts.foldl step a).notes = a.notes ++
      (ts.zipIdx earlier.length).filterMap fun p => p.1.note? ((earlier ++ ts).take p.2) := by
  induction ts generalizing a earlier with
  | nil => exact (List.append_nil _).symm
  | cons t ts ih =>
    obtain ⟨hnotes, happlied⟩ := step_notes h t
    have htake : (earlier ++ t :: ts).take earlier.length = earlier := List.take_left
    rw [List.foldl_cons, ih happlied, hnotes, List.zipIdx_cons, List.length_append,
      List.append_assoc, List.append_assoc, List.filterMap_cons, htake]
    cases t.note? earlier with
    | none => rfl
    | some note => rfl

theorem foldl_step_kept (a : Augmentation) (ts : List Tag) :
    (ts.foldl step a).notes.filterMap Note.kept? =
      a.notes.filterMap Note.kept? ++ ts.filter Tag.hasMsgpack := by
  induction ts generalizing a with
  | nil => exact (List.append_nil _).symm
  | cons t ts ih =>
    rw [List.foldl_cons, ih, step, t.augmentation?_eq]
    cases hmsgpack : t.hasMsgpack with
    | true => simp [hmsgpack, Note.kept?]
    | false =>
      rw [List.filter_cons_of_neg (by rw [hmsgpack]; exact Bool.false_ne_true)]
      by_cases hmem : t.augmented ∈ a.applied
      · simp [hmem]
      · simp [hmem, Note.kept?]

theorem foldl_step_noted {a : Augmentation} (h : a.notes.filterMap Note.applied? = a.applied)
    (ts : List Tag) :
    (ts.foldl step a).notes.filterMap Note.applied? = (ts.foldl step a).applied := by
  induction ts generalizing a with
  | nil => exact h
  | cons t ts ih =>
    refine ih ?_
    rw [step]
    cases t.augmentation? with
    | none => simp [h, Note.applied?]
    | some augmentation =>
      by_cases hmem : augmentation ∈ a.applied
      · simpa [hmem] using h
      · simp [hmem, h, Note.applied?]

end Augmentation

/-- **What is noted about a text**: for each tag, from left to right, that it is left alone, or the
    augmentation that is applied for it. -/
theorem augment_notes (s : List Char) :
    (augment s).notes = ((scan s).map (·.tag)).zipIdx.filterMap fun p =>
      p.1.note? (((scan s).map (·.tag)).take p.2) := by
  have hempty : ∀ x, x ∈ ({ text := s } : Augmentation).applied ↔
      ∃ u ∈ ([] : List Tag), u.augmentation? = some x := by simp
  rw [augment, Augmentation.foldl_step_notes hempty]
  rfl

/-- The tags with msgpack are noted, in order. -/
theorem augment_notes_kept (s : List Char) :
    (augment s).notes.filterMap Note.kept? = ((scan s).map (·.tag)).filter Tag.hasMsgpack :=
  Augmentation.foldl_step_kept _ _

/-- The augmentations that are applied are noted, in order. -/
theorem augment_notes_applied (s : List Char) :
    (augment s).notes.filterMap Note.applied? = (augment s).applied :=
  Augmentation.foldl_step_noted rfl _

end StructTags
