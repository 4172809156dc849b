import StructTags.Proofs.Augment.Plain

/-!
# What is applied to a text, and in which order

The augmentations applied are kept in a list, and a tag whose augmentation is in it is passed over.
This file says which list comes of that:

* `Tag.augmentation?_eq_iff`: two tags without msgpack have the same augmentation if and only if
  they have the same first pair;
* `leaders`: of the tags without msgpack, the first one with each first pair;
* `Augmentation.stepWith`, `augmentWith`: augmenting with another replacement;
* **`augment_applied_leaders`**: what is applied are the augmentations of these tags, in their
  order, each once and whatever the replacements do to the text.

A tag with msgpack does not count for the order, even if it is the first with its first pair
(`augment_applied_behind_msgpack`).
-/

namespace StructTags

/-! ## 1. Augmentations and first pairs -/

theorem Pair.eq_of_raw_eq {a b : Pair} (hscheme : a.scheme = b.scheme) (h : a.raw = b.raw) :
    a = b := by
  obtain ⟨scheme, v⟩ := a
  obtain ⟨_, v'⟩ := b
  obtain rfl := hscheme
  have hvalue : v = v' := List.append_cancel_left (List.append_cancel_right h)
  rw [hvalue]

/-- The augmentation of a tag without msgpack stands for its first pair. -/
theorem Tag.augmentation?_eq_iff {t u : Tag} (ht : t.hasMsgpack = false)
    (hu : u.hasMsgpack = false) :
    t.augmentation? = u.augmentation? ↔ t.first.raw = u.first.raw := by
  rw [Tag.augmentation?_eq_some_iff.mpr ⟨ht, rfl⟩, Tag.augmentation?_eq_some_iff.mpr ⟨hu, rfl⟩,
    Option.some.injEq]
  constructor
  · intro h
    rw [Tag.augmented_inj ht hu h]
  · intro h
    have hscheme := (Tag.scheme_of_hasMsgpack ht).trans (Tag.scheme_of_hasMsgpack hu).symm
    rw [Tag.augmented, Tag.augmented, Pair.eq_of_raw_eq hscheme h]

/-! ## 2. The first tag with each first pair -/

/-- Of the groups without msgpack, the first one with each first pair, from left to right. -/
def leaders (groups : List Group) : List Group :=
  (groups.filter fun g => !g.tag.hasMsgpack).eraseDupsBy fun g h =>
    g.tag.first.raw == h.tag.first.raw

theorem map_some_filterMap (groups : List Group) :
    (groups.filterMap (·.tag.augmentation?)).map some =
      (groups.filter fun g => !g.tag.hasMsgpack).map (·.tag.augmentation?) := by
  induction groups with
  | nil => rfl
  | cons g groups ih =>
    cases h : g.tag.hasMsgpack with
    | true => simpa [Tag.augmentation?_eq, h] using ih
    | false => simpa [Tag.augmentation?_eq, h] using ih

theorem map_leaders (groups : List Group) :
    (leaders groups).map (·.tag.augmentation?) =
      (groups.filterMap (·.tag.augmentation?)).eraseDups.map some := by
  have hdups := map_eraseDupsBy some (· == ·) (groups.filterMap (·.tag.augmentation?))
    fun _ _ _ _ => rfl
  rw [List.eraseDups, hdups, map_some_filterMap, leaders]
  refine map_eraseDupsBy _ _ _ fun g hg h hh => ?_
  have hg : g.tag.hasMsgpack = false := by simpa using (List.mem_filter.mp hg).2
  have hh : h.tag.hasMsgpack = false := by simpa using (List.mem_filter.mp hh).2
  rw [Bool.eq_iff_iff, beq_iff_eq, beq_iff_eq]
  exact (Tag.augmentation?_eq_iff hg hh).symm

/-! ## 3. Other replacements -/

namespace Augmentation

/-- A step that makes another text of the text so far, a needle and its replacement. -/
def stepWith (replace : List Char → List Char → List Char → List Char) (a : Augmentation)
    (tag : Tag) : Augmentation :=
  tag.augmentation?.elim { a with notes := a.notes ++ [.kept tag] } fun augmentation =>
    if a.applied.contains augmentation then a
    else
      { text := replace a.text tag.first.raw augmentation
        applied := a.applied ++ [augmentation]
        notes := a.notes ++ [.applied augmentation] }

theorem stepWith_replaceUnprotected : stepWith replaceUnprotected = step := by
  funext a t
  rw [stepWith, step]
  cases t.augmentation? with
  | none => rfl
  | some augmentation =>
    rw [Option.elim_some]
    simp only [List.contains_iff_mem]

/-- What a step applies follows from what was applied before it. -/
theorem stepWith_applied (replace : List Char → List Char → List Char → List Char)
    {a b : Augmentation} (h : a.applied = b.applied) (t : Tag) :
    (a.stepWith replace t).applied = (b.step t).applied := by
  rw [stepWith, step]
  cases t.augmentation? with
  | none => exact h
  | some augmentation =>
    rw [Option.elim_some]
    simp only [List.contains_iff_mem, h]
    split
    · exact h
    · rfl

theorem foldl_stepWith_applied (replace : List Char → List Char → List Char → List Char)
    {a b : Augmentation} (h : a.applied = b.applied) (ts : List Tag) :
    (ts.foldl (stepWith replace) a).applied = (ts.foldl step b).applied := by
  induction ts generalizing a b with
  | nil => exact h
  | cons t ts ih => exact ih (stepWith_applied replace h t)

/-- A step applies nothing twice. -/
theorem nodup_step {a : Augmentation} (h : a.applied.Nodup) (t : Tag) :
    (a.step t).applied.Nodup := by
  rw [step_applied]
  split
  · rename_i hdue
    exact List.nodup_append.mpr ⟨h, List.pairwise_singleton _ _, fun x hx y hy heq => by
      rw [List.mem_singleton.mp hy] at heq
      exact hdue.2 (heq ▸ hx)⟩
  · rw [List.append_nil]
    exact h

theorem nodup_foldl_step {a : Augmentation} (h : a.applied.Nodup) (ts : List Tag) :
    (ts.foldl step a).applied.Nodup := by
  induction ts generalizing a with
  | nil => exact h
  | cons t ts ih => exact ih (nodup_step h t)

end Augmentation

/-- Augments a text with any replacement. -/
def augmentWith (replace : List Char → List Char → List Char → List Char) (s : List Char) :
    Augmentation :=
  ((scan s).map (·.tag)).foldl (Augmentation.stepWith replace) { text := s }

/-- With the replacement outside of tags with msgpack it is what augmenting does. -/
theorem augmentWith_replaceUnprotected : augmentWith replaceUnprotected = augment := by
  funext s
  rw [augmentWith, augment, Augmentation.stepWith_replaceUnprotected]

/-! ## 4. What is applied -/

/-- **What is applied to a text, and in which order.** Of the tags without msgpack the first one
    with each first pair gives its augmentation, from left to right. Nothing is applied twice, and
    what the replacements make of the text does not matter. -/
theorem augment_applied_leaders (s : List Char) :
    (∀ g ∈ scan s, ∀ h ∈ scan s, g.tag.hasMsgpack = false → h.tag.hasMsgpack = false →
      (g.tag.augmentation? = h.tag.augmentation? ↔ g.tag.first.raw = h.tag.first.raw)) ∧
      (augment s).applied.map some = (leaders (scan s)).map (·.tag.augmentation?) ∧
      (augment s).applied.Nodup ∧
      ∀ replace, (augmentWith replace s).applied = (augment s).applied := by
  refine ⟨fun g _ h _ hg hh => Tag.augmentation?_eq_iff hg hh, ?_,
    Augmentation.nodup_foldl_step List.nodup_nil _,
    fun replace => Augmentation.foldl_stepWith_applied replace rfl _⟩
  rw [map_leaders, augment_applied]

/-- The pair `json:"b"` stands first in a tag with msgpack. That tag gets nothing, and so `json:"a"`
    comes first: the order is not that in which the first pairs stand first in some tag. -/
theorem augment_applied_behind_msgpack :
    (scan "`json:\"b\" msgpack:\"x\"` `json:\"a\"` `json:\"b\"`".toList).map (·.tag.first.raw) =
        ["json:\"b\"".toList, "json:\"a\"".toList, "json:\"b\"".toList] ∧
      (augment "`json:\"b\" msgpack:\"x\"` `json:\"a\"` `json:\"b\"`".toList).applied =
        ["json:\"a\" msgpack:\"a\"".toList, "json:\"b\" msgpack:\"b\"".toList] ∧
      (augment "`json:\"b\" msgpack:\"x\"` `json:\"a\"` `json:\"b\"`".toList).applied ≠
        ((scan "`json:\"b\" msgpack:\"x\"` `json:\"a\"` `json:\"b\"`".toList).map
          (·.tag.first.raw)).eraseDups.filterMap fun raw =>
            ((scan "`json:\"b\" msgpack:\"x\"` `json:\"a\"` `json:\"b\"`".toList).find? fun g =>
              !g.tag.hasMsgpack && g.tag.first.raw == raw).bind (·.tag.augmentation?) := by
  decide +kernel

end StructTags
