import StructTags.Proofs.Augment.Clean
import StructTags.Proofs.Augment.Following

/-!
# What is reported

Augmenting reports the augmentations that it applied, and with them whether it changed anything.
Both are known from the steps alone, without a look at the text. This file says what they tell of
it:

* **`augment_unchanged_iff`**: nothing is reported if and only if the text is the one that was
  given;
* `Augmentation.isInfix_step_iff`: a step writes the augmentation of a value without quotes, or
  leaves it where it is;
* **`augment_applied_isInfix_iff`**: so what is reported stands in the text if some step found a
  place for it, and in a plain text all of it does;
* `exists_applied_not_isInfix`: a step may find none, and reports its augmentation all the same.
-/

namespace StructTags

/-! ## 1. Whether anything changed -/

/-- **Nothing is reported if and only if the text is left as it is**, and that is if and only if all
    its tags have msgpack. What is reported makes the text longer. -/
theorem augment_unchanged_iff (s : List Char) :
    ((augment s).unchanged = true ↔ (augment s).text = s) ∧
      ((augment s).text = s ↔ ∀ g ∈ scan s, g.tag.hasMsgpack = true) ∧
      ((augment s).applied ≠ [] ↔ Text.byteLength s < Text.byteLength (augment s).text) := by
  have hnil : (augment s).applied = [] ↔ (augment s).text = s :=
    augment_applied_eq_nil_iff.trans augment_text_eq_self_iff.symm
  refine ⟨List.isEmpty_iff.trans hnil, augment_text_eq_self_iff, fun hne => ?_, fun hlt heq => ?_⟩
  · rw [ne_eq, augment_applied_eq_nil_iff] at hne
    push Not at hne
    obtain ⟨g, hg, h⟩ := hne
    exact byteLength_lt_augment hg (Bool.not_eq_true _ ▸ h)
  · rw [hnil.mp heq] at hlt
    exact Nat.lt_irrefl _ hlt

/-! ## 2. Steps that write -/

theorem augmentationOf_eq (v : List Char) : augmentationOf v = (Pair.mk .json v).followedBy v := by
  simp [augmentationOf, Pair.followedBy, segment]

namespace Augmentation

/-- The step puts the segment of the value in somewhere. -/
def Writes (value : List Char) (a : Augmentation) (t : Tag) : Prop :=
  t.first = ⟨.json, value⟩ ∧ a.sites t ≠ []

section

variable {a : Augmentation} {t : Tag} {v : List Char}

/-- An insertion takes no augmentation of a value without quotes apart. -/
theorem isInfix_of_inserts {value x y : List Char} (hv : quote ∉ v) (hvalue : Text.Solid value)
    (hins : Inserts value x y) (h : augmentationOf v <:+: x) : augmentationOf v <:+: y := by
  obtain ⟨front, rest, rfl, rfl⟩ := hins
  rw [augmentationOf_eq] at h ⊢
  exact Pair.followedBy_insert hv hv hvalue (congrArg Pair.value) h

theorem isInfix_step_of_writes (hv : quote ∉ v) (ht : Text.Solid t.first.value)
    (h : a.Writes v t) : augmentationOf v <:+: (a.step t).text := by
  obtain ⟨hfirst, hne⟩ := h
  obtain ⟨e, he⟩ := List.exists_mem_of_ne_nil _ hne
  obtain ⟨u, w, htext, rfl⟩ := exists_cut_of_mem_sites he
  obtain ⟨x, rfl⟩ := raw_isSuffix_of_mem_sites htext he
  rw [List.append_assoc] at htext
  refine step_of_mem_sites (fun _ _ hins h => isInfix_of_inserts hv ht hins h) htext he ?_
  rw [hfirst, augmentationOf_eq, Pair.followedBy, ← List.append_assoc _ (segment v)]
  exact (List.prefix_append _ _).isInfix.trans (List.suffix_append _ _).isInfix

/-- **The augmentation of a value without quotes is there after a step if it was there before, or
    the step writes it**, unless the value that the step is for ends in its pair. -/
theorem isInfix_step_iff (hv : quote ∉ v) (hsolid : Text.Solid v) (ht : Text.Solid t.first.value)
    (hend : t.hasMsgpack = false → ¬ Scheme.json.lead ++ v <:+ t.first.value) :
    augmentationOf v <:+: (a.step t).text ↔ augmentationOf v <:+: a.text ∨ a.Writes v t := by
  constructor
  · refine step_induction
      (motive := fun y => augmentationOf v <:+: y → augmentationOf v <:+: a.text ∨ a.Writes v t)
      .inl fun x w _ hdue hsite ih h => ?_
    have hfirst := t.first_eq_of_hasMsgpack hdue.1
    rw [congrArg Pair.raw hfirst] at h ih
    rw [augmentationOf_eq] at h ih ⊢
    rcases Pair.followedBy_of_insert hv hsolid hsolid ht h with hbefore | hpair | hlast | ⟨hpair, -⟩
    · exact ih hbefore
    · exact .inr ⟨hfirst.trans hpair.symm, List.ne_nil_of_mem hsite⟩
    · exact absurd hlast (hend hdue.1)
    · cases hpair
  · rintro (h | h)
    · exact (a.reflTransGen_step t).rec h fun _ hins h => isInfix_of_inserts hv ht hins.2 h
    · exact isInfix_step_of_writes hv ht h

end

end Augmentation

/-! ## 3. What was applied -/

theorem Tag.augmented_eq {t : Tag} (h : t.hasMsgpack = false) :
    t.augmented = augmentationOf t.first.value := by
  rw [augmentationOf_eq, Pair.followedBy, ← first_eq_of_hasMsgpack h, augmented]

/-- In a plain text each tag without msgpack gets what it is to get. -/
theorem Plain.isInfix_augment {s : List Char} (hplain : Plain s) {g : Group} (hg : g ∈ scan s)
    (h : g.tag.hasMsgpack = false) : g.tag.augmented <:+: (augment s).text := by
  have hcompleted : g.tag.completed = g.tag.withMsgpack :=
    if_neg (by rw [h]; exact Bool.false_ne_true)
  obtain ⟨i, hmem⟩ : ∃ i, Group.mk i g.tag.withMsgpack ∈ scan (augment s).text := by
    rw [scan_augment hplain, ← hcompleted]
    exact ⟨_, List.mem_map_of_mem hg⟩
  obtain ⟨u, w, htext, -⟩ := standsAt_of_mem_scan hmem
  rw [htext, Tag.text_withMsgpack]
  exact ⟨u ++ [backtick], backtick :: w, by simp [Tag.augmented]⟩

/-- **What is reported as applied stands in the text if it did before, or some step found a place
    for it**, as long as its value has no quotes and no other value ends in its pair. In a plain
    text all that is reported stands in the text. -/
theorem augment_applied_isInfix_iff (s : List Char) :
    (∀ x ∈ (augment s).applied, ∃ v, x = augmentationOf v ∧
        (quote ∉ v →
          (∀ g ∈ scan s, g.tag.hasMsgpack = false →
            ¬ Scheme.json.lead ++ v <:+ g.tag.first.value) →
          (x <:+: (augment s).text ↔ x <:+: s ∨
            Augmentation.AtSomeStep (Augmentation.Writes v) { text := s }
              ((scan s).map (·.tag))))) ∧
      (Plain s → ∀ x ∈ (augment s).applied, x <:+: (augment s).text) := by
  constructor
  · intro x hx
    obtain ⟨g, hg, h, rfl⟩ := mem_augment_applied_iff.mp hx
    rw [Tag.augmented_eq h]
    refine ⟨g.tag.first.value, rfl, fun hv hend => ?_⟩
    exact Augmentation.foldl_step_iff (List.forall_mem_map.mpr fun g' hg' _ =>
      Augmentation.isInfix_step_iff hv (valid_of_mem_scan hg).1.2 (valid_of_mem_scan hg').1.2
        (hend g' hg')) { text := s }
  · intro hplain x hx
    obtain ⟨g, hg, h, rfl⟩ := mem_augment_applied_iff.mp hx
    exact hplain.isInfix_augment hg h

/-- In a plain text with two tags both are reported, and the first one by a step that wrote it. -/
theorem augment_applied_isInfix_two :
    Plain "`json:\"a\"` `json:\"b\"`".toList ∧
      (augment "`json:\"a\"` `json:\"b\"`".toList).applied =
        ["json:\"a\" msgpack:\"a\"".toList, "json:\"b\" msgpack:\"b\"".toList] ∧
      (∀ x ∈ (augment "`json:\"a\"` `json:\"b\"`".toList).applied,
        x <:+: (augment "`json:\"a\"` `json:\"b\"`".toList).text) ∧
      Augmentation.AtSomeStep (Augmentation.Writes ['a'])
        { text := "`json:\"a\"` `json:\"b\"`".toList }
        ((scan "`json:\"a\"` `json:\"b\"`".toList).map (·.tag)) := by
  have hplain : Plain "`json:\"a\"` `json:\"b\"`".toList := by decide +kernel
  have happlied : (augment "`json:\"a\"` `json:\"b\"`".toList).applied =
      [augmentationOf ['a'], augmentationOf ['b']] := by decide +kernel
  have hmem : augmentationOf ['a'] ∈ (augment "`json:\"a\"` `json:\"b\"`".toList).applied := by
    rw [happlied]
    exact List.mem_cons_self
  have hstands := (augment_applied_isInfix_iff "`json:\"a\"` `json:\"b\"`".toList).2 hplain
  refine ⟨hplain, happlied, hstands, ?_⟩
  obtain ⟨v, hv, hiff⟩ :=
    (augment_applied_isInfix_iff "`json:\"a\"` `json:\"b\"`".toList).1 _ hmem
  obtain rfl := augmentationOf_inj hv
  have hwritten := (hiff (by decide) (by decide +kernel)).mp (hstands _ hmem)
  exact hwritten.resolve_left (by decide +kernel)

/-- The backtick that closes the first tag opens another one once that tag has got its msgpack pair.
    This other tag has msgpack, and the pair that the last tag is for stands in it only. -/
theorem exists_applied_not_isInfix :
    ∃ x ∈ (augment "`json:\"a\" `msgpack:\"z\"`json:\"b\"`".toList).applied,
      ¬ x <:+: (augment "`json:\"a\" `msgpack:\"z\"`json:\"b\"`".toList).text := by
  refine ⟨"json:\"b\" msgpack:\"b\"".toList, ?_, ?_⟩
  · decide +kernel
  · decide +kernel

end StructTags
