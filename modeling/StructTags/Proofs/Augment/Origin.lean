import Mathlib.Logic.Function.Iterate
import StructTags.Proofs.Augment.Insertion
import StructTags.Proofs.Text.Words

/-!
# Where json pairs come from

What is put in begins with a blank and holds the scheme msgpack, so it begins no word with the
scheme json:

* `Tag.lead_isPrefix_raw`: the first pair of a tag without msgpack is such a word;
* `Inserts.isInfix_of_isInfix`: a word with the scheme json that is there after an insertion was
  there before;
* `Augmentation.isInfix_of_foldl_step`: so it was there before all steps;
* `isInfix_of_iterate_augment`: and before any number of calls, each on what the one before left;
* **`augment_invents_no_json`**: augmenting makes no such word, and what a further call would still
  augment by was written in the text as it was given.
-/

namespace StructTags

theorem Tag.lead_isPrefix_raw {t : Tag} (h : t.hasMsgpack = false) :
    Scheme.json.lead <+: t.first.raw := by
  rw [first_eq_of_hasMsgpack h, Pair.raw, List.append_assoc]
  exact List.prefix_append _ _

section

variable {w : List Char}

/-- A word that begins with the lead of json does not begin in a lead of msgpack. -/
theorem isInfix_of_lead_append (hlead : Scheme.json.lead <+: w) {v : List Char}
    (h : w <:+: Scheme.msgpack.lead ++ v) : w <:+: v := by
  obtain ⟨rest, rfl⟩ := hlead
  exact Text.cons_isInfix_of_notMem (by decide) h

/-- **An insertion makes no word with the scheme json.** -/
theorem Inserts.isInfix_of_isInfix {value x y : List Char} (hins : Inserts value x y)
    (hsolid : Text.Solid w) (hlead : Scheme.json.lead <+: w) (h : w <:+: y) : w <:+: x := by
  obtain ⟨front, rest, rfl, rfl⟩ := hins
  have hsegment : segment value ++ rest = ' ' :: ((Pair.mk .msgpack value).raw ++ rest) := rfl
  rw [hsegment, ← List.append_assoc] at h
  rcases Text.isInfix_or_of_notMem (hsolid.notMem (by decide)) h with hfront | hback
  · rw [← List.append_assoc]
    exact hfront.trans (List.prefix_append _ rest).isInfix
  · -- behind the lead of msgpack comes the value again, and what followed it
    rw [Pair.raw, List.append_assoc, List.append_assoc] at hback
    refine (isInfix_of_lead_append hlead hback).trans ⟨front ++ Scheme.json.lead, [], ?_⟩
    simp [Pair.raw]

/-- **No step makes a word with the scheme json.** -/
theorem Augmentation.isInfix_of_foldl_step (hsolid : Text.Solid w)
    (hlead : Scheme.json.lead <+: w) {a : Augmentation} {ts : List Tag}
    (h : w <:+: (ts.foldl step a).text) : w <:+: a.text := by
  have hrun := a.reflTransGen_foldl_step ts
  generalize (ts.foldl step a).text = y at h hrun
  induction hrun with
  | refl => exact h
  | tail _ hstep ih =>
    obtain ⟨t, -, -, hins⟩ := hstep
    exact ih (hins.isInfix_of_isInfix hsolid hlead h)

/-- What the calls after the first one start from does not matter either: no call makes such a
    word. -/
theorem isInfix_of_iterate_augment (hsolid : Text.Solid w) (hlead : Scheme.json.lead <+: w)
    (n : Nat) {s : List Char} (h : w <:+: (fun x => (augment x).text)^[n] s) : w <:+: s := by
  induction n generalizing s with
  | zero => exact h
  | succ n ih => exact Augmentation.isInfix_of_foldl_step hsolid hlead (ih h)

end

/-- A first pair of a text occurs there. -/
theorem isInfix_of_mem_scan {s : List Char} {g : Group} (hg : g ∈ scan s) :
    g.tag.first.raw <:+: s := by
  obtain ⟨u, v, hs, -⟩ := standsAt_raw_of_mem_scan hg
  exact ⟨u, v, by rw [hs, List.append_assoc]⟩

/-- **Augmenting invents no json pair.** A word without blanks that begins with the lead of json and
    occurs in the augmented text occurs in the text as it was given. So whatever a further call
    finds without msgpack, after however many calls, has a first pair that was written there. -/
theorem augment_invents_no_json (s : List Char) :
    (∀ w, Scheme.json.lead <+: w → Text.Solid w → w <:+: (augment s).text → w <:+: s) ∧
      ∀ n, ∀ g ∈ scan ((fun x => (augment x).text)^[n] s), g.tag.hasMsgpack = false →
        Scheme.json.lead <+: g.tag.first.raw ∧ g.tag.first.raw <:+: s := by
  refine ⟨fun w hlead hsolid h => ?_, fun n g hg hnone => ?_⟩
  · exact Augmentation.isInfix_of_foldl_step hsolid hlead h
  · have hlead := Tag.lead_isPrefix_raw hnone
    have hsolid := (valid_of_mem_scan hg).1.solid_raw
    exact ⟨hlead, isInfix_of_iterate_augment hsolid hlead n (isInfix_of_mem_scan hg)⟩

/-- The backtick in front of the second pair closes the first tag, so this pair is in no tag at
    first. Once the first tag has become longer, the pair stands in a tag that a further call finds
    without msgpack. -/
theorem augment_invents_no_json_next :
    (Scheme.json.lead <+: "json:\"b\"".toList ∧ Text.Solid "json:\"b\"".toList ∧
        "json:\"b\"".toList <:+: (augment "`json:\"a\" `json:\"b\"`".toList).text ∧
        (Group.mk 22 ⟨⟨.json, ['b']⟩, none, none⟩) ∈
          scan ((fun x => (augment x).text)^[1] "`json:\"a\" `json:\"b\"`".toList)) ∧
      "json:\"b\"".toList <:+: "`json:\"a\" `json:\"b\"`".toList ∧
      (Pair.mk .json ['b']).raw <:+: "`json:\"a\" `json:\"b\"`".toList := by
  have hlead : Scheme.json.lead <+: "json:\"b\"".toList := ⟨['b', quote], by decide⟩
  have hsolid : Text.Solid "json:\"b\"".toList := by decide
  have h : "json:\"b\"".toList <:+: (augment "`json:\"a\" `json:\"b\"`".toList).text :=
    ⟨"`json:\"a\" msgpack:\"a\" `".toList, [backtick], by decide +kernel⟩
  have hg : (Group.mk 22 ⟨⟨.json, ['b']⟩, none, none⟩) ∈
      scan ((fun x => (augment x).text)^[1] "`json:\"a\" `json:\"b\"`".toList) := by
    decide +kernel
  have ⟨hword, hgroup⟩ := augment_invents_no_json "`json:\"a\" `json:\"b\"`".toList
  exact ⟨⟨hlead, hsolid, h, hg⟩, hword _ hlead hsolid h, (hgroup 1 _ hg rfl).2⟩

end StructTags
