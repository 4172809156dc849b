import Mathlib.Data.List.Infix
import StructTags.Proofs.Augment.Origin
import StructTags.Proofs.Tag.Seam

/-!
# Augmenting both sides of a seam

A text that is cut by two blanks, one behind the other, is searched one part at a time. This file
says when it is augmented so, although all steps work on the whole text:

* `replaceUnprotected_seam`: a replacement for a word without blanks is made in both parts;
* `Augmentation.beside`: what was done on both sides of a seam;
* `Augmentation.step_beside_left`, `Augmentation.step_beside_right`: a step for a tag whose first
  pair does not occur on the other side is a step on its own side;
* **`augment_seam`**: if no first pair of one part occurs in the other, both parts are augmented as
  if each was alone.
-/

namespace StructTags

/-! ## 1. Replacements -/

section

variable {needle replacement : List Char} {w₁ w₂ : Char}

/-- A replacement only depends on which places for the needle are protected, and not on where the
    text stands. -/
theorem replaceFrom_congr {spans spans' : List Span} {offset offset' : Nat} {s : List Char}
    (h : ∀ i, i + Text.byteLength needle ≤ Text.byteLength s →
      spans.any (Span.mk (offset + i) (offset + i + Text.byteLength needle)).overlaps =
        spans'.any (Span.mk (offset' + i) (offset' + i + Text.byteLength needle)).overlaps) :
    replaceFrom spans needle replacement offset [] s =
      replaceFrom spans' needle replacement offset' [] s := by
  induction s using search_induction needle generalizing offset offset' with
  | nil => rw [replaceFrom, replaceFrom]
  | found hne rest ih =>
    have hhere := h 0 (by rw [Text.byteLength_append]; omega)
    rw [Nat.add_zero, Nat.add_zero] at hhere
    rw [replaceFrom_needle hne, replaceFrom_needle hne, hhere, ih fun i hi => ?_]
    rw [Nat.add_assoc offset, Nat.add_assoc offset']
    exact h _ (by rw [Text.byteLength_append]; omega)
  | skip c cs hb ih =>
    rw [replaceFrom_of_not_beginsWith hb, replaceFrom_of_not_beginsWith hb, ih fun i hi => ?_]
    rw [Nat.add_assoc offset, Nat.add_assoc offset']
    exact h _ (by rw [Text.byteLength_cons]; omega)

/-- A word without blanks does not stand at a blank, which is copied. -/
theorem replaceFrom_cons_blank (hsolid : Text.Solid needle) (h₁ : Text.isBlank w₁ = true)
    (spans : List Span) (offset : Nat) (b : List Char) :
    replaceFrom spans needle replacement offset [] (w₁ :: b) =
      w₁ :: replaceFrom spans needle replacement (offset + w₁.utf8Size) [] b := by
  refine replaceFrom_of_not_beginsWith ?_
  rw [← Bool.not_eq_true, beginsWith_iff]
  intro ⟨hne, rest, hsplit⟩
  have hhead := Text.isBlank_of_cons_eq_append hsolid hne hsplit
  exact Bool.false_ne_true (hhead.symm.trans h₁)

/-- What stands on the sides of a blank is replaced on its own. -/
theorem replaceFrom_blank (hsolid : Text.Solid needle) (h₁ : Text.isBlank w₁ = true)
    (spans : List Span) (offset : Nat) (s b : List Char) :
    replaceFrom spans needle replacement offset [] (s ++ w₁ :: b) =
      replaceFrom spans needle replacement offset [] s ++
        w₁ :: replaceFrom spans needle replacement (offset + Text.byteLength (s ++ [w₁])) [] b := by
  -- where the needle does not stand, no blank behind makes it stand there
  have hblank (c : Char) (cs : List Char) (h : beginsWith needle (c :: cs) = false) :
      beginsWith needle (c :: (cs ++ w₁ :: b)) = false := by
    rw [← Bool.not_eq_true, beginsWith_iff] at h ⊢
    intro ⟨hne, rest, hsplit⟩
    rw [← List.cons_append] at hsplit
    obtain ⟨z, hz, -⟩ := exists_append_of_solid hsolid h₁ hsplit
    exact h ⟨hne, z, hz⟩
  induction s using search_induction needle generalizing offset with
  | nil =>
    rw [List.nil_append, replaceFrom_cons_blank hsolid h₁, replaceFrom]
    rfl
  | found hne rest ih =>
    rw [List.append_assoc, replaceFrom_needle hne, replaceFrom_needle hne, ih, List.append_assoc,
      List.append_assoc, Text.byteLength_append needle, Nat.add_assoc]
  | skip c cs hb ih =>
    rw [List.cons_append, replaceFrom_of_not_beginsWith (hblank c cs hb),
      replaceFrom_of_not_beginsWith hb, ih, List.cons_append, List.cons_append,
      Text.byteLength_cons, Nat.add_assoc]

theorem stop_le_of_mem_msgpackSpans {s : List Char} {o : Span} (h : o ∈ msgpackSpans s) :
    o.stop ≤ Text.byteLength s := by
  obtain ⟨g, hg, rfl⟩ := List.mem_map.mp h
  rw [g.span_stop]
  exact (standsAt_of_mem_scan (List.mem_filter.mp hg).1).stop_le

/-- **A replacement for a word without blanks is made on both sides of a seam.** -/
theorem replaceUnprotected_seam (hsolid : Text.Solid needle) (h₁ : Text.isBlank w₁ = true)
    (h₂ : Text.isBlank w₂ = true) (s b replacement : List Char) :
    replaceUnprotected (s ++ w₁ :: w₂ :: b) needle replacement =
      replaceUnprotected s needle replacement ++
        w₁ :: w₂ :: replaceUnprotected b needle replacement := by
  have hsize : Text.byteLength s ≤ Text.byteLength (s ++ [w₁, w₂]) := by
    rw [Text.byteLength_append]
    omega
  have hspans := msgpackSpans_seam h₁ h₂ s b
  have hfront : replaceFrom (msgpackSpans (s ++ w₁ :: w₂ :: b)) needle replacement 0 [] s =
      replaceUnprotected s needle replacement := by
    refine replaceFrom_congr fun i hi => ?_
    rw [hspans, List.any_append, List.any_map, Bool.or_eq_left_iff_imp, List.any_eq_true]
    intro ⟨o, _, ho⟩
    refine absurd ho (Bool.eq_false_iff.mp (overlaps_eq_false_iff.mpr (.inl ?_)))
    simp only [Span.shift]
    omega
  have hback : replaceFrom (msgpackSpans (s ++ w₁ :: w₂ :: b)) needle replacement
      (Text.byteLength (s ++ [w₁, w₂])) [] b = replaceUnprotected b needle replacement := by
    refine replaceFrom_congr fun i hi => ?_
    rw [hspans, List.any_append, List.any_map, Nat.zero_add]
    have hnone : (msgpackSpans s).any (Span.mk (Text.byteLength (s ++ [w₁, w₂]) + i)
        (Text.byteLength (s ++ [w₁, w₂]) + i + Text.byteLength needle)).overlaps = false := by
      rw [List.any_eq_false]
      intro o ho
      have hstop := stop_le_of_mem_msgpackSpans ho
      exact Bool.eq_false_iff.mp (overlaps_eq_false_iff.mpr (.inr (by dsimp only; omega)))
    rw [hnone, Bool.false_or]
    congr 1
    funext o
    rw [Function.comp_apply, Nat.add_assoc]
    exact Span.overlaps_shift _ ⟨i, i + Text.byteLength needle⟩ o
  have hseam : 0 + Text.byteLength (s ++ [w₁]) + w₂.utf8Size =
      Text.byteLength (s ++ [w₁, w₂]) := by
    simp [Nat.add_assoc]
  rw [replaceUnprotected, replaceFrom_blank hsolid h₁, hfront, replaceFrom_cons_blank hsolid h₂,
    hseam, hback]

/-- Where the needle does not occur, nothing is replaced. -/
theorem replaceUnprotected_of_not_isInfix {s : List Char} (h : ¬ needle <:+: s)
    (replacement : List Char) : replaceUnprotected s needle replacement = s := by
  rw [replaceUnprotected]
  generalize msgpackSpans s = spans, 0 = offset
  induction s using search_induction needle generalizing offset with
  | nil => rw [replaceFrom]; rfl
  | found _ rest _ => exact absurd (List.prefix_append needle rest).isInfix h
  | skip c cs hb ih =>
    rw [replaceFrom_of_not_beginsWith hb, ih fun hcs => h (List.infix_cons hcs)]

end

/-! ## 2. Augmentations side by side -/

namespace Augmentation

/-- What was done on both sides of a seam, on the left one first. -/
def beside (a : Augmentation) (seam : List Char) (b : Augmentation) : Augmentation where
  text := a.text ++ (seam ++ b.text)
  applied := a.applied ++ b.applied
  notes := a.notes ++ b.notes

section

variable {w₁ w₂ : Char} {t : Tag} {ts : List Tag} {a b : Augmentation} {s : List Char}

/-- A step for a tag whose first pair does not occur on the right is a step on the left. -/
theorem step_beside_left (h₁ : Text.isBlank w₁ = true) (h₂ : Text.isBlank w₂ = true)
    (hsolid : Text.Solid t.first.raw) (hs : t.hasMsgpack = false → ¬ t.first.raw <:+: s) :
    (a.beside [w₁, w₂] { text := s }).step t = (a.step t).beside [w₁, w₂] { text := s } := by
  rw [step, step, t.augmentation?_eq]
  cases hmsgpack : t.hasMsgpack with
  | true => simp [beside]
  | false =>
    have htext := replaceUnprotected_seam hsolid h₁ h₂ a.text s t.augmented
    rw [replaceUnprotected_of_not_isInfix (hs hmsgpack)] at htext
    by_cases hmem : t.augmented ∈ a.applied
    · simp [beside, hmem]
    · simp [beside, hmem, htext]

/-- A step for a tag whose first pair does not occur on the left, where it was not applied, is a
    step on the right. -/
theorem step_beside_right (h₁ : Text.isBlank w₁ = true) (h₂ : Text.isBlank w₂ = true)
    (hsolid : Text.Solid t.first.raw)
    (ha : t.hasMsgpack = false → ¬ t.first.raw <:+: a.text ∧ t.augmented ∉ a.applied) :
    (a.beside [w₁, w₂] b).step t = a.beside [w₁, w₂] (b.step t) := by
  rw [step, step, t.augmentation?_eq]
  cases hmsgpack : t.hasMsgpack with
  | true => simp [beside]
  | false =>
    obtain ⟨hnot, hnew⟩ := ha hmsgpack
    have htext := replaceUnprotected_seam hsolid h₁ h₂ a.text b.text t.augmented
    rw [replaceUnprotected_of_not_isInfix hnot] at htext
    by_cases hmem : t.augmented ∈ b.applied
    · simp [beside, hmem]
    · simp [beside, hmem, hnew, htext]

theorem foldl_step_beside_left (h₁ : Text.isBlank w₁ = true) (h₂ : Text.isBlank w₂ = true)
    (hts : ∀ t ∈ ts, Text.Solid t.first.raw ∧ (t.hasMsgpack = false → ¬ t.first.raw <:+: s)) :
    ts.foldl step (a.beside [w₁, w₂] { text := s }) =
      (ts.foldl step a).beside [w₁, w₂] { text := s } := by
  induction ts generalizing a with
  | nil => rfl
  | cons t ts ih =>
    obtain ⟨⟨hsolid, hs⟩, hts⟩ := List.forall_mem_cons.mp hts
    rw [List.foldl_cons, step_beside_left h₁ h₂ hsolid hs, ih hts, List.foldl_cons]

theorem foldl_step_beside_right (h₁ : Text.isBlank w₁ = true) (h₂ : Text.isBlank w₂ = true)
    (hts : ∀ t ∈ ts, Text.Solid t.first.raw ∧
      (t.hasMsgpack = false → ¬ t.first.raw <:+: a.text ∧ t.augmented ∉ a.applied)) :
    ts.foldl step (a.beside [w₁, w₂] b) = a.beside [w₁, w₂] (ts.foldl step b) := by
  induction ts generalizing b with
  | nil => rfl
  | cons t ts ih =>
    obtain ⟨⟨hsolid, ha⟩, hts⟩ := List.forall_mem_cons.mp hts
    rw [List.foldl_cons, step_beside_right h₁ h₂ hsolid ha, ih hts, List.foldl_cons]

end

end Augmentation

/-! ## 3. Unrelated texts -/

/-- No first pair of a tag without msgpack of the first text occurs in the second. -/
def Unrelated (s b : List Char) : Prop :=
  ∀ g ∈ scan s, g.tag.hasMsgpack = false → ¬ g.tag.first.raw <:+: b

instance (s b : List Char) : Decidable (Unrelated s b) := List.decidableBAll _ _

/-- What no first pair of a text occurs in is not applied to it. -/
theorem augmented_notMem_applied {s b : List Char} (h : Unrelated s b) {g : Group}
    (hg : g ∈ scan b) (hnone : g.tag.hasMsgpack = false) :
    g.tag.augmented ∉ (augment s).applied := by
  intro hmem
  obtain ⟨g', hg', hnone', heq⟩ := mem_augment_applied_iff.mp hmem
  refine h g' hg' hnone' ?_
  rw [Tag.augmented_inj hnone' hnone heq]
  exact isInfix_of_mem_scan hg

theorem Unrelated.left {s b : List Char} (h : Unrelated s b) :
    ∀ t ∈ (scan s).map (·.tag),
      Text.Solid t.first.raw ∧ (t.hasMsgpack = false → ¬ t.first.raw <:+: b) :=
  List.forall_mem_map.mpr fun g hg => ⟨(valid_of_mem_scan hg).1.solid_raw, h g hg⟩

/-- A first pair that does not occur in a text does not occur in what becomes of it either. -/
theorem Unrelated.right {s b : List Char} (h : Unrelated b s) (hs : Unrelated s b) :
    ∀ t ∈ (scan b).map (·.tag), Text.Solid t.first.raw ∧ (t.hasMsgpack = false →
      ¬ t.first.raw <:+: (augment s).text ∧ t.augmented ∉ (augment s).applied) := by
  refine List.forall_mem_map.mpr fun g hg => ?_
  have hsolid := (valid_of_mem_scan hg).1.solid_raw
  refine ⟨hsolid, fun hnone => ⟨fun hinfix => h g hg hnone ?_, ?_⟩⟩
  · exact Augmentation.isInfix_of_foldl_step hsolid (Tag.lead_isPrefix_raw hnone) hinfix
  · exact augmented_notMem_applied hs hg hnone

/-- **Unrelated parts of a text do not influence each other.** If two texts stand on the sides of
    two blanks and no first pair of one of them, of a tag without msgpack, occurs in the other, then
    both are augmented as if each was alone. -/
theorem augment_seam {s b : List Char} {w₁ w₂ : Char} (h₁ : Text.isBlank w₁ = true)
    (h₂ : Text.isBlank w₂ = true) (hs : Unrelated s b) (hb : Unrelated b s) :
    (augment (s ++ [w₁, w₂] ++ b)).text = (augment s).text ++ [w₁, w₂] ++ (augment b).text ∧
      (augment (s ++ [w₁, w₂] ++ b)).applied = (augment s).applied ++ (augment b).applied ∧
      (augment (s ++ [w₁, w₂] ++ b)).notes = (augment s).notes ++ (augment b).notes := by
  have htags : (scan (s ++ [w₁, w₂] ++ b)).map (·.tag) =
      (scan s).map (·.tag) ++ (scan b).map (·.tag) := by
    rw [List.append_assoc, List.cons_append, List.singleton_append, scan_seam h₁ h₂,
      List.map_append, List.map_map]
    rfl
  have hstart : ({ text := s ++ [w₁, w₂] ++ b } : Augmentation) =
      Augmentation.beside { text := s } [w₁, w₂] { text := b } := by
    simp [Augmentation.beside]
  have heq : augment (s ++ [w₁, w₂] ++ b) = (augment s).beside [w₁, w₂] (augment b) := by
    rw [augment, htags, hstart, List.foldl_append,
      Augmentation.foldl_step_beside_left h₁ h₂ hs.left]
    exact Augmentation.foldl_step_beside_right h₁ h₂ (hb.right hs)
  rw [heq]
  exact ⟨by simp [Augmentation.beside], rfl, rfl⟩

/-- Both parts hold tags that get msgpack and tags that have it. The seam is a line break and an
    ideographic space. -/
theorem augment_seam_fields :
    (Text.isBlank '\n' = true ∧ Text.isBlank '\u3000' = true ∧
        Unrelated "A `json:\"a\"` B `json:\"b\" msgpack:\"x\"`".toList
          "C `json:\"c\"` `json:\"b\" msgpack:\"x\"` `json:\"c\"`".toList ∧
        Unrelated "C `json:\"c\"` `json:\"b\" msgpack:\"x\"` `json:\"c\"`".toList
          "A `json:\"a\"` B `json:\"b\" msgpack:\"x\"`".toList) ∧
      (augment ("A `json:\"a\"` B `json:\"b\" msgpack:\"x\"`".toList ++ ['\n', '\u3000'] ++
          "C `json:\"c\"` `json:\"b\" msgpack:\"x\"` `json:\"c\"`".toList)).text =
        "A `json:\"a\" msgpack:\"a\"` B `json:\"b\" msgpack:\"x\"`".toList ++ ['\n', '\u3000'] ++
          ("C `json:\"c\" msgpack:\"c\"` `json:\"b\" msgpack:\"x\"` " ++
            "`json:\"c\" msgpack:\"c\"`").toList := by
  have h₁ : Text.isBlank '\n' = true := by decide
  have h₂ : Text.isBlank '\u3000' = true := by decide
  have hs : Unrelated "A `json:\"a\"` B `json:\"b\" msgpack:\"x\"`".toList
      "C `json:\"c\"` `json:\"b\" msgpack:\"x\"` `json:\"c\"`".toList := by decide +kernel
  have hb : Unrelated "C `json:\"c\"` `json:\"b\" msgpack:\"x\"` `json:\"c\"`".toList
      "A `json:\"a\"` B `json:\"b\" msgpack:\"x\"`".toList := by decide +kernel
  refine ⟨⟨h₁, h₂, hs, hb⟩, ?_⟩
  rw [(augment_seam h₁ h₂ hs hb).1]
  decide +kernel

end StructTags
