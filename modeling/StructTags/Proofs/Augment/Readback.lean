import Mathlib.Logic.Function.Iterate
import StructTags.Proofs.Augment.Clean
import StructTags.Proofs.Augment.Insertion

/-!
# Reading back what was put in

What a tag without msgpack is to get is not escaped: its value may hold quotes, backticks and whole
tags. Between two backticks it is read as what it was made of all the same, if it stands alone:

* `Detached`: nothing can reach over the end of a tag that a blank or nothing follows;
* `Tag.StandsAlone`: the tag stands in a text, with no backtick in front of it and detached from
  what follows;
* `Tag.StandsAlone.head?_scan`: then it is the first tag that is found;
* `Tag.StandsAlone.step`, `Tag.StandsAlone.foldl_step`, `Tag.StandsAlone.iterate_augment`: with
  msgpack it stands alone after each step, and so after all of them and after any number of calls;
* **`augmentation_parses_back`**: what is made of a first value is read back as the pair of this
  value and its msgpack pair, and is left alone from then on.
-/

namespace StructTags

/-! ## 1. What nothing can reach over -/

/-- Nothing or a blank comes first. -/
def Detached (s : List Char) : Prop := ∀ c ∈ s.head?, Text.isBlank c = true

instance (s : List Char) : Decidable (Detached s) :=
  match s with
  | [] => isTrue fun _ h => nomatch h
  | c :: _ => decidable_of_iff (Text.isBlank c = true) (by simp [Detached])

section

variable {t : Tag} {i : Nat} {s : List Char}

theorem Detached.not_continues (h : Detached s) : ¬ Continues s := by
  cases s with
  | nil =>
    intro ⟨u, v, hsplit, _⟩
    exact List.cons_ne_nil _ _ (List.append_eq_nil_iff.mp hsplit.symm).2
  | cons c s => exact Tag.not_continues_blank (h c rfl) s

/-- A tag is maximal where it is detached, if it can be read at all: without a gap it has no second
    pair. -/
theorem Detached.maximal (h : Detached s) (hgap : t.gap = none → t.second = none) :
    t.Maximal s := by
  obtain ⟨first, gap, second⟩ := t
  cases gap with
  | none =>
    cases second with
    | none => exact h.not_continues
    | some second => cases hgap rfl
  | some c =>
    cases second with
    | none => trivial
    | some second => exact fun hcloses => h.not_continues hcloses.continues

/-! ## 2. Tags that stand alone -/

/-- The tag stands at a byte offset, with no backtick in front of it and detached from what
    follows. -/
def Tag.StandsAlone (t : Tag) (i : Nat) (s : List Char) : Prop :=
  ∃ front back, s = front ++ (t.text ++ back) ∧ Text.byteLength front = i ∧
    backtick ∉ front ∧ Detached back

namespace Tag.StandsAlone

/-- **A tag that stands alone is the first one that is found.** -/
theorem head?_scan (h : t.StandsAlone i s) (valid : t.Valid)
    (hgap : t.gap = none → t.second = none) : (scan s).head? = some ⟨i, t⟩ := by
  obtain ⟨front, back, rfl, rfl, hfront, hback⟩ := h
  have hread := (starting?_text_append_iff valid back).mpr (hback.maximal hgap)
  have hskip := Layout.tagless_of_notMem hfront (t.text ++ back)
  rw [scan_eq, groupsFrom_append hskip, groupsFrom_of_some hread, Nat.zero_add]
  rfl

end Tag.StandsAlone

/-- A step for a value with a backtick puts nothing in where there are none. -/
theorem Augmentation.backtick_notMem_value {a : Augmentation} {u : Tag} {front rest : List Char}
    (h : a.text = front ++ rest) (hfront : backtick ∉ front) {e : Nat} (he : e ∈ a.sites u)
    (hle : e ≤ Text.byteLength front) : backtick ∉ u.first.value := by
  obtain ⟨p, q, hcut, rfl⟩ := exists_cut_of_mem_sites he
  obtain ⟨z, rfl, -⟩ := Text.exists_append_of_byteLength_le (hcut.symm.trans h) hle
  have hraw := raw_isSuffix_of_mem_sites hcut he
  intro hmem
  have hpair : backtick ∈ u.first.raw :=
    List.mem_append_left _ (List.mem_append_right _ hmem)
  exact hfront (List.mem_append_left _ (hraw.subset hpair))

namespace Tag.StandsAlone

variable (valid : t.Valid) (hgap : t.gap = none → t.second = none)
  (hmsgpack : t.hasMsgpack = true)

include valid hgap hmsgpack

/-- **A step leaves a tag with msgpack that stands alone as it is**, and it stands alone then. -/
theorem step {a : Augmentation} (h : t.StandsAlone i a.text) (u : Tag) :
    t.StandsAlone (a.carry u i) (a.step u).text := by
  have hg : ⟨i, t⟩ ∈ scan a.text := List.mem_of_head? (h.head?_scan valid hgap)
  obtain ⟨front, back, htext, rfl, hfront, hback⟩ := h
  have hword : insertAfter (segment u.first.value) (a.sites u) (Text.byteLength front) t.text =
      t.text := by
    refine insertAfter_eq_self _ _ fun e he => ?_
    rw [Augmentation.sites, if_pos (Augmentation.due_of_mem_sites he)] at he
    have hsite := site_of_hasMsgpack hg hmsgpack he
    rw [Group.span_stop] at hsite
    exact hsite
  have hstep := a.step_text u
  rw [htext, insertAfter_append, insertAfter_append, Nat.zero_add, hword] at hstep
  refine ⟨_, _, hstep, Augmentation.byteLength_insertAfter_sites htext, ?_, ?_⟩
  · refine notMem_insertAfter hfront fun e he hle => backtick_notMem_segment ?_
    rw [Nat.zero_add] at hle
    exact Augmentation.backtick_notMem_value htext hfront he hle
  · unfold Detached
    rw [head?_insertAfter]
    exact hback

theorem foldl_step {a : Augmentation} (h : t.StandsAlone i a.text) (us : List Tag) :
    t.StandsAlone (a.carried us i) (us.foldl Augmentation.step a).text := by
  induction us generalizing a i with
  | nil => exact h
  | cons u us ih => exact ih (h.step valid hgap hmsgpack u)

theorem iterate_augment (h : t.StandsAlone i s) (n : Nat) :
    ∃ j, t.StandsAlone j ((fun x => (augment x).text)^[n] s) := by
  induction n generalizing i s with
  | zero => exact ⟨i, h⟩
  | succ n ih => exact ih (foldl_step valid hgap hmsgpack (a := { text := s }) h _)

end Tag.StandsAlone

end

/-! ## 3. Reading back -/

/-- What a tag is to get, between two backticks, is the tag with its msgpack pair. -/
theorem Tag.text_of_augmentation? {t : Tag} {x : List Char} (hx : t.augmentation? = some x) :
    t.withMsgpack.text = backtick :: (x ++ [backtick]) := by
  obtain ⟨-, rfl⟩ := augmentation?_eq_some_iff.mp hx
  rw [text_withMsgpack, augmented, List.append_assoc]
  rfl

/-- The first of all tags is the first one with msgpack, if it has msgpack. -/
theorem head?_msgpackSpans {s : List Char} {g : Group} (h : (scan s).head? = some g)
    (hmsgpack : g.tag.hasMsgpack = true) : (msgpackSpans s).head? = some g.span := by
  obtain ⟨rest, hscan⟩ := List.head?_eq_some_iff.mp h
  rw [msgpackSpans, hscan, List.filter_cons_of_pos (by exact hmsgpack)]
  rfl

/-- **What is put in is read back as what it was made of.** A tag without msgpack, whose first value
    has no blank, is to get an augmentation. Let this stand between two backticks, with no backtick
    in front and nothing or a blank behind. The first tag that is found there spans just this region.
    Its first pair is the one of the tag, a json pair, and its second one is a msgpack pair with the
    same value. So the region is protected, and no step for any tag and no further call changes it:
    it stays the first tag, and stands alone. -/
theorem augmentation_parses_back {t : Tag} {front back : List Char} (hfirst : t.first.Valid)
    (hnone : t.hasMsgpack = false) (hfront : backtick ∉ front) (hback : Detached back) :
    ∃ x s, t.augmentation? = some x ∧ s = front ++ backtick :: (x ++ [backtick]) ++ back ∧
      ∃ g, (scan s).head? = some g ∧
        g.span = ⟨Text.byteLength front,
          Text.byteLength (front ++ backtick :: (x ++ [backtick]))⟩ ∧
        g.tag.text = backtick :: (x ++ [backtick]) ∧
        g.tag.first = t.first ∧ t.first = ⟨.json, t.first.value⟩ ∧
        g.tag.second = some ⟨.msgpack, t.first.value⟩ ∧
        (msgpackSpans s).head? = some g.span ∧
        (∀ a : Augmentation, a.text = s → ∀ us : List Tag,
          g.tag.StandsAlone (a.carried us g.start) (us.foldl Augmentation.step a).text ∧
            (scan (us.foldl Augmentation.step a).text).head? =
              some ⟨a.carried us g.start, g.tag⟩) ∧
        ∀ n, ∃ j, g.tag.StandsAlone j ((fun y => (augment y).text)^[n] s) ∧
          (scan ((fun y => (augment y).text)^[n] s)).head? = some ⟨j, g.tag⟩ := by
  have hx : t.augmentation? = some t.augmented := Tag.augmentation?_eq_some_iff.mpr ⟨hnone, rfl⟩
  refine ⟨t.augmented, _, hx, rfl, ?_⟩
  have htext := Tag.text_of_augmentation? hx
  have valid : t.withMsgpack.Valid := (Tag.valid_single hfirst).withMsgpack
  have hgap : t.withMsgpack.gap = none → t.withMsgpack.second = none := fun h => by cases h
  have hmsgpack := t.hasMsgpack_withMsgpack
  rw [← htext]
  have halone : t.withMsgpack.StandsAlone (Text.byteLength front)
      (front ++ t.withMsgpack.text ++ back) :=
    ⟨front, back, List.append_assoc .., rfl, hfront, hback⟩
  have hhead := halone.head?_scan valid hgap
  have hspan : (Group.mk (Text.byteLength front) t.withMsgpack).span =
      ⟨Text.byteLength front, Text.byteLength (front ++ t.withMsgpack.text)⟩ := by
    rw [Text.byteLength_append, Tag.byteLength_text]
    rfl
  refine ⟨⟨Text.byteLength front, t.withMsgpack⟩, hhead, hspan, rfl, rfl,
    Tag.first_eq_of_hasMsgpack hnone, rfl, ?_, fun a ha us => ?_, fun n => ?_⟩
  · rw [head?_msgpackSpans hhead hmsgpack, hspan]
  · rw [← ha] at halone
    have hrun := halone.foldl_step valid hgap hmsgpack us
    exact ⟨hrun, hrun.head?_scan valid hgap⟩
  · obtain ⟨j, hj⟩ := halone.iterate_augment valid hgap hmsgpack n
    exact ⟨j, hj, hj.head?_scan valid hgap⟩

/-- The value holds quotes, backticks and a whole tag. A quote stands in front, and an ideographic
    space and a further tag behind. -/
theorem augmentation_parses_back_nested :
    (Tag.mk ⟨.json, "a\"``json:\"b\"`".toList⟩ none none).augmentation? =
        some "json:\"a\"``json:\"b\"`\" msgpack:\"a\"``json:\"b\"`\"".toList ∧
      ∃ g, (scan ("F\" `json:\"a\"``json:\"b\"`\" msgpack:\"a\"``json:\"b\"`\"`" ++
          "\u3000`json:\"a\"`").toList).head? = some g ∧ g.span = ⟨3, 49⟩ ∧
        g.tag.first = ⟨.json, "a\"``json:\"b\"`".toList⟩ ∧
        g.tag.second = some ⟨.msgpack, "a\"``json:\"b\"`".toList⟩ := by
  obtain ⟨x, s, hx, rfl, g, hhead, hspan, -, hg, -, hsecond, -⟩ :=
    augmentation_parses_back (t := ⟨⟨.json, "a\"``json:\"b\"`".toList⟩, none, none⟩) (by decide)
      rfl (show backtick ∉ "F\" ".toList by decide)
      (show Detached "\u3000`json:\"a\"`".toList by decide)
  obtain rfl := Option.some.inj hx
  exact ⟨hx, g, hhead, hspan, hg, hsecond⟩

end StructTags
