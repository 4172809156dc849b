import StructTags.Proofs.Augment.Idempotence
import StructTags.Proofs.Augment.Replacement

/-!
# What is skipped hides nothing

An occurrence of the needle that overlaps a tag with msgpack is skipped as a whole: the search goes
on behind it and does not look at what starts inside. This file says that nothing is lost by that:

* `Free`: a span overlaps no tag with msgpack;
* `stop_le_of_skipped`: an occurrence that is skipped stops in front of the next free one;
* `exists_exposed_of_free`: so where the needle is free, an exposed occurrence starts or reaches
  there;
* **`replaceUnprotected_reaches`**: every free occurrence of a pair is replaced, or overlaps one
  that is.
-/

namespace StructTags

/-- The span overlaps no tag with msgpack of the text. -/
def Free (s : List Char) (o : Span) : Prop :=
  ∀ g ∈ scan s, g.tag.hasMsgpack = true → o.overlaps g.span = false

section

variable {s w : List Char} {o o' : Span}

theorem free_iff : Free s o ↔ ∀ span ∈ msgpackSpans s, o.overlaps span = false := by
  rw [msgpackSpans, List.forall_mem_map]
  simp only [Free, List.mem_filter, and_imp]

/-- **What is skipped does not reach into what is free.** An occurrence that overlaps a tag with
    msgpack stops in front of the next one that overlaps none. -/
theorem stop_le_of_skipped (hsolid : Text.Solid w) (hhead : w.head? ≠ some backtick)
    (ho : Text.StandsAt s o.start w) (hstop : o.stop = o.start + Text.byteLength w)
    (ho' : Text.StandsAt s o'.start w) (hstop' : o'.stop = o'.start + Text.byteLength w)
    (hskipped : ¬ Free s o) (hfree : Free s o') (hle : o.start ≤ o'.start) :
    o.stop ≤ o'.start := by
  unfold Free at hskipped
  push Not at hskipped
  obtain ⟨g, hg, h, hover⟩ := hskipped
  rw [ne_eq, overlaps_eq_false_iff, not_or, Nat.not_le, Nat.not_le] at hover
  rcases overlaps_eq_false_iff.mp (hfree g hg h) with hbefore | hbehind
  · -- then the skipped occurrence would stand in front of the tag too
    omega
  · have hagain : Text.StandsAt s o'.start ([] ++ w) := ho'
    rw [hstop]
    exact stop_le_of_standsAt hg hsolid hhead Text.solid_nil ho hagain hover.2 hbehind

/-- **Where the needle is free, an exposed occurrence starts or reaches there.** -/
theorem exists_exposed_of_free (hsolid : Text.Solid w) (hhead : w.head? ≠ some backtick)
    (hne : w ≠ []) (ho : Text.StandsAt s o.start w) (hstop : o.stop = o.start + Text.byteLength w)
    (hfree : Free s o) :
    o ∈ exposed w s ∨ ∃ o' ∈ exposed w s, o'.start < o.start ∧ o.overlaps o' = true := by
  obtain ⟨o', hfound, hle, hlt⟩ := exists_occurrence_of_standsAt hne 0 ho
  rw [Nat.zero_add] at hle hlt
  obtain ⟨ho', hstop'⟩ := standsAt_of_mem_occurrencesFrom [] hfound
  have hexposed : o' ∈ exposed w s := by
    refine mem_exposed_iff.mpr ⟨hfound, ?_⟩
    by_contra hskipped
    have := stop_le_of_skipped hsolid hhead ho' hstop' ho hstop hskipped hfree hle
    omega
  rcases Nat.eq_or_lt_of_le hle with heq | hbefore
  · have hstops : o'.stop = o.stop := by omega
    have hsame : o' = o := by
      cases o
      cases o'
      rw [Span.mk.injEq]
      exact ⟨heq, hstops⟩
    exact .inl (hsame ▸ hexposed)
  · have hpos := byteLength_pos hne
    refine .inr ⟨o', hexposed, hbefore, ?_⟩
    rw [Span.overlaps, Bool.and_eq_true, decide_eq_true_eq, decide_eq_true_eq]
    omega

end

/-- **No free occurrence of a pair is missed.** A replacement swaps the exposed occurrences; every
    occurrence of the pair in the text that overlaps no tag with msgpack is one of them, or overlaps
    one of them that starts before. No occurrence in front of it that is found and skipped reaches
    it. -/
theorem replaceUnprotected_reaches {value : List Char} (hsolid : Text.Solid value)
    (s replacement : List Char) :
    Swapped (Pair.mk .json value).raw replacement 0 (exposed (Pair.mk .json value).raw s) s
        (replaceUnprotected s (Pair.mk .json value).raw replacement) ∧
      ∀ o : Span, Text.StandsAt s o.start (Pair.mk .json value).raw →
        o.stop = o.start + Text.byteLength (Pair.mk .json value).raw →
        (∀ span ∈ msgpackSpans s, o.overlaps span = false) →
        (o ∈ exposed (Pair.mk .json value).raw s ∨
            ∃ o' ∈ exposed (Pair.mk .json value).raw s,
              o'.start < o.start ∧ o.overlaps o' = true) ∧
          ∀ o' ∈ occurrences (Pair.mk .json value).raw s,
            o' ∉ exposed (Pair.mk .json value).raw s → o'.start ≤ o.start → o'.stop ≤ o.start := by
  have hraw : Text.Solid (Pair.mk .json value).raw := Pair.solid_raw hsolid
  have hhead := Pair.head?_raw_ne (Pair.mk .json value)
  refine ⟨swapped_replaceFrom _ _ _ 0 s, fun o ho hstop hspans => ?_⟩
  have hfree : Free s o := free_iff.mpr hspans
  refine ⟨exists_exposed_of_free hraw hhead (Pair.raw_ne_nil _) ho hstop hfree, ?_⟩
  intro o' hfound hnot hle
  obtain ⟨ho', hstop'⟩ := standsAt_of_mem_occurrencesFrom [] hfound
  have hskipped : ¬ Free s o' := fun h => hnot (mem_exposed_iff.mpr ⟨hfound, h⟩)
  exact stop_le_of_skipped hraw hhead ho' hstop' ho hstop hskipped hfree hle

/-- A value that holds a quote and a pair of its own, so that the pair overlaps itself. The
    occurrence in the tag is skipped; of the two behind it the second starts inside the first, which
    is swapped. -/
theorem replaceUnprotected_reaches_overlapping :
    Text.Solid "x\"json:\"x".toList ∧
      msgpackSpans "`json:\"x\"json:\"x\" msgpack:\"y\"` json:\"x\"json:\"x\"json:\"x\"".toList =
        [⟨0, 30⟩] ∧
      occurrences "json:\"x\"json:\"x\"".toList
          "`json:\"x\"json:\"x\" msgpack:\"y\"` json:\"x\"json:\"x\"json:\"x\"".toList =
        [⟨1, 17⟩, ⟨31, 47⟩] ∧
      ∃ o ∈ exposed "json:\"x\"json:\"x\"".toList
          "`json:\"x\"json:\"x\" msgpack:\"y\"` json:\"x\"json:\"x\"json:\"x\"".toList,
        o.start < 39 ∧ Span.overlaps ⟨39, 55⟩ o = true := by
  have hsolid : Text.Solid "x\"json:\"x".toList := by decide +kernel
  have hspans :
      msgpackSpans "`json:\"x\"json:\"x\" msgpack:\"y\"` json:\"x\"json:\"x\"json:\"x\"".toList =
        [⟨0, 30⟩] := by decide +kernel
  have hfound : occurrences "json:\"x\"json:\"x\"".toList
      "`json:\"x\"json:\"x\" msgpack:\"y\"` json:\"x\"json:\"x\"json:\"x\"".toList =
        [⟨1, 17⟩, ⟨31, 47⟩] := by decide +kernel
  refine ⟨hsolid, hspans, hfound, ?_⟩
  have hreaches := (replaceUnprotected_reaches hsolid
    "`json:\"x\"json:\"x\" msgpack:\"y\"` json:\"x\"json:\"x\"json:\"x\"".toList []).2 ⟨39, 55⟩
    ⟨"`json:\"x\"json:\"x\" msgpack:\"y\"` json:\"x\"".toList, [], by decide +kernel,
      by decide +kernel⟩ (by decide +kernel) (by rw [hspans]; decide)
  refine hreaches.1.resolve_left fun hmem => ?_
  exact absurd (hfound ▸ (mem_exposed_iff.mp hmem).1) (by decide)

end StructTags
