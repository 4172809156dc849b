import StructTags.Proofs.Augment.Plain

/-!
# Augmenting twice

A text is left as it is if and only if all its tags have msgpack. Augmenting is to reach such a text
in one go, and this file says when it does:

* `exposed_ne_nil`: the first pair of a tag without msgpack is always exposed;
* `augment_text_eq_self_iff`, `augment_applied_eq_nil_iff`: so a text changes, and something is
  applied, as long as there is such a tag;
* **`augment_augment_iff`**: augmenting twice is augmenting once if and only if the first time
  leaves no tag without msgpack, and it leaves none if the text is plain;
* `augment_augment_ne`: it may leave one.
-/

namespace StructTags

/-! ## 1. Exposed pairs -/

/-- A maximal tag ends in a blank and a backtick, or in a quote and a backtick that cannot be found
    any later. -/
theorem Tag.Maximal.text_cases {t : Tag} {rest : List Char} (h : t.Maximal rest) (valid : t.Valid) :
    (∃ u b, t.text = u ++ [b, backtick] ∧ Text.isBlank b = true) ∨
      ∃ u, t.text = u ++ [quote, backtick] ∧ ¬ Closes rest := by
  obtain ⟨first, gap, second⟩ := t
  cases gap with
  | none =>
    cases second with
    | none =>
      refine .inr ⟨backtick :: (first.scheme.lead ++ first.value), ?_,
        fun hc => h (Closes.continues hc)⟩
      simp [Tag.text, Tag.tail, Pair.raw]
    | some second => exact absurd h id
  | some b =>
    cases second with
    | none =>
      refine .inl ⟨backtick :: first.raw, b, ?_, valid.2.1 b rfl⟩
      simp [Tag.text, Tag.tail]
    | some second =>
      refine .inr ⟨backtick :: (first.raw ++ b :: (second.scheme.lead ++ second.value)), ?_, h⟩
      simp [Tag.text, Tag.tail, Pair.raw]

/-- A pair does not start with a backtick. -/
theorem Pair.head?_raw_ne (a : Pair) : a.raw.head? ≠ some backtick := by
  obtain ⟨scheme, value⟩ := a
  cases scheme with
  | json => exact show some 'j' ≠ some backtick by decide
  | msgpack => exact show some 'm' ≠ some backtick by decide

/-- A word that does not start with a backtick and reaches behind a tag does not start at the
    backtick that closes it. -/
theorem start_ne_closing {s w x : List Char} {g : Group} {i : Nat} (hg : g ∈ scan s)
    (hhead : w.head? ≠ some backtick) (hi : Text.StandsAt s i w)
    (hreach : g.span.stop ≤ i + Text.byteLength w) (hx : g.tag.text = x ++ [backtick]) :
    i ≠ g.span.start + Text.byteLength x := by
  intro heq
  have hone : Text.byteLength [backtick] = 1 := rfl
  have hclose := (standsAt_of_mem_scan hg).trans (x := [backtick]) ⟨x, [], hx, rfl⟩
  have hstop := g.span_stop
  rw [hx, Text.byteLength_append] at hstop
  obtain ⟨y, z, rfl, hy⟩ := hi.inner hclose (Nat.le_of_eq heq) (by omega)
  have hnil : y = [] := Text.eq_nil_of_byteLength_eq_zero (by omega)
  exact hhead (by rw [hnil]; rfl)

/-- A solid word over a quote and a backtick that reaches behind a place where the same word stands
    again, after a solid front: then the text behind the backtick holds the quote once more, with no
    blank in between. -/
theorem closes_of_standsAt {u w front rest : List Char} {i j k : Nat} (hsolid : Text.Solid w)
    (hfront : Text.Solid front) (hi : Text.StandsAt (u ++ rest) i w)
    (hj : Text.StandsAt (u ++ rest) j (front ++ w))
    (hpair : Text.StandsAt (u ++ rest) k [quote, backtick]) (hu : Text.byteLength u = k + 2)
    (hle : i ≤ k) (hbehind : k + 2 ≤ j) (hreach : j < i + Text.byteLength w) : Closes rest := by
  have htwo : Text.byteLength [quote, backtick] = 2 := rfl
  obtain ⟨y, z, hw, -⟩ := hi.inner hpair hle (by omega)
  obtain ⟨p, q, hs, rfl⟩ := hj
  obtain ⟨m, rfl, hrest⟩ := Text.exists_append_of_byteLength_le hs (by omega)
  have hm : Text.StandsAt (u ++ rest) (k + 2) m := ⟨u, _, by rw [hrest], hu⟩
  rw [Text.byteLength_append] at hreach
  obtain ⟨y', z', hw', -⟩ := hi.inner hm (by omega) (by omega)
  have hmsolid : Text.Solid m := by
    rw [hw'] at hsolid
    exact (Text.solid_append.mp (Text.solid_append.mp hsolid).2).1
  have hysolid : Text.Solid y := by
    rw [hw] at hsolid
    exact (Text.solid_append.mp hsolid).1
  refine ⟨m ++ (front ++ y), z ++ q, ?_, ?_⟩
  · rw [hrest, hw]
    simp
  · exact Text.solid_append.mpr ⟨hmsolid, Text.solid_append.mpr ⟨hfront, hysolid⟩⟩

/-- A solid word that starts in a tag, or in front of it, does not reach a place behind the tag
    where the same word stands again, after a solid front. -/
theorem stop_le_of_standsAt {s w front : List Char} {g : Group} {i j : Nat} (hg : g ∈ scan s)
    (hsolid : Text.Solid w) (hhead : w.head? ≠ some backtick) (hfront : Text.Solid front)
    (hi : Text.StandsAt s i w) (hj : Text.StandsAt s j (front ++ w)) (hlt : i < g.span.stop)
    (hle : g.span.stop ≤ j) : i + Text.byteLength w ≤ j := by
  by_contra hreach
  rw [Nat.not_le] at hreach
  obtain ⟨u, rest, rfl, hu, hread⟩ := exists_cut_of_mem_scan hg
  have valid := valid_of_mem_scan hg
  rw [Tag.starting?_text_append_iff valid] at hread
  have hone : Text.byteLength [backtick] = 1 := rfl
  have hstands := standsAt_of_mem_scan hg
  have hstop := g.span_stop
  rcases hread.text_cases valid with ⟨x, b, hx, hb⟩ | ⟨x, hx, hcloses⟩
  · -- the blank in front of the closing backtick is not in the word
    have hnot : b ∉ w := fun hmem => Bool.false_ne_true ((hsolid b hmem).symm.trans hb)
    have hblank := hstands.trans (x := [b]) ⟨x, [backtick], by rw [hx]; simp, rfl⟩
    have hsplit : g.tag.text = (x ++ [b]) ++ [backtick] := by rw [hx]; simp
    have hstart := start_ne_closing hg hhead hi (by omega) hsplit
    have hdisjoint := hi.disjoint hblank hnot
    rw [hsplit, Text.byteLength_append, Text.byteLength_append] at hstop
    rw [Text.byteLength_append] at hstart
    have hsize : Text.byteLength [b] = b.utf8Size := rfl
    omega
  · -- the quote in front of it is in the word, so it stands again behind the tag
    have hsplit : g.tag.text = (x ++ [quote]) ++ [backtick] := by rw [hx]; simp
    have hstart := start_ne_closing hg hhead hi (by omega) hsplit
    have hpair := hstands.trans (x := [quote, backtick]) ⟨x, [], by rw [hx]; simp, rfl⟩
    have hquote : Text.byteLength [quote] = 1 := rfl
    have hsize : Text.byteLength (u ++ g.tag.text) = g.span.stop := by
      rw [Text.byteLength_append, hu, g.span_stop]
    rw [hsplit, Text.byteLength_append, Text.byteLength_append] at hstop
    rw [Text.byteLength_append] at hstart
    rw [← List.append_assoc] at hi hj hpair
    exact hcloses
      (closes_of_standsAt hsolid hfront hi hj hpair (by omega) (by omega) (by omega) hreach)

/-- **The first pair of a tag without msgpack is exposed.** -/
theorem exposed_ne_nil {s : List Char} {g : Group} (hg : g ∈ scan s)
    (h : g.tag.hasMsgpack = false) : exposed g.tag.first.raw s ≠ [] := by
  have hpair := standsAt_of_mem_scan hg
  have htext : g.tag.text = (backtick :: g.tag.first.raw) ++ (g.tag.tail ++ [backtick]) := by
    simp [Tag.text]
  have hstop := g.span_stop
  rw [htext, Text.byteLength_append, Text.byteLength_append, Text.byteLength_cons] at hstop
  have hone : Text.byteLength [backtick] = 1 := rfl
  have hone' : backtick.utf8Size = 1 := rfl
  have hsolid := (valid_of_mem_scan hg).1.solid_raw
  have hback : Text.Solid [backtick] :=
    Text.solid_cons.mpr ⟨isBlank_backtick, Text.solid_nil⟩
  have hbehind : Text.StandsAt s g.span.start ([backtick] ++ g.tag.first.raw) :=
    hpair.trans (j := 0) ⟨[], _, htext, rfl⟩
  obtain ⟨o, ho, hle, hlt⟩ := exists_occurrence_of_standsAt g.tag.first.raw_ne_nil 0
    (standsAt_raw_of_mem_scan hg)
  obtain ⟨hocc, ho'⟩ := standsAt_of_mem_occurrencesFrom [] ho
  refine List.ne_nil_of_mem (mem_exposed_iff.mpr ⟨ho, fun g' hg' h' => ?_⟩)
  rw [overlaps_eq_false_iff]
  rcases disjoint_of_hasMsgpack hg hg' h h' with hbefore | hafter
  · exact .inl (by omega)
  · by_cases hreach : g'.span.stop ≤ o.start
    · exact .inr hreach
    · have := stop_le_of_standsAt hg' hsolid (Pair.head?_raw_ne _) hback hocc hbehind
        (Nat.not_le.mp hreach) hafter
      omega

/-! ## 2. Texts that stay as they are -/

theorem segment_pos (value : List Char) : 0 < Text.byteLength (segment value) :=
  byteLength_pos (List.cons_ne_nil _ _)

/-- A tag without msgpack makes the text longer. -/
theorem byteLength_lt_augment {s : List Char} {g : Group} (hg : g ∈ scan s)
    (h : g.tag.hasMsgpack = false) : Text.byteLength s < Text.byteLength (augment s).text := by
  -- the first tag without msgpack still meets the text as it was given
  have hsome : ((scan s).find? (!·.tag.hasMsgpack)).isSome := by
    rw [List.find?_isSome]
    exact ⟨g, hg, by rw [h]; rfl⟩
  obtain ⟨first, hfirst⟩ := Option.isSome_iff_exists.mp hsome
  obtain ⟨hnone, before, after, hscan, hbefore⟩ := List.find?_eq_some_iff_append.mp hfirst
  rw [Bool.not_eq_true'] at hnone
  have hmem : first ∈ scan s := by
    rw [hscan]
    exact List.mem_append_right _ List.mem_cons_self
  have hkept : ∀ t ∈ before.map (·.tag), t.hasMsgpack = true := by
    refine List.forall_mem_map.mpr fun b hb => ?_
    have := hbefore b hb
    rwa [Bool.not_not] at this
  obtain ⟨htext, happlied⟩ : _ = s ∧ _ = [] :=
    Augmentation.foldl_step_of_hasMsgpack hkept { text := s }
  have hrun : augment s = (after.map (·.tag)).foldl Augmentation.step
      (((before.map (·.tag)).foldl Augmentation.step { text := s }).step first.tag) := by
    rw [augment, hscan, List.map_append, List.map_cons, List.foldl_append, List.foldl_cons]
  generalize (before.map (·.tag)).foldl Augmentation.step { text := s } = a at htext happlied hrun
  have hdue : a.Due first.tag := ⟨hnone, by rw [happlied]; exact List.not_mem_nil⟩
  have hsites : 0 < (a.sites first.tag).length := by
    rw [Augmentation.sites, if_pos hdue, List.length_map, htext]
    exact List.length_pos_iff.mpr (exposed_ne_nil hmem hnone)
  have hstep := a.byteLength_step first.tag
  rw [htext] at hstep
  have hgrows := Nat.mul_pos (segment_pos first.tag.first.value) hsites
  have hrest := Augmentation.byteLength_le_foldl_step (a.step first.tag) (after.map (·.tag))
  rw [hrun]
  omega

/-- A text is left as it is if and only if all its tags have msgpack. -/
theorem augment_text_eq_self_iff {s : List Char} :
    (augment s).text = s ↔ ∀ g ∈ scan s, g.tag.hasMsgpack = true := by
  constructor
  · intro hsame g hg
    cases h : g.tag.hasMsgpack with
    | true => rfl
    | false =>
      have := byteLength_lt_augment hg h
      rw [hsame] at this
      exact absurd this (Nat.lt_irrefl _)
  · intro h
    exact (Augmentation.foldl_step_of_hasMsgpack (List.forall_mem_map.mpr h) { text := s }).1

/-- Nothing is applied if and only if all tags have msgpack. -/
theorem augment_applied_eq_nil_iff {s : List Char} :
    (augment s).applied = [] ↔ ∀ g ∈ scan s, g.tag.hasMsgpack = true := by
  constructor
  · intro hnil g hg
    cases h : g.tag.hasMsgpack with
    | true => rfl
    | false =>
      have hmem : g.tag.augmented ∈ (augment s).applied :=
        mem_augment_applied_iff.mpr ⟨g, hg, h, rfl⟩
      rw [hnil] at hmem
      exact absurd hmem List.not_mem_nil
  · intro h
    exact (Augmentation.foldl_step_of_hasMsgpack (List.forall_mem_map.mpr h) { text := s }).2

/-! ## 3. Twice -/

/-- Augmenting a plain text leaves no tag without msgpack. -/
theorem hasMsgpack_of_mem_scan_augment {s : List Char} (h : Plain s) {g : Group}
    (hg : g ∈ scan (augment s).text) : g.tag.hasMsgpack = true := by
  rw [scan_augment h] at hg
  obtain ⟨g', -, rfl⟩ := List.mem_map.mp hg
  exact g'.tag.hasMsgpack_completed

/-- **Augmenting twice is augmenting once if and only if the first time leaves no tag without
    msgpack**; then nothing is applied the second time. It leaves none if the text is plain. -/
theorem augment_augment_iff (s : List Char) :
    ((augment (augment s).text).text = (augment s).text ↔
        ∀ g ∈ scan (augment s).text, g.tag.hasMsgpack = true) ∧
      ((augment (augment s).text).applied = [] ↔
        ∀ g ∈ scan (augment s).text, g.tag.hasMsgpack = true) ∧
      (Plain s → ∀ g ∈ scan (augment s).text, g.tag.hasMsgpack = true) :=
  ⟨augment_text_eq_self_iff, augment_applied_eq_nil_iff,
    fun h _ => hasMsgpack_of_mem_scan_augment h⟩

/-- A plain text with the same pair in two tags, and in a third one that has msgpack. Augmenting it
    once is enough. -/
theorem augment_augment_plain :
    Plain "`json:\"a\"` `json:\"a\" msgpack:\"x\"` `json:\"a\"`".toList ∧
      (scan (augment
        "`json:\"a\"` `json:\"a\" msgpack:\"x\"` `json:\"a\"`".toList).text).length = 3 ∧
      (augment (augment
          "`json:\"a\"` `json:\"a\" msgpack:\"x\"` `json:\"a\"`".toList).text).text =
        (augment "`json:\"a\"` `json:\"a\" msgpack:\"x\"` `json:\"a\"`".toList).text ∧
      (augment (augment
          "`json:\"a\"` `json:\"a\" msgpack:\"x\"` `json:\"a\"`".toList).text).applied = [] := by
  have hplain : Plain "`json:\"a\"` `json:\"a\" msgpack:\"x\"` `json:\"a\"`".toList := by
    decide +kernel
  obtain ⟨htext, happlied, hall⟩ :=
    augment_augment_iff "`json:\"a\"` `json:\"a\" msgpack:\"x\"` `json:\"a\"`".toList
  exact ⟨hplain, by decide +kernel, htext.mpr (hall hplain), happlied.mpr (hall hplain)⟩

/-- Behind a tag without msgpack the backtick that closes it can open another one. Here the first
    tag ends in a blank, so what is put in breaks it up, and its backtick begins a tag that was not
    there before. -/
theorem augment_augment_ne :
    (augment (augment "`json:\"a\" `json:\"b\"`".toList).text).text ≠
        (augment "`json:\"a\" `json:\"b\"`".toList).text ∧
      ∃ g ∈ scan (augment "`json:\"a\" `json:\"b\"`".toList).text, g.tag.hasMsgpack = false := by
  decide +kernel

end StructTags
