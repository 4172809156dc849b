import StructTags.Proofs.Tag.Greedy
import StructTags.Proofs.Tag.Search
import StructTags.Proofs.Text.Words

/-!
# Tags on both sides of a seam

Two blanks one behind the other are more than a tag can hold. So a text is cut there into two parts
whose tags can be found one part at a time:

* `Tag.ending?_of_seam`, `Continues.of_seam`, `Closes.of_blank`: what reaches up to the seam ends in
  front of it;
* **`Tag.starting?_seam`**: a tag that starts in front of the seam is the one that starts there
  without the text behind it;
* `scan_seam`, `msgpackSpans_seam`: the tags of the text are those of both parts, and so are the
  spans with msgpack, those of the second part being shifted;
* **`scan_append_blanks`**: so scanning is local, and no tag stands across two blanks.
-/

namespace StructTags

section

variable {s b : List Char} {w₁ w₂ : Char}

/-! ## 1. What reaches up to the seam -/

/-- A solid word at the start of a text with a blank stands in front of the blank. -/
theorem exists_append_of_solid {w v : List Char} (hw : Text.Solid w)
    (h₁ : Text.isBlank w₁ = true) (h : s ++ w₁ :: b = w ++ v) :
    ∃ z, s = w ++ z ∧ v = z ++ w₁ :: b :=
  Text.exists_append_of_notMem (hw.notMem h₁) h

theorem Closes.of_blank (h₁ : Text.isBlank w₁ = true) (h : Closes (s ++ w₁ :: b)) : Closes s := by
  obtain ⟨u, v, hsplit, hu⟩ := h
  have hsolid : Text.Solid (u ++ [quote] ++ [backtick]) :=
    (hu.concat isBlank_quote).concat isBlank_backtick
  rw [List.append_cons u, List.append_cons (u ++ [quote])] at hsplit
  obtain ⟨z, rfl, -⟩ := exists_append_of_solid hsolid h₁ hsplit
  exact ⟨u, z, by simp, hu⟩

/-- What ends a tag in front of the seam does so without it: it holds one blank at most. -/
theorem Tag.ending?_of_seam (h₁ : Text.isBlank w₁ = true) (h₂ : Text.isBlank w₂ = true)
    (h : (ending? (s ++ w₁ :: w₂ :: b)).isSome) : (ending? s).isSome := by
  rw [ending?_isSome_iff] at h ⊢
  rcases h with ⟨rest, hsplit⟩ | ⟨c, second, rest, hc, hsecond, hsplit⟩
  · obtain ⟨z, rfl, -⟩ := exists_append_of_solid (w := [backtick])
      (Text.solid_nil.concat isBlank_backtick) h₁ hsplit
    exact .inl ⟨z, rfl⟩
  · have hsolid := (Pair.solid_second hsecond).concat isBlank_backtick
    rw [List.append_cons _ backtick] at hsplit
    cases s with
    | nil =>
      -- behind the first blank of the seam stands the other one
      have hhead := Text.isBlank_of_cons_eq_append hsolid (by simp) (List.cons.inj hsplit).2
      exact absurd (hhead.symm.trans h₂) Bool.false_ne_true
    | cons d s =>
      obtain ⟨rfl, hrest⟩ := List.cons.inj hsplit
      obtain ⟨z, rfl, -⟩ := exists_append_of_solid hsolid h₁ hrest
      exact .inr ⟨d, second, z, hc, hsecond, by simp⟩

theorem Continues.of_seam (h₁ : Text.isBlank w₁ = true) (h₂ : Text.isBlank w₂ = true)
    (h : Continues (s ++ w₁ :: w₂ :: b)) : Continues s := by
  obtain ⟨u, v, hsplit, hu, hv⟩ := h
  rw [List.append_cons u] at hsplit
  obtain ⟨z, rfl, rfl⟩ := exists_append_of_solid (hu.concat isBlank_quote) h₁ hsplit
  exact ⟨u, z, by simp, hu, Tag.ending?_of_seam h₁ h₂ hv⟩

theorem Tag.Maximal.seam {t : Tag} (h : t.Maximal s) (h₁ : Text.isBlank w₁ = true)
    (h₂ : Text.isBlank w₂ = true) (b : List Char) : t.Maximal (s ++ w₁ :: w₂ :: b) := by
  obtain ⟨first, gap, second⟩ := t
  cases gap with
  | none =>
    cases second with
    | none => exact fun hc => h (hc.of_seam h₁ h₂)
    | some second => exact h
  | some c =>
    cases second with
    | none => exact h
    | some second => exact fun hc => h (hc.of_blank h₁)

/-! ## 2. The tag at the start -/

/-- A text begins with a tag without the seam if it does with it. -/
theorem Tag.starting?_isSome_of_seam (h₁ : Text.isBlank w₁ = true) (h₂ : Text.isBlank w₂ = true)
    (h : (starting? (s ++ w₁ :: w₂ :: b)).isSome) : (starting? s).isSome := by
  rw [starting?_isSome_iff_raw] at h ⊢
  obtain ⟨a, rest, valid, hsplit, hend⟩ := h
  have hsolid : Text.Solid (backtick :: a.raw) :=
    Text.solid_cons.mpr ⟨isBlank_backtick, valid.solid_raw⟩
  obtain ⟨z, rfl, rfl⟩ := exists_append_of_solid hsolid h₁ hsplit
  exact ⟨a, z, valid, rfl, ending?_of_seam h₁ h₂ hend⟩

/-- **The tag that starts in front of a seam does not depend on what is behind it.** -/
theorem Tag.starting?_seam (h₁ : Text.isBlank w₁ = true) (h₂ : Text.isBlank w₂ = true)
    (s b : List Char) : starting? (s ++ w₁ :: w₂ :: b) = starting? s := by
  cases hs : starting? s with
  | none =>
    rw [← Option.not_isSome_iff_eq_none] at hs ⊢
    exact fun h => hs (starting?_isSome_of_seam h₁ h₂ h)
  | some t =>
    obtain ⟨valid, rest, rfl⟩ := eq_of_starting? hs
    rw [starting?_text_append_iff valid] at hs
    rw [List.append_assoc, starting?_text_append_iff valid]
    exact hs.seam h₁ h₂ b

/-! ## 3. The search -/

theorem groupsFrom_blank {offset : Nat} (h₁ : Text.isBlank w₁ = true) (s : List Char) :
    groupsFrom offset (w₁ :: s) = groupsFrom (offset + w₁.utf8Size) s := by
  refine groupsFrom_of_none ?_
  rw [Tag.starting?, if_neg]
  rintro rfl
  exact Bool.false_ne_true (isBlank_backtick.symm.trans h₁)

/-- The search goes over the part in front of the seam as if there was nothing else. -/
theorem groupsFrom_seam (h₁ : Text.isBlank w₁ = true) (h₂ : Text.isBlank w₂ = true) (offset : Nat)
    (s b : List Char) :
    groupsFrom offset (s ++ w₁ :: w₂ :: b) = groupsFrom offset s ++
      groupsFrom (offset + Text.byteLength (s ++ [w₁, w₂])) b := by
  fun_induction groupsFrom offset s with
  | case1 offset =>
    rw [List.nil_append, groupsFrom_blank h₁, groupsFrom_blank h₂]
    simp [Nat.add_assoc]
  | case2 offset c cs h ih =>
    rw [← Tag.starting?_seam h₁ h₂ (c :: cs) b, List.cons_append] at h
    rw [List.cons_append, groupsFrom_of_none h, ih, List.cons_append, Text.byteLength_cons,
      Nat.add_assoc]
  | case3 offset c cs t h ih =>
    obtain ⟨-, rest, hrest⟩ := Tag.eq_of_starting? h
    rw [Tag.drop_length_text hrest] at ih ⊢
    rw [← Tag.starting?_seam h₁ h₂ (c :: cs) b, hrest, List.append_assoc] at h
    rw [hrest, List.append_assoc, groupsFrom_of_some h, ih, List.append_assoc,
      Text.byteLength_append t.text, Nat.add_assoc]
    rfl

/-- **Across a seam the tags of both parts are found**, those of the second one where it stands. -/
theorem scan_seam (h₁ : Text.isBlank w₁ = true) (h₂ : Text.isBlank w₂ = true) (s b : List Char) :
    scan (s ++ w₁ :: w₂ :: b) =
      scan s ++ (scan b).map (Group.shift (Text.byteLength (s ++ [w₁, w₂]))) := by
  rw [scan_eq, groupsFrom_seam h₁ h₂, ← scan_eq, Nat.zero_add, groupsFrom_eq_map_shift]

end

/-- The same span, further to the right. -/
def Span.shift (offset : Nat) (a : Span) : Span := ⟨offset + a.start, offset + a.stop⟩

theorem Group.span_shift (offset : Nat) (g : Group) :
    (g.shift offset).span = g.span.shift offset := by
  simp [Group.span, Group.shift, Span.shift, Nat.add_assoc]

theorem Span.overlaps_shift (offset : Nat) (a b : Span) :
    (a.shift offset).overlaps (b.shift offset) = a.overlaps b := by
  simp [Span.overlaps, Span.shift]

theorem msgpackSpans_seam {w₁ w₂ : Char} (h₁ : Text.isBlank w₁ = true)
    (h₂ : Text.isBlank w₂ = true) (s b : List Char) :
    msgpackSpans (s ++ w₁ :: w₂ :: b) =
      msgpackSpans s ++ (msgpackSpans b).map (Span.shift (Text.byteLength (s ++ [w₁, w₂]))) := by
  rw [msgpackSpans, scan_seam h₁ h₂, List.filter_append, List.map_append, List.filter_map,
    List.map_map, msgpackSpans, msgpackSpans, List.map_map]
  congr 1
  exact List.map_congr_left fun g _ => g.span_shift _

/-- A tag of a text that is cut by two blanks stands on one side of them. -/
theorem stop_le_or_le_start_of_seam {w₁ w₂ : Char} (h₁ : Text.isBlank w₁ = true)
    (h₂ : Text.isBlank w₂ = true) {s b : List Char} {g : Group}
    (hg : g ∈ scan (s ++ w₁ :: w₂ :: b)) :
    g.span.stop ≤ Text.byteLength s ∨ Text.byteLength (s ++ [w₁, w₂]) ≤ g.span.start := by
  rw [scan_seam h₁ h₂, List.mem_append] at hg
  rcases hg with hg | hg
  · rw [g.span_stop]
    exact .inl (standsAt_of_mem_scan hg).stop_le
  · obtain ⟨g', -, rfl⟩ := List.mem_map.mp hg
    exact .inr (Nat.le_add_right _ _)

/-- **Scanning is local.** The tags of a text with two blanks one behind the other are those of the
    part in front of them, and then those of the part behind them, as far to the right as this part
    stands, in bytes. The same holds for the spans with msgpack. No tag stands across the blanks. -/
theorem scan_append_blanks {w₁ w₂ : Char} (h₁ : Text.isBlank w₁ = true)
    (h₂ : Text.isBlank w₂ = true) (a b : List Char) :
    scan (a ++ [w₁, w₂] ++ b) =
        scan a ++ (scan b).map (Group.shift (Text.byteLength (a ++ [w₁, w₂]))) ∧
      msgpackSpans (a ++ [w₁, w₂] ++ b) =
        msgpackSpans a ++ (msgpackSpans b).map (Span.shift (Text.byteLength (a ++ [w₁, w₂]))) ∧
      ∀ g ∈ scan (a ++ [w₁, w₂] ++ b),
        g.span.stop ≤ Text.byteLength a ∨ Text.byteLength (a ++ [w₁, w₂]) ≤ g.span.start := by
  have hsplit : a ++ [w₁, w₂] ++ b = a ++ w₁ :: w₂ :: b := List.append_assoc ..
  rw [hsplit]
  exact ⟨scan_seam h₁ h₂ a b, msgpackSpans_seam h₁ h₂ a b,
    fun g hg => stop_le_or_le_start_of_seam h₁ h₂ hg⟩

/-- In front of the blanks, which take three bytes each, a tag is begun for the second time. Behind
    them stands what would close it. -/
theorem scan_append_blanks_open :
    (Text.isBlank '\u2003' = true ∧ Text.isBlank '\u3000' = true) ∧
      scan ("`json:\"x\"` `json:\"x\"".toList ++ ['\u2003', '\u3000'] ++
          "` `msgpack:\"y\"`".toList) =
        [⟨0, ⟨⟨.json, ['x']⟩, none, none⟩⟩, ⟨28, ⟨⟨.msgpack, ['y']⟩, none, none⟩⟩] ∧
      msgpackSpans ("`json:\"x\"` `json:\"x\"".toList ++ ['\u2003', '\u3000'] ++
          "` `msgpack:\"y\"`".toList) = [⟨28, 41⟩] := by
  have h₁ : Text.isBlank '\u2003' = true := by decide
  have h₂ : Text.isBlank '\u3000' = true := by decide
  obtain ⟨htags, hspans, -⟩ := scan_append_blanks h₁ h₂ "`json:\"x\"` `json:\"x\"".toList
    "` `msgpack:\"y\"`".toList
  refine ⟨⟨h₁, h₂⟩, ?_, ?_⟩
  · rw [htags]
    decide +kernel
  · rw [hspans]
    decide +kernel

end StructTags
