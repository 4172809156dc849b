import StructTags.Proofs.Augment.Occurrence
import StructTags.Proofs.Tag.Search

/-!
# What a replacement makes of a text

A replacement looks for a needle from left to right and leaves alone what overlaps a tag with
msgpack. This file says what comes of it, whatever the replacement is:

* `Leftmost`, `Leftmost.unique`: the spans of the needle that a search from left to right finds, and
  no others;
* `Swapped`: a text with the replacement for the needle at certain spans, and copied elsewhere;
* `Swapped.standsAt`: a word that overlaps none of these spans is only moved;
* `spliceFrom`: a loop over the spans found that copies slices of the text, and `replaceAll`, which
  replaces every occurrence;
* **`replaceUnprotected_exact`**: the replacement swaps exactly the occurrences found that overlap
  no tag with msgpack, and so does the loop, which never asks for a slice that is not there.
-/

namespace StructTags

/-! ## 1. Occurrences from left to right -/

/-- The occurrences of a needle in a text from left to right, without overlap. -/
structure Leftmost (needle s : List Char) (found : List Span) : Prop where
  /-- At each span the needle stands. -/
  stands : ∀ o ∈ found,
    Text.StandsAt s o.start needle ∧ o.stop = o.start + Text.byteLength needle
  /-- The spans stand one behind the other. -/
  ordered : found.Pairwise fun a b => a.stop ≤ b.start
  /-- Behind each span the needle does not stand in front of the next one. -/
  next : ∀ before after, found = before ++ after → ∀ i, Text.StandsAt s i needle →
    (∀ o ∈ before.getLast?, o.stop ≤ i) → ∃ o ∈ after.head?, o.start ≤ i

theorem leftmost_occurrences {needle : List Char} (hne : needle ≠ []) (s : List Char) :
    Leftmost needle s (occurrences needle s) where
  stands _ ho := standsAt_of_mem_occurrencesFrom [] ho
  ordered := pairwise_occurrencesFrom 0 s
  next before after hsplit i hi hbefore := by
    obtain ⟨o, ho, hle, hlt⟩ := exists_occurrence_of_standsAt hne 0 hi
    have hpair : (occurrencesFrom needle 0 s).Pairwise fun a b => a.stop ≤ b.start :=
      pairwise_occurrencesFrom 0 s
    have hpos : ∀ a ∈ occurrencesFrom needle 0 s, a.start < a.stop := fun a ha => by
      have hsize := byteLength_pos hne
      have := (bounds_of_mem_occurrencesFrom ha).2
      omega
    rw [← occurrences, hsplit] at ho hpair hpos
    rw [Nat.zero_add] at hle hlt
    exact Text.exists_head?_of_mem hpair hpos ho hle hlt hbefore

namespace Leftmost

variable {needle s : List Char} {found found' : List Span}

/-- In front of each span the span before it has stopped. -/
theorem stop_le (h : Leftmost needle s found) {before after : List Span} {o : Span}
    (hsplit : found = before ++ o :: after) : ∀ a ∈ before.getLast?, a.stop ≤ o.start := by
  have hpair := h.ordered
  rw [hsplit] at hpair
  exact fun a ha =>
    (List.pairwise_append.mp hpair).2.2 a (List.mem_of_mem_getLast? ha) o List.mem_cons_self

/-- Behind the same spans another such list goes on too, no later. -/
theorem exists_cons (h : Leftmost needle s found) (h' : Leftmost needle s found')
    {before after after' : List Span} {o : Span} (hsplit : found = before ++ o :: after)
    (hsplit' : found' = before ++ after') :
    ∃ o' rest, after' = o' :: rest ∧ o'.start ≤ o.start := by
  have hmem : o ∈ found := hsplit ▸ List.mem_append_right before List.mem_cons_self
  obtain ⟨o', ho', hle⟩ :=
    h'.next before after' hsplit' o.start (h.stands o hmem).1 (h.stop_le hsplit)
  exact ⟨o', _, (List.cons_head?_tail ho').symm, hle⟩

/-- There is only one such list. -/
theorem unique (h : Leftmost needle s found) (h' : Leftmost needle s found') :
    found = found' := by
  suffices ∀ before after after', found = before ++ after → found' = before ++ after' →
      after = after' from this [] found found' rfl rfl
  intro before after
  induction after generalizing before with
  | nil =>
    intro after' hsplit hsplit'
    cases after' with
    | nil => rfl
    | cons o' after' =>
      obtain ⟨o, rest, hnil, -⟩ := h'.exists_cons h hsplit' hsplit
      cases hnil
  | cons o after ih =>
    intro after' hsplit hsplit'
    obtain ⟨o', rest, rfl, hle'⟩ := h.exists_cons h' hsplit hsplit'
    obtain ⟨_, _, hcons, hle⟩ := h'.exists_cons h hsplit' hsplit
    obtain ⟨rfl, -⟩ := List.cons.inj hcons
    have hmem : o ∈ found := hsplit ▸ List.mem_append_right before List.mem_cons_self
    have hmem' : o' ∈ found' := hsplit' ▸ List.mem_append_right before List.mem_cons_self
    have hstart : o.start = o'.start := Nat.le_antisymm hle hle'
    have hstop : o.stop = o'.stop := by
      rw [(h.stands o hmem).2, (h'.stands o' hmem').2, hstart]
    have hsame : o = o' := by
      cases o
      cases o'
      rw [Span.mk.injEq]
      exact ⟨hstart, hstop⟩
    rw [hsame] at hsplit ⊢
    rw [ih (before ++ [o']) rest (by rw [hsplit, List.append_cons])
      (by rw [hsplit', List.append_cons])]

end Leftmost

/-! ## 2. Texts with the replacement at certain spans -/

/-- The second text has the replacement where the first one, which stands at a byte offset, has the
    needle at one of the spans, and is the same elsewhere. -/
inductive Swapped (needle replacement : List Char) :
    Nat → List Span → List Char → List Char → Prop where
  /-- Behind the last span the text is copied. -/
  | done (offset : Nat) (last : List Char) : Swapped needle replacement offset [] last last
  /-- In front of a span the text is copied, and at the span the needle is replaced. -/
  | swap {offset : Nat} (front : List Char) {spans : List Span} {s t : List Char} :
      Swapped needle replacement (offset + Text.byteLength front + Text.byteLength needle)
        spans s t →
      Swapped needle replacement offset
        (⟨offset + Text.byteLength front,
          offset + Text.byteLength front + Text.byteLength needle⟩ :: spans)
        (front ++ (needle ++ s)) (front ++ (replacement ++ t))

namespace Swapped

variable {needle replacement : List Char} {offset : Nat} {spans : List Span} {s t : List Char}

/-- More text may be copied in front. -/
theorem push (u : List Char)
    (h : Swapped needle replacement (offset + Text.byteLength u) spans s t) :
    Swapped needle replacement offset spans (u ++ s) (u ++ t) := by
  cases h with
  | done _ _ => exact .done offset (u ++ s)
  | swap front h =>
    have hsize : offset + Text.byteLength u + Text.byteLength front =
        offset + Text.byteLength (u ++ front) := by rw [Text.byteLength_append, Nat.add_assoc]
    rw [hsize] at h ⊢
    rw [← List.append_assoc, ← List.append_assoc u front (replacement ++ _)]
    exact .swap (u ++ front) h

theorem le_stop (h : Swapped needle replacement offset spans s t) :
    ∀ o ∈ spans, offset ≤ o.stop := by
  induction h with
  | done _ _ => exact fun o ho => absurd ho List.not_mem_nil
  | swap front _ ih =>
    refine List.forall_mem_cons.mpr ⟨by dsimp only; omega, fun o ho => ?_⟩
    have := ih o ho
    omega

/-- A word that overlaps none of the spans is moved by what the replacements in front of it are
    longer than the needle, or shorter. -/
theorem standsAt (h : Swapped needle replacement offset spans s t) {w : List Char} (hne : w ≠ [])
    {i : Nat} (hw : Text.StandsAt s i w)
    (hfree : ∀ o ∈ spans, o.overlaps ⟨offset + i, offset + i + Text.byteLength w⟩ = false) :
    ∃ j, Text.StandsAt t j w ∧
      j + Text.byteLength needle * spans.countP (·.stop ≤ offset + i) =
        i + Text.byteLength replacement * spans.countP (·.stop ≤ offset + i) := by
  induction h generalizing i with
  | done _ _ => exact ⟨i, hw, rfl⟩
  | @swap offset front spans s t h ih =>
    have hpos := byteLength_pos hne
    obtain ⟨u, v, hs, rfl⟩ := hw
    have hhead := overlaps_eq_false_iff.mp (hfree _ List.mem_cons_self)
    dsimp only at hhead
    rcases hhead with hbehind | hfront
    · -- the word stands behind the needle, so it stands in what follows
      rw [← List.append_assoc] at hs
      have hle : Text.byteLength (front ++ needle) ≤ Text.byteLength u := by
        rw [Text.byteLength_append]
        omega
      obtain ⟨x, rfl, hx⟩ := Text.exists_append_of_byteLength_le hs hle
      have hsize : offset + Text.byteLength (front ++ needle ++ x) =
          offset + Text.byteLength front + Text.byteLength needle + Text.byteLength x := by
        rw [Text.byteLength_append, Text.byteLength_append]
        omega
      rw [hsize] at hfree hbehind ⊢
      obtain ⟨j, hj, hcount⟩ := ih ⟨x, v, hx, rfl⟩
        fun o ho => hfree o (List.mem_cons_of_mem _ ho)
      refine ⟨_, Text.StandsAt.trans ⟨front ++ replacement, [], by simp, rfl⟩ hj, ?_⟩
      rw [List.countP_cons_of_pos (by simp only [hbehind, decide_true])]
      simp only [Text.byteLength_append, Nat.mul_add, Nat.mul_one]
      omega
    · -- the word stands in front of the needle, and so in front of all spans
      rw [← List.append_assoc u] at hs
      have hle : Text.byteLength (u ++ w) ≤ Text.byteLength front := by
        rw [Text.byteLength_append]
        omega
      obtain ⟨x, rfl, -⟩ := Text.exists_append_of_byteLength_le hs.symm hle
      refine ⟨_, ⟨u, x ++ (replacement ++ t), by simp, rfl⟩, ?_⟩
      rw [List.countP_eq_zero.mpr, Nat.mul_zero, Nat.mul_zero]
      simp only [Text.byteLength_append] at hle ⊢
      refine List.forall_mem_cons.mpr ⟨?_, fun o ho => ?_⟩
      · simp only [decide_eq_true_eq]
        omega
      · have := h.le_stop o ho
        simp only [Text.byteLength_append] at this
        simp only [decide_eq_true_eq]
        omega

end Swapped

/-- **A replacement swaps the occurrences found that overlap no protected span**, and copies the
    rest. -/
theorem swapped_replaceFrom (protectedSpans : List Span) (needle replacement : List Char)
    (offset : Nat) (s : List Char) :
    Swapped needle replacement offset
      ((occurrencesFrom needle offset s).filter fun o => !protectedSpans.any o.overlaps) s
      (replaceFrom protectedSpans needle replacement offset [] s) := by
  induction s using search_induction needle generalizing offset with
  | nil =>
    rw [occurrencesFrom_nil, replaceFrom]
    exact .done offset []
  | found hne rest ih =>
    rw [occurrencesFrom_needle hne, replaceFrom_needle hne, List.filter_cons]
    cases protectedSpans.any (Span.mk offset (offset + Text.byteLength needle)).overlaps with
    | true => exact (ih _).push needle
    | false => exact .swap [] (ih _)
  | skip c cs hb ih =>
    rw [occurrencesFrom_of_not_beginsWith hb, replaceFrom_of_not_beginsWith hb]
    exact (ih _).push [c]

/-! ## 3. The loop over slices -/

/-- Goes over the spans found and copies the text in front of each that overlaps no protected span,
    from where the last such span stopped; at the span it writes the replacement. -/
def spliceFrom (s replacement : List Char) (protectedSpans : List Span) (last : Nat)
    (out : List Char) : List Span → Option (List Char)
  | [] => (Text.slice? s last (Text.byteLength s)).map fun slice => out ++ slice
  | o :: found =>
    if protectedSpans.any o.overlaps then spliceFrom s replacement protectedSpans last out found
    else
      (Text.slice? s last o.start).bind fun slice =>
        spliceFrom s replacement protectedSpans o.stop (out ++ slice ++ replacement) found

/-- The text that the loop makes, if all slices that it asks for are there. -/
def spliceUnprotected (s needle replacement : List Char) : Option (List Char) :=
  spliceFrom s replacement (msgpackSpans s) 0 [] (occurrences needle s)

/-- A span that overlaps a protected one is passed over, and the copy goes on from where it was. -/
theorem spliceFrom_filter (s replacement : List Char) (protectedSpans : List Span) (last : Nat)
    (out : List Char) (found : List Span) :
    spliceFrom s replacement protectedSpans last out found =
      spliceFrom s replacement [] last out
        (found.filter fun o => !protectedSpans.any o.overlaps) := by
  induction found generalizing last out with
  | nil => rfl
  | cons o found ih =>
    rw [spliceFrom, List.filter_cons]
    cases protectedSpans.any o.overlaps with
    | true => exact ih last out
    | false => exact congrArg (Text.slice? s last o.start).bind (funext fun slice => ih o.stop _)

/-- The loop finds every slice it asks for, and swaps what it was given. -/
theorem Swapped.spliceFrom_eq {needle replacement : List Char} {spans : List Span} {offset : Nat}
    {s t : List Char} (h : Swapped needle replacement offset spans s t) {u : List Char}
    (hu : Text.byteLength u = offset) (out : List Char) :
    spliceFrom (u ++ s) replacement [] offset out spans = some (out ++ t) := by
  induction h generalizing u out with
  | done offset last =>
    have hslice : Text.slice? (u ++ last) offset (Text.byteLength (u ++ last)) = some last :=
      Text.slice?_eq_some_iff.mpr
        ⟨⟨u, [], by rw [List.append_nil], hu⟩, by rw [Text.byteLength_append, hu]⟩
    rw [spliceFrom, hslice]
    rfl
  | @swap offset front spans s t _ ih =>
    have hslice : Text.slice? (u ++ (front ++ (needle ++ s))) offset
        (offset + Text.byteLength front) = some front :=
      Text.slice?_eq_some_iff.mpr ⟨⟨u, needle ++ s, rfl, hu⟩, rfl⟩
    have hnext := ih (u := u ++ front ++ needle)
      (by rw [Text.byteLength_append, Text.byteLength_append, hu]) (out ++ front ++ replacement)
    have hwhole : u ++ (front ++ (needle ++ s)) = u ++ front ++ needle ++ s := by simp
    rw [spliceFrom, if_neg (by simp), hslice, Option.bind_some, hwhole, hnext]
    simp

/-! ## 4. All occurrences -/

/-- A text with the replacement for every occurrence of the needle. -/
def replaceAll (needle replacement : List Char) : List Char → List Char
  | [] => []
  | c :: cs =>
    if beginsWith needle (c :: cs) then
      replacement ++ replaceAll needle replacement (cs.drop (needle.length - 1))
    else c :: replaceAll needle replacement cs
termination_by s => s.length

theorem replaceAll_needle {needle : List Char} (hne : needle ≠ []) (replacement rest : List Char) :
    replaceAll needle replacement (needle ++ rest) =
      replacement ++ replaceAll needle replacement rest := by
  obtain ⟨c, cs, rfl⟩ := List.exists_cons_of_ne_nil hne
  rw [List.cons_append, replaceAll,
    if_pos (beginsWith_iff.mpr ⟨hne, rest, (List.cons_append ..).symm⟩)]
  simp

/-- Without protected spans every occurrence is replaced. -/
theorem replaceFrom_nil (needle replacement : List Char) (offset : Nat) (s : List Char) :
    replaceFrom [] needle replacement offset [] s = replaceAll needle replacement s := by
  induction s using search_induction needle generalizing offset with
  | nil => rw [replaceFrom, replaceAll]; rfl
  | found hne rest ih =>
    rw [replaceFrom_needle hne, ih, replaceAll_needle hne]
    rfl
  | skip c cs hb ih =>
    rw [replaceFrom_of_not_beginsWith hb, ih, replaceAll, if_neg (by simp [hb])]

/-! ## 5. The replacement of a text -/

theorem msgpackSpans_eq_nil {s : List Char} (h : ∀ g ∈ scan s, g.tag.hasMsgpack = false) :
    msgpackSpans s = [] := by
  rw [msgpackSpans, List.map_eq_nil_iff, List.filter_eq_nil_iff]
  exact fun g hg => Bool.eq_false_iff.mp (h g hg)

/-- **What a replacement does, exactly.** Of the occurrences of the needle from left to right
    without overlap, those that overlap no tag with msgpack get the replacement, and all else is
    copied in order. So the tags with msgpack keep their text, moved by what was put in front of
    them; where there are none, every occurrence is replaced; and a loop that copies the text slice
    by slice comes to the same, with each slice in range and between two characters. -/
theorem replaceUnprotected_exact {needle : List Char} (hne : needle ≠ [])
    (s replacement : List Char) :
    (∀ found, Leftmost needle s found ↔ found = occurrences needle s) ∧
      Swapped needle replacement 0
        ((occurrences needle s).filter fun o => !(msgpackSpans s).any o.overlaps) s
        (replaceUnprotected s needle replacement) ∧
      (∀ g ∈ scan s, g.tag.hasMsgpack = true →
        ∃ i, Text.StandsAt (replaceUnprotected s needle replacement) i g.tag.text ∧
          i + Text.byteLength needle * (exposed needle s).countP (·.stop ≤ g.span.start) =
            g.span.start +
              Text.byteLength replacement * (exposed needle s).countP (·.stop ≤ g.span.start)) ∧
      ((∀ g ∈ scan s, g.tag.hasMsgpack = false) →
        replaceUnprotected s needle replacement = replaceAll needle replacement s) ∧
      spliceUnprotected s needle replacement = some (replaceUnprotected s needle replacement) := by
  have hswapped := swapped_replaceFrom (msgpackSpans s) needle replacement 0 s
  have hleftmost := leftmost_occurrences hne s
  refine ⟨fun found => ⟨fun h => h.unique hleftmost, fun h => h ▸ hleftmost⟩, hswapped,
    fun g hg h => ?_, fun h => ?_, ?_⟩
  · have hstands := hswapped.standsAt g.tag.text_ne_nil (standsAt_of_mem_scan hg) fun o ho => by
      rw [Nat.zero_add, ← g.span_stop]
      exact (mem_exposed_iff.mp ho).2 g hg h
    rw [Nat.zero_add] at hstands
    exact hstands
  · rw [replaceUnprotected, msgpackSpans_eq_nil h]
    exact replaceFrom_nil needle replacement 0 s
  · rw [spliceUnprotected, spliceFrom_filter]
    exact hswapped.spliceFrom_eq (u := []) rfl []

/-- Of three occurrences the one inside the tag with msgpack stays. -/
theorem replaceUnprotected_exact_around :
    "json:\"a\"".toList ≠ [] ∧
      Swapped "json:\"a\"".toList "é".toList 0 [⟨1, 9⟩, ⟨36, 44⟩]
        "`json:\"a\"` ü `json:\"a\" msgpack:\"b\"`json:\"a\"".toList
        "`é` ü `json:\"a\" msgpack:\"b\"`é".toList := by
  have hspans : (occurrences "json:\"a\"".toList
      "`json:\"a\"` ü `json:\"a\" msgpack:\"b\"`json:\"a\"".toList).filter (fun o =>
        !(msgpackSpans "`json:\"a\"` ü `json:\"a\" msgpack:\"b\"`json:\"a\"".toList).any
          o.overlaps) = [⟨1, 9⟩, ⟨36, 44⟩] := by
    decide +kernel
  have htext : replaceUnprotected "`json:\"a\"` ü `json:\"a\" msgpack:\"b\"`json:\"a\"".toList
      "json:\"a\"".toList "é".toList = "`é` ü `json:\"a\" msgpack:\"b\"`é".toList := by
    decide +kernel
  have hne : "json:\"a\"".toList ≠ [] := by decide
  have hexact := replaceUnprotected_exact hne
    "`json:\"a\"` ü `json:\"a\" msgpack:\"b\"`json:\"a\"".toList "é".toList
  rw [hspans, htext] at hexact
  exact ⟨hne, hexact.2.1⟩

end StructTags
