import StructTags.Tag.Start

/-!
# When a tag is the one that is read

Where several tags start, the preferred one has the longest first value and then the longest second
value. Whether a tag that stands at the start of a text is this one depends on what follows it, and
this file says how:

* `longestValue?_eq_some_iff`: a value is read if no longer one is accepted;
* `Closes`, `Continues`: a value that reaches into the text can be closed before its first blank, so
  that a tag ends there, or so that one goes on there;
* `Tag.Maximal`: nothing that follows a tag makes a longer one of it;
* **`Tag.starting?_text_append_iff`**: a tag is read where it stands if and only if it is maximal.
-/

namespace StructTags

/-! ## 1. The longest value -/

theorem isBlank_backtick : Text.isBlank backtick = false := by decide

theorem isBlank_quote : Text.isBlank quote = false := by decide

/-- A pair whose value has no blank has none. -/
theorem Pair.solid_raw {a : Pair} (h : Text.Solid a.value) : Text.Solid a.raw := by
  exact (Text.solid_append.mpr ⟨a.scheme.solid_lead, h⟩).concat isBlank_quote

/-- A pair that can be written has no blank. -/
theorem Pair.Valid.solid_raw {a : Pair} (h : a.Valid) : Text.Solid a.raw := Pair.solid_raw h.2

/-- A second pair that can be written has no blank, and where there is none there is nothing. -/
theorem Pair.solid_second {second : Option Pair} (h : ∀ a ∈ second, a.Valid) :
    Text.Solid ((second.map Pair.raw).getD []) := by
  cases second with
  | none => exact Text.solid_nil
  | some a => exact (h a rfl).solid_raw

/-- The cuts get shorter from left to right. -/
theorem pairwise_valueCuts (s : List Char) :
    (valueCuts s).Pairwise fun a b => b.1.length < a.1.length := by
  induction s with
  | nil => exact List.Pairwise.nil
  | cons c cs ih =>
    rw [valueCuts]
    split
    · exact List.Pairwise.nil
    · refine List.pairwise_append.mpr ⟨?_, ?_, fun a ha b hb => ?_⟩
      · refine List.pairwise_map.mpr (ih.imp fun hlt => ?_)
        exact Nat.succ_lt_succ hlt
      · split
        · exact List.pairwise_singleton _ _
        · exact List.Pairwise.nil
      · obtain ⟨cut, -, rfl⟩ := List.mem_map.mp ha
        split at hb
        · rw [List.mem_singleton.mp hb]
          exact Nat.succ_pos _
        · exact absurd hb List.not_mem_nil

section

variable {β : Type} {accept : List Char → Option β} {s v : List Char} {b : β}

theorem acceptCut_eq_some_iff {cut : List Char × List Char} :
    acceptCut accept cut = some (v, b) ↔ cut.1 = v ∧ v ≠ [] ∧ accept cut.2 = some b := by
  unfold acceptCut
  split
  · rename_i h
    have hnil := List.isEmpty_iff.mp h
    refine iff_of_false (fun h => by cases h) fun ⟨hv, hne, _⟩ => ?_
    exact hne (hv.symm.trans hnil)
  · rename_i h
    have hne : cut.1 ≠ [] := fun hnil => h (List.isEmpty_iff.mpr hnil)
    refine ⟨fun h => ?_, fun ⟨hv, _, hb⟩ => ?_⟩
    · obtain ⟨b', hb', heq⟩ := Option.map_eq_some_iff.mp h
      obtain ⟨rfl, rfl⟩ := Prod.mk.inj heq
      exact ⟨rfl, hne, hb'⟩
    · rw [hb, hv]
      rfl

theorem acceptCut_eq_none {cut : List Char × List Char} (h : accept cut.2 = none) :
    acceptCut accept cut = none := by
  unfold acceptCut
  rw [h]
  split <;> rfl

/-- A value is read if a quote closes it, what follows is accepted, and it is so for no longer
    value. -/
theorem longestValue?_eq_some_iff :
    longestValue? accept s = some (v, b) ↔
      (∃ rest, s = v ++ quote :: rest ∧ accept rest = some b) ∧ v ≠ [] ∧ Text.Solid v ∧
        ∀ v' rest', s = v' ++ quote :: rest' → Text.Solid v' → v.length < v'.length →
          accept rest' = none := by
  rw [longestValue?_eq, List.findSome?_eq_some_iff]
  have hpair := pairwise_valueCuts s
  constructor
  · intro ⟨before, cut, after, hcuts, hcut, hbefore⟩
    obtain ⟨rfl, hne, hb⟩ := acceptCut_eq_some_iff.mp hcut
    have hmem : (cut.1, cut.2) ∈ valueCuts s := by
      rw [hcuts]
      exact List.mem_append_right _ List.mem_cons_self
    obtain ⟨hs, hsolid⟩ := mem_valueCuts.mp hmem
    refine ⟨⟨cut.2, hs, hb⟩, hne, hsolid, fun v' rest' hs' hsolid' hlt => ?_⟩
    have hmem' : (v', rest') ∈ valueCuts s := mem_valueCuts.mpr ⟨hs', hsolid'⟩
    rw [hcuts] at hmem' hpair
    rcases List.mem_append.mp hmem' with hin | hin
    · -- a longer cut was tried before
      cases hacc : accept rest' with
      | none => rfl
      | some b' =>
        have hne' : v' ≠ [] := by
          rintro rfl
          exact absurd hlt (Nat.not_lt_zero _)
        have := hbefore _ hin
        rw [acceptCut_eq_some_iff.mpr ⟨rfl, hne', hacc⟩] at this
        cases this
    · rcases List.mem_cons.mp hin with heq | hin
      · rw [← heq] at hlt
        exact absurd hlt (Nat.lt_irrefl _)
      · have := (List.pairwise_cons.mp (List.pairwise_append.mp hpair).2.1).1 _ hin
        exact absurd hlt (Nat.lt_asymm this)
  · intro ⟨⟨rest, hs, hb⟩, hne, hsolid, hlonger⟩
    obtain ⟨before, after, hcuts⟩ := List.append_of_mem (mem_valueCuts.mpr ⟨hs, hsolid⟩)
    refine ⟨before, (v, rest), after, hcuts, acceptCut_eq_some_iff.mpr ⟨rfl, hne, hb⟩, ?_⟩
    intro cut hcut
    have hmem : (cut.1, cut.2) ∈ valueCuts s := by
      rw [hcuts]
      exact List.mem_append_left _ hcut
    obtain ⟨hs', hsolid'⟩ := mem_valueCuts.mp hmem
    rw [hcuts] at hpair
    have hlt := (List.pairwise_append.mp hpair).2.2 cut hcut _ List.mem_cons_self
    exact acceptCut_eq_none (hlonger cut.1 cut.2 hs' hsolid' hlt)

/-- The value in front of a quote is read if what follows is accepted and nothing is behind a
    further quote before the first blank. -/
theorem longestValue?_append_quote_iff {rest : List Char} (hne : v ≠ []) (hsolid : Text.Solid v) :
    longestValue? accept (v ++ quote :: rest) = some (v, b) ↔
      accept rest = some b ∧
        ∀ w rest', rest = w ++ quote :: rest' → Text.Solid w → accept rest' = none := by
  rw [longestValue?_eq_some_iff]
  constructor
  · intro ⟨⟨rest₁, hrest, hb⟩, _, _, hlonger⟩
    obtain rfl : rest = rest₁ := (List.cons.inj (List.append_cancel_left hrest)).2
    refine ⟨hb, fun w rest' hsplit hw => hlonger (v ++ quote :: w) rest' ?_ ?_ ?_⟩
    · rw [hsplit, List.append_assoc, List.cons_append]
    · exact Text.solid_append.mpr ⟨hsolid, Text.solid_cons.mpr ⟨isBlank_quote, hw⟩⟩
    · rw [List.length_append, List.length_cons]
      omega
  · intro ⟨hb, hnone⟩
    refine ⟨⟨rest, rfl, hb⟩, hne, hsolid, fun v' rest' hsplit hsolid' hlt => ?_⟩
    rcases List.append_eq_append_iff.mp hsplit with ⟨w, rfl, hw⟩ | ⟨w, rfl, -⟩
    · cases w with
      | nil =>
        rw [List.append_nil] at hlt
        exact absurd hlt (Nat.lt_irrefl _)
      | cons d w =>
        obtain ⟨rfl, hrest⟩ := List.cons.inj hw
        exact hnone w rest' hrest (Text.solid_cons.mp (Text.solid_append.mp hsolid').2).2
    · rw [List.length_append] at hlt
      omega

/-- A text begins with the lead of one scheme only. -/
theorem afterStart?_lead (scheme other : Scheme) (body : List Char) :
    afterStart? other.lead (scheme.lead ++ body) = if other = scheme then some body else none := by
  cases scheme <;> cases other <;> rfl

theorem Pair.longest?_lead_append (scheme : Scheme) (body : List Char) :
    Pair.longest? accept (scheme.lead ++ body) =
      (longestValue? accept body).map fun found => (⟨scheme, found.1⟩, found.2) := by
  unfold Pair.longest?
  simp only [afterStart?_lead]
  cases hv : longestValue? accept body <;> cases scheme <;>
    simp [Scheme.all, hv]

end

/-! ## 2. What can follow a tag -/

/-- A value that reaches into the text can be closed, with the tag, before the first blank. -/
def Closes (s : List Char) : Prop := ∃ u v, s = u ++ quote :: backtick :: v ∧ Text.Solid u

/-- A first value that reaches into the text can be closed before the first blank in such a way that
    the tag ends or goes on there. -/
def Continues (s : List Char) : Prop :=
  ∃ u v, s = u ++ quote :: v ∧ Text.Solid u ∧ (Tag.ending? v).isSome

theorem Closes.continues {s : List Char} (h : Closes s) : Continues s := by
  obtain ⟨u, v, hsplit, hu⟩ := h
  exact ⟨u, backtick :: v, hsplit, hu, rfl⟩

namespace Tag

theorem closing?_backtick (s : List Char) : closing? (backtick :: s) = some () := rfl

theorem ending?_backtick (s : List Char) : ending? (backtick :: s) = some (none, none) := rfl

theorem ending?_blank {b : Char} (hb : Text.isBlank b = true) (s : List Char) :
    ending? (b :: s) = (second? s).map fun second => (some b, second) := by
  have hne : b ≠ backtick := by
    rintro rfl
    exact absurd hb (by decide)
  rw [ending?, if_neg hne, if_pos hb]

theorem second?_backtick (s : List Char) : second? (backtick :: s) = some none := by
  rw [second?, longest?_of_ne _ _ (by decide) (by decide)]
  rfl

/-- A second pair is read if it stands there before a backtick and none with a longer value does. -/
theorem second?_eq_some_some_iff {s : List Char} {a : Pair} :
    second? s = some (some a) ↔ Pair.longest? closing? s = some (a, ()) := by
  rw [second?]
  cases Pair.longest? closing? s with
  | none =>
    refine iff_of_false (fun h => ?_) (fun h => by cases h)
    obtain ⟨u, -, hu⟩ := Option.map_eq_some_iff.mp h
    cases hu
  | some found =>
    obtain ⟨b, u⟩ := found
    rw [Option.some.injEq, Option.some.injEq, Option.some.injEq, Prod.mk.injEq]
    exact ⟨fun h => ⟨h, rfl⟩, fun h => h.1⟩

/-- Where a pair stands before a backtick, some second pair is read. -/
theorem exists_second?_eq_some {a : Pair} (valid : a.Valid) (rest : List Char) :
    ∃ b, second? (a.raw ++ backtick :: rest) = some (some b) := by
  have hmem : (a, backtick :: rest) ∈ Pair.readings (a.raw ++ backtick :: rest) :=
    Pair.mem_readings.mpr ⟨rfl, valid⟩
  have hfound : (Pair.longest? closing? (a.raw ++ backtick :: rest)).isSome := by
    rw [Pair.longest?_eq, List.findSome?_isSome_iff]
    exact ⟨_, hmem, by rw [closing?_backtick]; rfl⟩
  obtain ⟨found, hfound⟩ := Option.isSome_iff_exists.mp hfound
  exact ⟨found.1, second?_eq_some_some_iff.mpr hfound⟩

/-- The second pair that is read can be written and stands there before a backtick. -/
theorem eq_of_second? {s : List Char} {a : Pair} (h : second? s = some (some a)) :
    a.Valid ∧ ∃ rest, s = a.raw ++ backtick :: rest := by
  rw [second?_eq_some_some_iff, Pair.longest?_eq] at h
  obtain ⟨⟨b, rest⟩, hmem, hb⟩ := List.exists_of_findSome?_eq_some h
  obtain ⟨u, hu, heq⟩ := Option.map_eq_some_iff.mp hb
  obtain ⟨rfl, -⟩ := Prod.mk.inj heq
  obtain ⟨rest, rfl⟩ := closing?_eq_some_iff.mp hu
  obtain ⟨hs, valid⟩ := Pair.mem_readings.mp hmem
  exact ⟨valid, rest, hs⟩

/-- Without a blank no second pair is read. -/
theorem second_eq_none_of_ending? {s : List Char} {second : Option Pair}
    (h : ending? s = some (none, second)) : second = none := by
  cases s with
  | nil => cases h
  | cons c cs =>
    rw [ending?] at h
    split at h
    · cases h
      rfl
    · split at h
      · obtain ⟨found, -, heq⟩ := Option.map_eq_some_iff.mp h
        cases heq
      · cases h

/-- What follows a first pair ends the tag if it is the closing backtick, or a blank and perhaps a
    second pair before one. -/
theorem ending?_isSome_iff {s : List Char} :
    (ending? s).isSome ↔ (∃ rest, s = backtick :: rest) ∨
      ∃ (b : Char) (second : Option Pair) (rest : List Char), Text.isBlank b = true ∧
        (∀ a ∈ second, a.Valid) ∧ s = b :: ((second.map Pair.raw).getD [] ++ backtick :: rest) := by
  constructor
  · intro h
    obtain ⟨⟨gap, second⟩, he⟩ := Option.isSome_iff_exists.mp h
    have hfirst := firstEnding?_of_ending? he
    obtain ⟨⟨e, rest⟩, hhead, rfl⟩ := Option.map_eq_some_iff.mp hfirst
    obtain ⟨hs, hgap, hsecond⟩ := mem_endings.mp (List.mem_of_head? hhead)
    cases gap with
    | none =>
      obtain rfl := second_eq_none_of_ending? he
      exact .inl ⟨rest, hs⟩
    | some b => exact .inr ⟨b, second, rest, hgap b rfl, hsecond, hs⟩
  · intro h
    rcases h with ⟨rest, rfl⟩ | ⟨b, second, rest, hb, hsecond, rfl⟩
    · rfl
    · rw [ending?_blank hb, Option.isSome_map]
      cases second with
      | none =>
        show (second? (backtick :: rest)).isSome
        rw [second?_backtick]
        rfl
      | some a =>
        obtain ⟨found, hfound⟩ := exists_second?_eq_some (hsecond a rfl) rest
        show (second? (a.raw ++ backtick :: rest)).isSome
        rw [hfound]
        rfl

/-! ## 3. Maximal tags -/

/-- Nothing that follows a tag makes a longer one of it. A tag that ends in a blank is maximal, one
    without a blank has no second pair. -/
def Maximal (t : Tag) (rest : List Char) : Prop :=
  match t.gap, t.second with
  | none, none => ¬ Continues rest
  | none, some _ => False
  | some _, none => True
  | some _, some _ => ¬ Closes rest

theorem not_continues_blank {b : Char} (hb : Text.isBlank b = true) (s : List Char) :
    ¬ Continues (b :: s) := by
  intro ⟨u, v, hsplit, hu, _⟩
  cases u with
  | nil =>
    rw [(List.cons.inj hsplit).1] at hb
    exact absurd hb (by decide)
  | cons c u =>
    have hc := (Text.solid_cons.mp hu).1
    rw [← (List.cons.inj hsplit).1, hb] at hc
    cases hc

theorem continues_backtick_iff {s : List Char} : Continues (backtick :: s) ↔ Continues s := by
  constructor
  · intro ⟨u, v, hsplit, hu, hv⟩
    cases u with
    | nil => exact absurd (List.cons.inj hsplit).1 (by decide)
    | cons c u => exact ⟨u, v, (List.cons.inj hsplit).2, (Text.solid_cons.mp hu).2, hv⟩
  · intro ⟨u, v, hsplit, hu, hv⟩
    refine ⟨backtick :: u, v, by rw [hsplit, List.cons_append], ?_, hv⟩
    exact Text.solid_cons.mpr ⟨isBlank_backtick, hu⟩

theorem closes_backtick_iff {s : List Char} : Closes (backtick :: s) ↔ Closes s := by
  constructor
  · intro ⟨u, v, hsplit, hu⟩
    cases u with
    | nil => exact absurd (List.cons.inj hsplit).1 (by decide)
    | cons c u => exact ⟨u, v, (List.cons.inj hsplit).2, (Text.solid_cons.mp hu).2⟩
  · intro ⟨u, v, hsplit, hu⟩
    refine ⟨backtick :: u, v, by rw [hsplit, List.cons_append], ?_⟩
    exact Text.solid_cons.mpr ⟨isBlank_backtick, hu⟩

/-- A tag is read where its first pair is followed by its end, and the first value cannot be
    continued. -/
theorem starting?_raw_append_iff {first : Pair} {gap : Option Char} {second : Option Pair}
    {rest : List Char} (valid : first.Valid) :
    starting? (backtick :: (first.raw ++ rest)) = some ⟨first, gap, second⟩ ↔
      ending? rest = some (gap, second) ∧ ¬ Continues rest := by
  have shape : first.raw ++ rest = first.scheme.lead ++ (first.value ++ quote :: rest) := by
    simp [Pair.raw]
  have hread : starting? (backtick :: (first.raw ++ rest)) = some ⟨first, gap, second⟩ ↔
      longestValue? ending? (first.value ++ quote :: rest) =
        some (first.value, (gap, second)) := by
    rw [starting?, if_pos rfl, shape, Pair.longest?_lead_append, Option.map_map]
    cases longestValue? ending? (first.value ++ quote :: rest) with
    | none => exact iff_of_false (fun h => by cases h) (fun h => by cases h)
    | some found =>
      obtain ⟨value, gap', second'⟩ := found
      obtain ⟨scheme, v⟩ := first
      simp
  rw [hread, longestValue?_append_quote_iff valid.1 valid.2]
  refine and_congr_right fun _ => ⟨fun hnone hcontinues => ?_, fun hno w r hsplit hw => ?_⟩
  · obtain ⟨u, v, hsplit, hu, hv⟩ := hcontinues
    rw [hnone u v hsplit hu] at hv
    cases hv
  · exact Option.not_isSome_iff_eq_none.mp fun hr => hno ⟨w, r, hsplit, hw, hr⟩

/-- A second pair is read before a backtick if its value cannot be closed any later. -/
theorem second?_raw_append_iff {a : Pair} {rest : List Char} (valid : a.Valid) :
    second? (a.raw ++ backtick :: rest) = some (some a) ↔ ¬ Closes (backtick :: rest) := by
  have shape : a.raw ++ backtick :: rest = a.scheme.lead ++
      (a.value ++ quote :: backtick :: rest) := by
    simp [Pair.raw]
  have hread : Pair.longest? closing? (a.raw ++ backtick :: rest) = some (a, ()) ↔
      longestValue? closing? (a.value ++ quote :: backtick :: rest) = some (a.value, ()) := by
    rw [shape, Pair.longest?_lead_append]
    cases longestValue? closing? (a.value ++ quote :: backtick :: rest) with
    | none => exact iff_of_false (fun h => by cases h) (fun h => by cases h)
    | some found =>
      obtain ⟨value, u⟩ := found
      obtain ⟨scheme, v⟩ := a
      simp
  rw [second?_eq_some_some_iff, hread, longestValue?_append_quote_iff valid.1 valid.2,
    closing?_backtick, and_iff_right rfl]
  constructor
  · intro hnone hcloses
    obtain ⟨u, v, hsplit, hu⟩ := hcloses
    have := hnone u (backtick :: v) hsplit hu
    rw [closing?_backtick] at this
    cases this
  · intro hno w r hsplit hw
    cases hr : closing? r with
    | none => rfl
    | some x =>
      obtain ⟨v, rfl⟩ := closing?_eq_some_iff.mp hr
      exact absurd ⟨w, v, hsplit, hw⟩ hno

/-- **A tag is read where it stands if and only if it is maximal.** -/
theorem starting?_text_append_iff {t : Tag} (valid : t.Valid) (rest : List Char) :
    starting? (t.text ++ rest) = some t ↔ t.Maximal rest := by
  obtain ⟨first, gap, second⟩ := t
  have shape : (Tag.mk first gap second).text ++ rest = backtick :: (first.raw ++
      (gap.toList ++ ((second.map Pair.raw).getD [] ++ backtick :: rest))) := by
    simp [text, tail]
  rw [shape, starting?_raw_append_iff valid.1]
  cases gap with
  | none =>
    cases second with
    | none =>
      show ending? (backtick :: rest) = some (none, none) ∧ ¬ Continues (backtick :: rest) ↔
        ¬ Continues rest
      rw [continues_backtick_iff, ending?_backtick]
      exact and_iff_right rfl
    | some second =>
      refine iff_of_false (fun h => ?_) (fun h => h)
      cases second_eq_none_of_ending? h.1
  | some b =>
    have hb : Text.isBlank b = true := valid.2.1 b rfl
    show ending? (b :: ((second.map Pair.raw).getD [] ++ backtick :: rest)) =
      some (some b, second) ∧ ¬ Continues (b :: _) ↔ _
    rw [and_iff_left (not_continues_blank hb _), ending?_blank hb]
    cases second with
    | none =>
      show (second? (backtick :: rest)).map _ = some (some b, none) ↔ True
      rw [second?_backtick]
      exact iff_of_true rfl trivial
    | some second =>
      have hmap : (second? (second.raw ++ backtick :: rest)).map (fun s => (some b, s)) =
          some (some b, some second) ↔
            second? (second.raw ++ backtick :: rest) = some (some second) := by
        cases second? (second.raw ++ backtick :: rest) <;> simp
      refine hmap.trans ?_
      rw [second?_raw_append_iff (valid.2.2 second rfl), closes_backtick_iff]
      rfl

/-- A single pair that can be written makes a tag. -/
theorem valid_single {a : Pair} (h : a.Valid) : (Tag.mk a none none).Valid := by
  refine ⟨h, fun c hc => ?_, fun b hb => ?_⟩
  · cases hc
  · cases hb

/-- A tag starts where a pair stands behind a backtick and before an end. -/
theorem starting?_isSome_iff_raw {s : List Char} :
    (starting? s).isSome ↔
      ∃ (a : Pair) (rest : List Char), a.Valid ∧ s = backtick :: (a.raw ++ rest) ∧
        (ending? rest).isSome := by
  constructor
  · intro h
    obtain ⟨t, ht⟩ := Option.isSome_iff_exists.mp h
    obtain ⟨valid, rest, rfl⟩ := eq_of_starting? ht
    have shape : t.text ++ rest = backtick :: (t.first.raw ++ (t.tail ++ backtick :: rest)) := by
      simp [text]
    rw [shape, starting?_raw_append_iff valid.1] at ht
    exact ⟨t.first, _, valid.1, shape, by rw [ht.1]; rfl⟩
  · intro h
    obtain ⟨a, rest, valid, hs, hend⟩ := h
    rcases ending?_isSome_iff.mp hend with ⟨r, rfl⟩ | ⟨b, second, r, hb, hsecond, rfl⟩
    · have := starting?_isSome (valid_single valid) r
      rw [hs]
      simpa [text, tail] using this
    · have hvalid : (Tag.mk a (some b) second).Valid :=
        ⟨valid, fun c hc => Option.some.inj hc ▸ hb, hsecond⟩
      have := starting?_isSome hvalid r
      rw [hs]
      simpa [text, tail] using this

end Tag

end StructTags
