import StructTags.Proofs.Tag.Greedy
import StructTags.Proofs.Tag.Layout

/-!
# Texts that have grown

Augmenting puts msgpack pairs into a text, each with a blank in front. This file says what becomes
of the tags when that is done at any places of a text:

* `segment`, `Grown`: what is put in, and the texts that come of it;
* `Grown.closes`, `Grown.continues`, `Grown.starting`: nothing can be read in a grown text that
  could not be read before;
* `Tag.Maximal.grown`: so a tag stays maximal, and a tag of one pair does with its own segment too;
* **`Layout.Read.grown`**: if each tag stays whole or gets its own segment, the grown text is read
  as the grown layout.
-/

namespace StructTags

/-! ## 1. Segments -/

/-- What is put in behind a first pair: a blank and the msgpack pair with the same value. -/
def segment (value : List Char) : List Char := ' ' :: (Pair.mk .msgpack value).raw

/-- The second text is the first one with the segment put in at some places. -/
inductive Grown (value : List Char) : List Char → List Char → Prop where
  | nil : Grown value [] []
  | cons (c : Char) {x y : List Char} : Grown value x y → Grown value (c :: x) (c :: y)
  | put {x y : List Char} : Grown value x y → Grown value x (segment value ++ y)

theorem backtick_notMem_segment {value : List Char} (h : backtick ∉ value) :
    backtick ∉ segment value := by
  intro hmem
  have hlead : backtick ∉ Scheme.msgpack.lead := by decide
  rcases List.mem_cons.mp hmem with hb | hmem
  · exact absurd hb (by decide)
  · rcases List.mem_append.mp hmem with hmem | hb
    · exact (List.mem_append.mp hmem).elim hlead h
    · exact absurd (List.mem_singleton.mp hb) (by decide)

namespace Grown

variable {value x y : List Char}

theorem refl (x : List Char) : Grown value x x := by
  induction x with
  | nil => exact .nil
  | cons c x ih => exact .cons c ih

theorem append {x' y' : List Char} (h : Grown value x y) (h' : Grown value x' y') :
    Grown value (x ++ x') (y ++ y') := by
  induction h with
  | nil => exact h'
  | cons c _ ih => exact .cons c ih
  | put _ ih =>
    rw [List.append_assoc]
    exact .put ih

/-- A character that is not blank is no start of a segment. -/
theorem of_cons {c : Char} (h : Grown value x (c :: y)) (hc : Text.isBlank c = false) :
    ∃ z, x = c :: z ∧ Grown value z y := by
  generalize hy : c :: y = whole at h
  cases h with
  | nil => cases hy
  | cons d h =>
    obtain ⟨rfl, rfl⟩ := List.cons.inj hy
    exact ⟨_, rfl, h⟩
  | put h =>
    rw [(List.cons.inj hy).1] at hc
    exact absurd hc (by decide)

/-- A solid text in front stood there before. -/
theorem of_append {u : List Char} (h : Grown value x (u ++ y)) (hu : Text.Solid u) :
    ∃ z, x = u ++ z ∧ Grown value z y := by
  induction u generalizing x with
  | nil => exact ⟨x, rfl, h⟩
  | cons c u ih =>
    obtain ⟨hc, hu⟩ := Text.solid_cons.mp hu
    obtain ⟨z, rfl, hz⟩ := h.of_cons hc
    obtain ⟨z', rfl, hz'⟩ := ih hz hu
    exact ⟨z', rfl, hz'⟩

/-- A backtick is in no segment, so it stood there before. -/
theorem of_backtick {w : List Char} (hvalue : backtick ∉ value)
    (h : Grown value x (w ++ backtick :: y)) :
    ∃ w' z, x = w' ++ backtick :: z ∧ Grown value z y := by
  generalize hwhole : w ++ backtick :: y = whole at h
  induction h generalizing w with
  | nil =>
    rw [List.append_eq_nil_iff] at hwhole
    cases hwhole.2
  | @cons c x y' h ih =>
    cases w with
    | nil =>
      obtain ⟨rfl, rfl⟩ := List.cons.inj hwhole
      exact ⟨[], x, rfl, h⟩
    | cons d w =>
      obtain ⟨w', z, rfl, hz⟩ := ih (List.cons.inj hwhole).2
      exact ⟨c :: w', z, rfl, hz⟩
  | put h ih =>
    rcases List.append_eq_append_iff.mp hwhole with ⟨a, ha, hb⟩ | ⟨a, ha, hb⟩
    · cases a with
      | nil => exact ih (w := []) hb
      | cons d a =>
        obtain ⟨rfl, -⟩ := List.cons.inj hb
        refine absurd ?_ (backtick_notMem_segment hvalue)
        rw [ha]
        exact List.mem_append_right _ List.mem_cons_self
    · exact ih hb.symm

/-! ## 2. What is read -/

theorem closes (h : Grown value x y) (hy : Closes y) : Closes x := by
  obtain ⟨u, v, rfl, hu⟩ := hy
  have hsolid : Text.Solid [quote, backtick] :=
    Text.solid_cons.mpr ⟨isBlank_quote, Text.solid_cons.mpr ⟨isBlank_backtick, Text.solid_nil⟩⟩
  have hsplit : u ++ quote :: backtick :: v = (u ++ [quote, backtick]) ++ v := by simp
  rw [hsplit] at h
  obtain ⟨z, rfl, -⟩ := h.of_append (Text.solid_append.mpr ⟨hu, hsolid⟩)
  exact ⟨u, z, by simp, hu⟩

/-- When a tag of the grown text ends with a second pair that the pair of a segment begins, a tag
    could end there before, or the pair in front could be closed later. -/
theorem ending_of_segment {second : Option Pair} {r : List Char} (hvalue : backtick ∉ value)
    (h : Grown value x y) (hsolid : Text.Solid ((second.map Pair.raw).getD []))
    (hpairs : (second.map Pair.raw).getD [] ++ backtick :: r =
      (Pair.mk .msgpack value).raw ++ y) :
    (Tag.ending? x).isSome ∨ Closes x := by
  -- where the next thing in the text is the closing backtick, it stood there before
  have hclosing (hy : backtick :: r = y) : (Tag.ending? x).isSome := by
    subst hy
    obtain ⟨z, rfl, -⟩ := h.of_cons isBlank_backtick
    rfl
  rcases List.append_eq_append_iff.mp hpairs with ⟨a, ha, hr⟩ | ⟨a, ha, hr⟩
  · cases a with
    | nil => exact .inl (hclosing hr)
    | cons d a =>
      obtain ⟨rfl, -⟩ := List.cons.inj hr
      refine absurd (List.mem_cons_of_mem _ ?_) (backtick_notMem_segment hvalue)
      rw [ha]
      exact List.mem_append_right _ List.mem_cons_self
  · cases second with
    | none =>
      rw [Option.map_none, Option.getD_none] at ha
      exact absurd (List.append_eq_nil_iff.mp ha.symm).1 (Pair.raw_ne_nil _)
    | some second =>
      rcases List.eq_nil_or_concat a with rfl | ⟨w, last, rfl⟩
      · exact .inl (hclosing hr.symm)
      · have hlast : second.raw = second.scheme.lead ++ second.value ++ [quote] := rfl
        rw [Option.map_some, Option.getD_some] at ha hsolid
        rw [hlast, List.concat_eq_append, ← List.append_assoc] at ha
        obtain ⟨-, hq⟩ := List.append_inj' ha rfl
        obtain rfl := (List.cons.inj hq).1
        have hw : Text.Solid w := by
          rw [hlast, ha] at hsolid
          exact (Text.solid_append.mp (Text.solid_append.mp hsolid).1).2
        subst hr
        refine .inr (h.closes ⟨w, r, ?_, hw⟩)
        simp

/-- Where a tag can end in the grown text, one could end before, or the pair in front could be
    closed later. -/
theorem ending (hvalue : backtick ∉ value) (h : Grown value x y) (hy : (Tag.ending? y).isSome) :
    (Tag.ending? x).isSome ∨ Closes x := by
  rcases Tag.ending?_isSome_iff.mp hy with ⟨r, rfl⟩ | ⟨b, second, r, hb, hsecond, rfl⟩
  · obtain ⟨z, rfl, -⟩ := h.of_cons isBlank_backtick
    exact .inl rfl
  · have hraw := Pair.solid_second hsecond
    generalize hwhole : b :: ((second.map Pair.raw).getD [] ++ backtick :: r) = whole at h
    cases h with
    | nil => cases hwhole
    | @cons c x y h =>
      obtain ⟨rfl, rfl⟩ := List.cons.inj hwhole
      obtain ⟨z, rfl, hz⟩ := h.of_append hraw
      obtain ⟨z', rfl, -⟩ := hz.of_cons isBlank_backtick
      exact .inl (Tag.ending?_isSome_iff.mpr (.inr ⟨b, second, z', hb, hsecond, rfl⟩))
    | put h =>
      -- the blank is the one of the segment, so its pair begins the second pair that is read
      exact h.ending_of_segment hvalue hraw (List.cons.inj hwhole).2

/-- A first value that can be continued in the grown text could be before. -/
theorem continues (hvalue : backtick ∉ value) (h : Grown value x y) (hy : Continues y) :
    Continues x := by
  obtain ⟨u, v, rfl, hu, hv⟩ := hy
  obtain ⟨z, rfl, hz⟩ := h.of_append hu
  obtain ⟨z', rfl, hz'⟩ := hz.of_cons isBlank_quote
  rcases hz'.ending hvalue hv with hend | ⟨w, r, rfl, hw⟩
  · exact ⟨u, z', rfl, hu, hend⟩
  · refine ⟨u ++ quote :: w, backtick :: r, by simp, ?_, rfl⟩
    exact Text.solid_append.mpr ⟨hu, Text.solid_cons.mpr ⟨isBlank_quote, hw⟩⟩

/-- A backtick that begins a tag in the grown text began one before. -/
theorem starting (hvalue : backtick ∉ value) (h : Grown value x y)
    (hy : (Tag.starting? (backtick :: y)).isSome) : (Tag.starting? (backtick :: x)).isSome := by
  obtain ⟨a, rest, valid, hraw, hend⟩ := Tag.starting?_isSome_iff_raw.mp hy
  obtain rfl := (List.cons.inj hraw).2
  have hsplit : a.raw ++ rest = (a.scheme.lead ++ a.value) ++ quote :: rest := by
    rw [Pair.raw, List.append_assoc _ [quote], List.singleton_append]
  have hsolid : Text.Solid (a.scheme.lead ++ a.value) :=
    Text.solid_append.mpr ⟨a.scheme.solid_lead, valid.2⟩
  rw [hsplit] at h
  obtain ⟨z, rfl, hz⟩ := h.of_append hsolid
  have hcont : Continues z := hz.continues hvalue ⟨[], rest, rfl, Text.solid_nil, hend⟩
  obtain ⟨u, v, rfl, hu, hv⟩ := hcont
  -- the pair that began there goes on as far as it can
  refine Tag.starting?_isSome_iff_raw.mpr ⟨⟨a.scheme, a.value ++ u⟩, v, ⟨?_, ?_⟩, ?_, hv⟩
  · intro hnil
    exact valid.1 (List.append_eq_nil_iff.mp hnil).1
  · exact Text.solid_append.mpr ⟨valid.2, hu⟩
  · simp [Pair.raw]

end Grown

/-! ## 3. Tags and stretches -/

section

variable {value rest rest' : List Char}

theorem Tag.Maximal.grown {t : Tag} (h : t.Maximal rest) (hvalue : backtick ∉ value)
    (hrest : Grown value rest rest') : t.Maximal rest' := by
  obtain ⟨first, gap, second⟩ := t
  cases gap with
  | none =>
    cases second with
    | none => exact fun hc => h (hrest.continues hvalue hc)
    | some second => exact h
  | some b =>
    cases second with
    | none => exact h
    | some second => exact fun hc => h (hrest.closes hc)

/-- The tag with a msgpack pair of the first value as its second. -/
def Tag.withMsgpack (t : Tag) : Tag := ⟨t.first, some ' ', some ⟨.msgpack, t.first.value⟩⟩

/-- A tag of one pair is this pair between backticks. -/
theorem Tag.text_of_single {t : Tag} (hgap : t.gap = none) (hsecond : t.second = none) :
    t.text = (backtick :: t.first.raw) ++ [backtick] := by
  simp [text, tail, hgap, hsecond]

theorem Tag.text_withMsgpack (t : Tag) :
    t.withMsgpack.text = (backtick :: t.first.raw) ++ (segment t.first.value ++ [backtick]) := by
  simp [text, tail, withMsgpack, segment]

theorem Tag.Valid.withMsgpack {t : Tag} (h : t.Valid) : t.withMsgpack.Valid := by
  refine ⟨h.1, fun c hc => ?_, fun a ha => ?_⟩
  · rw [← Option.some.inj hc]
    decide
  · rw [← Option.some.inj ha]
    exact h.1

/-- A tag of one pair that is maximal stays so when it gets its msgpack pair. -/
theorem Tag.Maximal.withMsgpack {t : Tag} (h : t.Maximal rest) (hgap : t.gap = none)
    (hsecond : t.second = none) : t.withMsgpack.Maximal rest := by
  rw [Tag.Maximal, hgap, hsecond] at h
  exact fun hc => h (Closes.continues hc)

theorem Tagless.grown {front front' : List Char} (h : Tagless front rest)
    (hvalue : backtick ∉ value) (hfront : Grown value front front')
    (hrest : Grown value rest rest') : Tagless front' rest' := by
  intro w w' hsplit hne
  cases w' with
  | nil => exact absurd rfl hne
  | cons c w' =>
    by_cases hc : c = backtick
    · subst hc
      rw [hsplit] at hfront
      obtain ⟨u, z, rfl, hz⟩ := hfront.of_backtick hvalue
      have hnone := h u (backtick :: z) rfl (List.cons_ne_nil _ _)
      rw [← Option.not_isSome_iff_eq_none] at hnone ⊢
      exact fun hsome => hnone ((hz.append hrest).starting hvalue hsome)
    · rw [List.cons_append, Tag.starting?, if_neg hc]

end

namespace Layout

/-- The second layout is the first one with the segment put in at some places of the stretches, and
    behind the pair of some tags that hold one pair of the same value. -/
inductive Grows (value : List Char) : Layout → Layout → Prop where
  | done {last last' : List Char} : Grown value last last' → Grows value (done last) (done last')
  | keep {front front' : List Char} (t : Tag) {l l' : Layout} : Grown value front front' →
      Grows value l l' → Grows value (tag front t l) (tag front' t l')
  | pair {front front' : List Char} (t : Tag) {l l' : Layout} : Grown value front front' →
      t.gap = none → t.second = none → t.first.value = value →
      Grows value l l' → Grows value (tag front t l) (tag front' t.withMsgpack l')

theorem Grows.text {value : List Char} {l l' : Layout} (h : Grows value l l') :
    Grown value l.text l'.text := by
  induction h with
  | done h => exact h
  | keep t hfront _ ih => exact hfront.append ((Grown.refl _).append ih)
  | pair t hfront hgap hsecond hvalue _ ih =>
    refine hfront.append (Grown.append ?_ ih)
    rw [Tag.text_of_single hgap hsecond, t.text_withMsgpack, hvalue]
    exact (Grown.refl _).append (.put (Grown.refl _))

/-- **A grown text is read as the grown layout.** -/
theorem Read.grown {value : List Char} {l l' : Layout} (h : l.Read) (hvalue : backtick ∉ value)
    (hl : Grows value l l') : l'.Read := by
  induction hl with
  | done hlast => exact Tagless.grown h hvalue hlast .nil
  | @keep front front' t l l' hfront hl ih =>
    obtain ⟨hnone, htag, hrest⟩ := h
    have valid := (Tag.eq_of_starting? htag).1
    rw [Tag.starting?_text_append_iff valid] at htag
    refine ⟨?_, ?_, ih hrest⟩
    · exact hnone.grown hvalue hfront ((Grown.refl _).append hl.text)
    · exact (Tag.starting?_text_append_iff valid _).mpr (htag.grown hvalue hl.text)
  | @pair front front' t l l' hfront hgap hsecond hfirst hl ih =>
    obtain ⟨hnone, htag, hrest⟩ := h
    have valid := (Tag.eq_of_starting? htag).1
    rw [Tag.starting?_text_append_iff valid] at htag
    have hgrown := (Grows.pair t .nil hgap hsecond hfirst hl).text
    refine ⟨hnone.grown hvalue hfront hgrown, ?_, ih hrest⟩
    rw [Tag.starting?_text_append_iff valid.withMsgpack]
    exact (htag.grown hvalue hl.text).withMsgpack hgap hsecond

end Layout

end StructTags
