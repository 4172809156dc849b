import StructTags.Tag.Basic

/-!
# The readings of a text as a tag

A value may contain quotes and backticks, so a text can begin with several tags. This file lists
them in the order in which they are preferred: the first value as long as possible, then a blank
rather than none, then a second pair rather than none, its value as long as possible.

* `valueCuts`: all ways to cut a text at a closing quote, longest value first;
* `Pair.readings`: the pairs a text can begin with, in the same order;
* `Tag.readings`: the tags a text can begin with, preferred first;
* `Tag.mem_readings`: these are exactly the tags with valid parts that stand at the start.
-/

namespace StructTags

/-! ## 1. Values -/

/-- Every way to cut a text into a value without blanks, a closing quote and a rest, longest value
    first. -/
def valueCuts : List Char → List (List Char × List Char)
  | [] => []
  | c :: cs =>
    if Text.isBlank c then []
    else (valueCuts cs).map (fun cut => (c :: cut.1, cut.2)) ++ if c = quote then [([], cs)] else []

/-- The cuts are all the ways to write the text as a solid value, a quote and a rest. -/
theorem mem_valueCuts {s value rest : List Char} :
    (value, rest) ∈ valueCuts s ↔ s = value ++ quote :: rest ∧ Text.Solid value := by
  induction s generalizing value with
  | nil => simp [valueCuts]
  | cons c cs ih =>
    unfold valueCuts
    split
    · rename_i hc
      simp only [List.not_mem_nil, false_iff, not_and]
      rintro h hs
      cases value with
      | nil =>
        obtain ⟨rfl, -⟩ := List.cons.inj h
        exact absurd hc (by decide)
      | cons d ds =>
        obtain ⟨rfl, -⟩ := List.cons.inj h
        exact absurd ((Text.solid_cons.mp hs).1) (by simp [hc])
    · rename_i hc
      rw [List.mem_append, List.mem_map]
      cases value with
      | nil =>
        constructor
        · rintro (⟨cut, -, h⟩ | h)
          · simp at h
          · split at h
            · rename_i hq
              simp only [List.mem_singleton, Prod.mk.injEq] at h
              exact ⟨by simp [hq, h.2], Text.solid_nil⟩
            · simp at h
        · rintro ⟨h, -⟩
          obtain ⟨rfl, rfl⟩ := List.cons.inj h
          exact .inr (by simp)
      | cons d ds =>
        constructor
        · rintro (⟨cut, hcut, h⟩ | h)
          · obtain ⟨h1, rfl⟩ := Prod.mk.inj h
            obtain ⟨rfl, rfl⟩ := List.cons.inj h1
            obtain ⟨rfl, hs⟩ := ih.mp (show (cut.1, cut.2) ∈ valueCuts cs from hcut)
            exact ⟨rfl, Text.solid_cons.mpr ⟨by simpa using hc, hs⟩⟩
          · split at h <;> simp at h
        · rintro ⟨h, hs⟩
          obtain ⟨rfl, rfl⟩ := List.cons.inj h
          exact .inl ⟨(ds, rest), ih.mpr ⟨rfl, (Text.solid_cons.mp hs).2⟩, rfl⟩

/-! ## 2. Pairs -/

/-- The rest of a text after the given start, if it has that start. -/
def afterStart? : (start s : List Char) → Option (List Char)
  | [], s => some s
  | c :: start, d :: s => if c = d then afterStart? start s else none
  | _ :: _, [] => none

theorem afterStart?_eq_some_iff {start s rest : List Char} :
    afterStart? start s = some rest ↔ s = start ++ rest := by
  induction start generalizing s with
  | nil => simp [afterStart?]
  | cons c start ih =>
    cases s with
    | nil => simp [afterStart?]
    | cons d s =>
      rw [afterStart?]
      split
      · rename_i h
        rw [ih, h]
        simp
      · rename_i h
        simp [Ne.symm h]

namespace Pair

/-- The pairs that a text can begin with, longest value first, each with the text after it. -/
def readings (s : List Char) : List (Pair × List Char) :=
  Scheme.all.flatMap fun scheme =>
    ((afterStart? scheme.lead s).map valueCuts).getD [] |>.filterMap fun cut =>
      if cut.1.isEmpty then none else some (⟨scheme, cut.1⟩, cut.2)

/-- The readings are all the valid pairs that stand at the start. -/
theorem mem_readings {s rest : List Char} {a : Pair} :
    (a, rest) ∈ readings s ↔ s = a.raw ++ rest ∧ a.Valid := by
  cases a with | mk scheme value =>
  simp only [readings, List.mem_flatMap, List.mem_filterMap, Option.ite_none_left_eq_some,
    Option.some.injEq, Prod.mk.injEq, Pair.mk.injEq, raw, Valid]
  constructor
  · rintro ⟨scheme, -, ⟨value, rest⟩, hmem, hne, ⟨rfl, rfl⟩, rfl⟩
    cases hs : afterStart? scheme.lead s with
    | none => simp [hs] at hmem
    | some body =>
      rw [hs] at hmem
      obtain ⟨rfl, solid⟩ := mem_valueCuts.mp hmem
      rw [afterStart?_eq_some_iff.mp hs]
      exact ⟨by simp, by simpa using hne, solid⟩
  · rintro ⟨rfl, hne, solid⟩
    refine ⟨scheme, scheme.mem_all, (value, rest), ?_, by simpa using hne, ⟨rfl, rfl⟩, rfl⟩
    have hs : afterStart? scheme.lead (scheme.lead ++ value ++ [quote] ++ rest) =
        some (value ++ quote :: rest) := afterStart?_eq_some_iff.mpr (by simp)
    rw [hs]
    exact mem_valueCuts.mpr ⟨rfl, solid⟩

end Pair

/-! ## 3. Tags -/

namespace Tag

/-- The blank that a text begins with, if it begins with one, and the text after it. -/
def blankReadings : List Char → List (Option Char × List Char)
  | [] => []
  | c :: cs => if Text.isBlank c then [(some c, cs)] else []

/-- The ways to pass over at most one blank, the blank first. -/
def gapReadings (s : List Char) : List (Option Char × List Char) := blankReadings s ++ [(none, s)]

theorem mem_blankReadings {s rest : List Char} {gap : Option Char} :
    (gap, rest) ∈ blankReadings s ↔ ∃ c, gap = some c ∧ s = c :: rest ∧ Text.isBlank c = true := by
  cases s with
  | nil => simp [blankReadings]
  | cons d ds =>
    by_cases hd : Text.isBlank d = true
    · simp only [blankReadings, hd, if_true, List.mem_singleton, Prod.mk.injEq, List.cons.injEq]
      constructor
      · rintro ⟨rfl, rfl⟩
        exact ⟨d, rfl, ⟨rfl, rfl⟩, hd⟩
      · rintro ⟨c, rfl, ⟨rfl, rfl⟩, -⟩
        exact ⟨rfl, rfl⟩
    · simp only [blankReadings, hd, Bool.false_eq_true, if_false, List.not_mem_nil, List.cons.injEq,
        false_iff]
      rintro ⟨c, -, ⟨rfl, -⟩, hc⟩
      exact hd hc

theorem mem_gapReadings {s rest : List Char} {gap : Option Char} :
    (gap, rest) ∈ gapReadings s ↔ s = gap.toList ++ rest ∧ ∀ c ∈ gap, Text.isBlank c = true := by
  rw [gapReadings, List.mem_append, mem_blankReadings]
  cases gap with
  | none =>
    constructor
    · rintro (⟨c, h, -⟩ | h)
      · cases h
      · cases List.mem_singleton.mp h
        exact ⟨rfl, fun _ h => nomatch h⟩
    · rintro ⟨rfl, -⟩
      exact .inr (List.mem_singleton.mpr rfl)
  | some c => simp

/-- The ways to read a second pair or none, none last. -/
def secondReadings (s : List Char) : List (Option Pair × List Char) :=
  (Pair.readings s).map (fun reading => (some reading.1, reading.2)) ++ [(none, s)]

theorem mem_secondReadings {s rest : List Char} {second : Option Pair} :
    (second, rest) ∈ secondReadings s ↔
      s = (second.map Pair.raw).getD [] ++ rest ∧ ∀ a ∈ second, a.Valid := by
  rw [secondReadings, List.mem_append, List.mem_map]
  cases second with
  | none =>
    constructor
    · rintro (⟨reading, -, h⟩ | h)
      · simp at h
      · cases List.mem_singleton.mp h
        exact ⟨rfl, fun _ h => nomatch h⟩
    · rintro ⟨rfl, -⟩
      exact .inr (List.mem_singleton.mpr rfl)
  | some a =>
    constructor
    · rintro (⟨reading, hmem, h⟩ | h)
      · obtain ⟨h1, rfl⟩ := Prod.mk.inj h
        cases h1
        obtain ⟨rfl, valid⟩ := Pair.mem_readings.mp hmem
        exact ⟨rfl, fun b hb => by cases hb; exact valid⟩
      · simp at h
    · rintro ⟨rfl, valid⟩
      exact .inl ⟨(a, rest), Pair.mem_readings.mpr ⟨rfl, valid a rfl⟩, rfl⟩

/-- What can follow the first pair of a tag, up to and with the closing backtick. -/
def endings (s : List Char) : List ((Option Char × Option Pair) × List Char) :=
  (gapReadings s).flatMap fun gap =>
    (secondReadings gap.2).filterMap fun second =>
      (afterStart? [backtick] second.2).map fun rest => ((gap.1, second.1), rest)

theorem mem_endings {s rest : List Char} {gap : Option Char} {second : Option Pair} :
    ((gap, second), rest) ∈ endings s ↔
      s = gap.toList ++ ((second.map Pair.raw).getD [] ++ backtick :: rest) ∧
        (∀ c ∈ gap, Text.isBlank c = true) ∧ ∀ a ∈ second, a.Valid := by
  rw [endings, List.mem_flatMap]
  constructor
  · rintro ⟨⟨gap, afterGap⟩, hgap, h⟩
    obtain ⟨⟨second, afterSecond⟩, hsecond, h⟩ := List.mem_filterMap.mp h
    obtain ⟨rest, hrest, h⟩ := Option.map_eq_some_iff.mp h
    cases h
    obtain ⟨rfl, gapBlank⟩ := mem_gapReadings.mp hgap
    obtain ⟨rfl, secondValid⟩ := mem_secondReadings.mp hsecond
    obtain rfl : afterSecond = backtick :: rest := afterStart?_eq_some_iff.mp hrest
    exact ⟨rfl, gapBlank, secondValid⟩
  · rintro ⟨rfl, gapBlank, secondValid⟩
    refine ⟨_, mem_gapReadings.mpr ⟨rfl, gapBlank⟩, List.mem_filterMap.mpr ?_⟩
    refine ⟨_, mem_secondReadings.mpr ⟨rfl, secondValid⟩, ?_⟩
    exact Option.map_eq_some_iff.mpr ⟨rest, afterStart?_eq_some_iff.mpr rfl, rfl⟩

/-- The tags that a text can begin with, preferred first, each with the text after it. -/
def readings (s : List Char) : List (Tag × List Char) :=
  match afterStart? [backtick] s with
  | none => []
  | some body =>
    (Pair.readings body).flatMap fun first =>
      (endings first.2).map fun ending => (⟨first.1, ending.1.1, ending.1.2⟩, ending.2)

/-- The readings are all the tags with valid parts that stand at the start. -/
theorem mem_readings {s rest : List Char} {t : Tag} :
    (t, rest) ∈ readings s ↔ s = t.text ++ rest ∧ t.Valid := by
  obtain ⟨first, gap, second⟩ := t
  have shape : text ⟨first, gap, second⟩ ++ rest = backtick ::
      (first.raw ++ (gap.toList ++ ((second.map Pair.raw).getD [] ++ backtick :: rest))) := by
    simp [text, tail]
  rw [shape, readings]
  constructor
  · intro h
    cases hbody : afterStart? [backtick] s with
    | none => rw [hbody] at h; cases h
    | some body =>
      rw [hbody] at h
      obtain ⟨⟨first, afterFirst⟩, hfirst, h⟩ := List.mem_flatMap.mp h
      obtain ⟨⟨⟨gap, second⟩, rest⟩, hending, h⟩ := List.mem_map.mp h
      cases h
      obtain ⟨rfl, firstValid⟩ := Pair.mem_readings.mp hfirst
      obtain ⟨rfl, gapBlank, secondValid⟩ := mem_endings.mp hending
      exact ⟨afterStart?_eq_some_iff.mp hbody, firstValid, gapBlank, secondValid⟩
  · rintro ⟨rfl, firstValid, gapBlank, secondValid⟩
    have hbody : afterStart? [backtick] (backtick ::
        (first.raw ++ (gap.toList ++ ((second.map Pair.raw).getD [] ++ backtick :: rest)))) =
        some (first.raw ++ (gap.toList ++ ((second.map Pair.raw).getD [] ++ backtick :: rest))) :=
      afterStart?_eq_some_iff.mpr rfl
    rw [hbody]
    refine List.mem_flatMap.mpr ⟨_, Pair.mem_readings.mpr ⟨rfl, firstValid⟩, ?_⟩
    exact List.mem_map.mpr ⟨_, mem_endings.mpr ⟨rfl, gapBlank, secondValid⟩, rfl⟩

end Tag

end StructTags
