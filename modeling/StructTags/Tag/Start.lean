import StructTags.Tag.Reading

/-!
# The tag at the start of a text

Of the tags that a text can begin with, the preferred one is read without listing the others. A
value ends at the last quote of its blank-free stretch after which the tag can go on. A second pair
is only looked for after a blank: where one follows directly, the first value reaches over it.

* `longestValue?`, `Pair.longest?`: the longest value, and the pair that has it, with an accepted
  rest;
* `Tag.starting?`: the preferred tag that a text begins with;
* `Tag.starting?_eq_head?`: it is the first of the readings;
* `Tag.eq_of_starting?`: the tag read has valid parts and its text stands at the start;
* `Tag.starting?_isSome_iff`: one is read exactly where a text of the grammar stands;
* `Tag.starting?_eq_none_of_solid`: a stretch without blanks in which one failed holds no other.
-/

namespace StructTags

/-! ## 1. The longest value -/

theorem findSome?_flatMap {α β γ : Type} (f : β → Option γ) (g : α → List β) (l : List α) :
    (l.flatMap g).findSome? f = l.findSome? fun a => (g a).findSome? f := by
  induction l with
  | nil => rfl
  | cons a l ih =>
    rw [List.flatMap_cons, List.findSome?_append, ih, List.findSome?_cons]
    cases (g a).findSome? f <;> rfl

theorem findSome?_filterMap {α β γ : Type} (f : β → Option γ) (g : α → Option β) (l : List α) :
    (l.filterMap g).findSome? f = l.findSome? fun a => (g a).bind f := by
  induction l with
  | nil => rfl
  | cons a l ih =>
    rw [List.findSome?_cons, ← ih]
    cases h : g a with
    | none => rw [List.filterMap_cons_none h]; rfl
    | some b => rw [List.filterMap_cons_some h, List.findSome?_cons]; rfl

section

variable {β : Type}

/-- The last quote of a text whose rest is accepted, with the text in front of it. The text is
    given backwards; `after` is what follows it. -/
def lastQuote? (accept : List Char → Option β) (after : List Char) :
    List Char → Option (List Char × β)
  | [] => none
  | c :: before =>
    match if c = quote && !before.isEmpty then accept after else none with
    | some b => some (before.reverse, b)
    | none => lastQuote? accept (c :: after) before

/-- The longest value at the start of a text after whose closing quote the rest is accepted. -/
def longestValue? (accept : List Char → Option β) (s : List Char) : Option (List Char × β) :=
  let stretch := s.takeWhile (!Text.isBlank ·)
  lastQuote? accept (s.drop stretch.length) stretch.reverse

/-- A cut with a value that is not empty and an accepted rest. -/
def acceptCut (accept : List Char → Option β) (cut : List Char × List Char) :
    Option (List Char × β) :=
  if cut.1.isEmpty then none else (accept cut.2).map fun b => (cut.1, b)

theorem findSome?_valueCuts_append (accept : List Char → Option β) (before after : List Char)
    (solid : Text.Solid before) :
    (valueCuts (before.reverse ++ after)).findSome? (acceptCut accept) =
      ((valueCuts after).findSome? fun cut => acceptCut accept (before.reverse ++ cut.1, cut.2)).or
        (lastQuote? accept after before) := by
  induction before generalizing after with
  | nil => simp [lastQuote?]
  | cons c before ih =>
    obtain ⟨hc, solid⟩ := Text.solid_cons.mp solid
    have regroup : (c :: before).reverse ++ after = before.reverse ++ c :: after := by simp
    rw [regroup, ih (c :: after) solid, valueCuts, if_neg (by simp [hc]), List.findSome?_append,
      List.findSome?_map, Option.or_assoc, lastQuote?]
    congr 1
    · simp [Function.comp_def]
    · by_cases hq : c = quote
      · cases hb : before with
        | nil => simp [hq, acceptCut]
        | cons d ds => cases ha : accept after <;> simp [hq, acceptCut, ha]
      · simp [hq]

theorem drop_length_takeWhile (p : Char → Bool) (s : List Char) :
    s.drop (s.takeWhile p).length = s.dropWhile p := by
  induction s with
  | nil => rfl
  | cons c cs ih =>
    by_cases hc : p c = true
    · simpa [hc] using ih
    · simp [hc]

/-- The longest accepted value is that of the first accepted cut. -/
theorem longestValue?_eq (accept : List Char → Option β) (s : List Char) :
    longestValue? accept s = (valueCuts s).findSome? (acceptCut accept) := by
  have solid : Text.Solid (s.takeWhile (!Text.isBlank ·)).reverse := by
    intro c hc
    simpa using List.all_eq_true.mp List.all_takeWhile c (List.mem_reverse.mp hc)
  have nothing : valueCuts (s.dropWhile (!Text.isBlank ·)) = [] := by
    have h := List.head?_dropWhile_not (!Text.isBlank ·) s
    cases hs : s.dropWhile (!Text.isBlank ·) with
    | nil => rfl
    | cons c cs =>
      rw [hs] at h
      exact if_pos (by simpa using h)
  have h := findSome?_valueCuts_append accept _ (s.dropWhile (!Text.isBlank ·)) solid
  rw [List.reverse_reverse, List.takeWhile_append_dropWhile, nothing] at h
  rw [h, longestValue?, drop_length_takeWhile]
  rfl

end

/-! ## 2. Pairs -/

namespace Pair

/-- The pair with the longest value that a text can begin with, if its rest is accepted. -/
def longest? {β : Type} (accept : List Char → Option β) (s : List Char) : Option (Pair × β) :=
  Scheme.all.findSome? fun scheme =>
    (afterStart? scheme.lead s).bind fun body =>
      (longestValue? accept body).map fun found => (⟨scheme, found.1⟩, found.2)

/-- It is the first of the readings whose rest is accepted. -/
theorem longest?_eq {β : Type} (accept : List Char → Option β) (s : List Char) :
    longest? accept s =
      (readings s).findSome? fun reading => (accept reading.2).map fun b => (reading.1, b) := by
  rw [longest?, readings, findSome?_flatMap]
  congr 1
  funext scheme
  cases afterStart? scheme.lead s with
  | none => rfl
  | some body =>
    rw [Option.bind_some, longestValue?_eq, Option.map_some, Option.getD_some, findSome?_filterMap,
      List.map_findSome?]
    congr 1
    funext cut
    by_cases hc : cut.1.isEmpty = true
    · simp [acceptCut, hc]
    · simp [acceptCut, hc, Function.comp_def]

end Pair

/-! ## 3. Tags -/

namespace Tag

/-- Whether a text begins with the closing backtick. -/
def closing? (s : List Char) : Option Unit := if s.head? = some backtick then some () else none

/-- The second pair, if there is one, before a closing backtick. -/
def second? (s : List Char) : Option (Option Pair) :=
  match Pair.longest? closing? s with
  | some found => some (some found.1)
  | none => (closing? s).map fun _ => none

/-- What follows the first pair of a tag: its end, or a blank and perhaps a second pair. -/
def ending? : List Char → Option (Option Char × Option Pair)
  | [] => none
  | c :: cs =>
    if c = backtick then some (none, none)
    else if Text.isBlank c then (second? cs).map fun second => (some c, second)
    else none

/-- The preferred tag that a text begins with. -/
def starting? : List Char → Option Tag
  | [] => none
  | c :: cs =>
    if c = backtick then
      (Pair.longest? ending? cs).map fun found => ⟨found.1, found.2.1, found.2.2⟩
    else none

/-! ## 4. The preferred reading -/

theorem closing?_eq (s : List Char) : closing? s = (afterStart? [backtick] s).map fun _ => () := by
  cases s with
  | nil => rfl
  | cons c cs =>
    by_cases hc : c = backtick
    · simp [closing?, afterStart?, hc]
    · simp [closing?, afterStart?, hc, Ne.symm hc]

theorem closing?_eq_some_iff {s : List Char} {u : Unit} :
    closing? s = some u ↔ ∃ rest, s = backtick :: rest := by
  rw [closing?_eq, Option.map_eq_some_iff]
  constructor
  · rintro ⟨rest, h, -⟩
    exact ⟨rest, afterStart?_eq_some_iff.mp h⟩
  · rintro ⟨rest, h⟩
    exact ⟨rest, afterStart?_eq_some_iff.mpr h, rfl⟩

/-- Where the second pair is looked for, the first reading that closes is found. -/
theorem second?_eq (s : List Char) :
    second? s = (secondReadings s).findSome? fun second => (closing? second.2).map fun _ => second.1
    := by
  rw [secondReadings, List.findSome?_append, List.findSome?_map, second?, Pair.longest?_eq]
  generalize Pair.readings s = l
  induction l with
  | nil => cases h : closing? s <;> simp [h]
  | cons reading l ih =>
    rw [List.findSome?_cons, List.findSome?_cons]
    cases h : closing? reading.2 with
    | none => simpa [h] using ih
    | some u => simp [h]

/-- The first ending that a text has. -/
def firstEnding? (s : List Char) : Option (Option Char × Option Pair) :=
  (endings s).head?.map Prod.fst

theorem firstEnding?_eq (s : List Char) :
    firstEnding? s =
      (gapReadings s).findSome? fun gap => (second? gap.2).map fun second => (gap.1, second) := by
  rw [firstEnding?, endings, List.head?_flatMap, List.map_findSome?]
  congr 1
  funext gap
  rw [Function.comp_apply, List.head?_filterMap, second?_eq, List.map_findSome?,
    List.map_findSome?]
  congr 1
  funext second
  simp only [Function.comp_apply, closing?_eq, Option.map_map]
  cases afterStart? [backtick] second.2 <;> rfl

/-- No pair begins with a character that no scheme begins with. -/
theorem longest?_of_ne {β : Type} (accept : List Char → Option β) {c : Char} (cs : List Char)
    (hj : c ≠ 'j') (hm : c ≠ 'm') : Pair.longest? accept (c :: cs) = none := by
  simp [Pair.longest?, Scheme.all, afterStart?, Scheme.lead, Ne.symm hj, Ne.symm hm]

theorem firstEnding?_of_ending? {s : List Char} {e : Option Char × Option Pair}
    (h : ending? s = some e) : firstEnding? s = some e := by
  cases s with
  | nil => cases h
  | cons c cs =>
    rw [firstEnding?_eq, gapReadings, List.findSome?_append]
    rw [ending?] at h
    by_cases hc : c = backtick
    · subst hc
      rw [if_pos rfl] at h
      cases h
      have none : Pair.longest? closing? (backtick :: cs) = none :=
        longest?_of_ne _ _ (by decide) (by decide)
      simp [blankReadings, show Text.isBlank backtick = false by decide, second?, none, closing?]
    · rw [if_neg hc] at h
      by_cases hb : Text.isBlank c = true
      · rw [if_pos hb] at h
        simp [blankReadings, hb, h]
      · rw [if_neg hb] at h
        cases h

/-- Where only the full list has an ending, a second pair follows directly. -/
theorem exists_pair_of_firstEnding? {s : List Char} {e : Option Char × Option Pair}
    (h : firstEnding? s = some e) (hnone : ending? s = none) :
    ∃ (a : Pair) (rest : List Char), a.Valid ∧ s = a.raw ++ backtick :: rest := by
  rw [firstEnding?_eq, gapReadings, List.findSome?_append] at h
  cases s with
  | nil => cases h
  | cons c cs =>
    rw [ending?] at hnone
    by_cases hc : c = backtick
    · rw [if_pos hc] at hnone
      cases hnone
    · rw [if_neg hc] at hnone
      have second : ∃ a, second? (c :: cs) = some a := by
        by_cases hb : Text.isBlank c = true
        · rw [if_pos hb, Option.map_eq_none_iff] at hnone
          simp [blankReadings, hb, hnone] at h
          exact ⟨_, h.choose_spec.1⟩
        · simp [blankReadings, hb] at h
          exact ⟨_, h.choose_spec.1⟩
      obtain ⟨second, hsecond⟩ := second
      rw [second?] at hsecond
      cases hl : Pair.longest? closing? (c :: cs) with
      | none =>
        rw [hl] at hsecond
        simp [closing?, hc] at hsecond
      | some found =>
        rw [Pair.longest?_eq] at hl
        obtain ⟨⟨a, rest⟩, hmem, ha⟩ := List.exists_of_findSome?_eq_some hl
        obtain ⟨hs, valid⟩ := Pair.mem_readings.mp hmem
        obtain ⟨u, hu, -⟩ := Option.map_eq_some_iff.mp ha
        obtain ⟨rest, rfl⟩ := closing?_eq_some_iff.mp hu
        exact ⟨a, rest, valid, hs⟩

/-- The first accepted cut is the same for both ways to end a tag: where a second pair follows the
    first one directly, a longer first value reaches to the same end. -/
theorem findSome?_firstEnding? (start s : List Char) :
    ((valueCuts s).findSome? fun cut => acceptCut firstEnding? (start ++ cut.1, cut.2)) =
      (valueCuts s).findSome? fun cut => acceptCut ending? (start ++ cut.1, cut.2) := by
  induction s generalizing start with
  | nil => rfl
  | cons c cs ih =>
    unfold valueCuts
    split
    · rfl
    · have step (accept : List Char → Option (Option Char × Option Pair)) :
          (((valueCuts cs).map fun cut => (c :: cut.1, cut.2)).findSome? fun cut =>
            acceptCut accept (start ++ cut.1, cut.2)) =
          (valueCuts cs).findSome? fun cut =>
            acceptCut accept ((start ++ [c]) ++ cut.1, cut.2) := by
        rw [List.findSome?_map]
        simp [Function.comp_def]
      rw [List.findSome?_append, List.findSome?_append, step, step, ih]
      split
      · cases hending : ending? cs with
        | some e => simp [acceptCut, hending, firstEnding?_of_ending? hending]
        | none =>
          cases hfirst : firstEnding? cs with
          | none => simp [acceptCut, hending, hfirst]
          | some e =>
            obtain ⟨a, rest, valid, rfl⟩ := exists_pair_of_firstEnding? hfirst hending
            have member : (a.scheme.lead ++ a.value, backtick :: rest) ∈
                valueCuts (a.raw ++ backtick :: rest) :=
              mem_valueCuts.mpr ⟨by simp [Pair.raw],
                Text.solid_append.mpr ⟨a.scheme.solid_lead, valid.2⟩⟩
            have found : ((valueCuts (a.raw ++ backtick :: rest)).findSome? fun cut =>
                acceptCut ending? ((start ++ [c]) ++ cut.1, cut.2)).isSome := by
              rw [List.findSome?_isSome_iff]
              exact ⟨_, member, by simp [acceptCut, ending?]⟩
            obtain ⟨b, hb⟩ := Option.isSome_iff_exists.mp found
            rw [hb, Option.some_or, Option.some_or]
      · rfl

/-- The tag that is read is the first of the readings. -/
theorem starting?_eq_head? (s : List Char) : starting? s = (readings s).head?.map Prod.fst := by
  have body (cs : List Char) :
      (readings (backtick :: cs)).head?.map Prod.fst =
        (Pair.longest? firstEnding? cs).map fun found => ⟨found.1, found.2.1, found.2.2⟩ := by
    have hbody : afterStart? [backtick] (backtick :: cs) = some cs :=
      afterStart?_eq_some_iff.mpr rfl
    rw [readings, hbody, List.head?_flatMap, Pair.longest?_eq, List.map_findSome?,
      List.map_findSome?]
    congr 1
    funext first
    simp only [Function.comp_apply, firstEnding?, List.head?_map, Option.map_map]
    rfl
  have same (cs : List Char) : Pair.longest? firstEnding? cs = Pair.longest? ending? cs := by
    unfold Pair.longest?
    congr 1
    funext scheme
    cases afterStart? scheme.lead cs with
    | none => rfl
    | some value =>
      rw [Option.bind_some, Option.bind_some, longestValue?_eq, longestValue?_eq]
      exact congrArg _ (findSome?_firstEnding? [] value)
  cases s with
  | nil => rfl
  | cons c cs =>
    rw [starting?]
    split
    · rename_i hc
      rw [hc, body, same]
    · rename_i hc
      have hnone : afterStart? [backtick] (c :: cs) = none := by
        simp [afterStart?, Ne.symm hc]
      rw [readings, hnone]
      rfl

/-- The tag that is read has valid parts, and its text stands at the start. -/
theorem eq_of_starting? {s : List Char} {t : Tag} (h : starting? s = some t) :
    t.Valid ∧ ∃ rest, s = t.text ++ rest := by
  rw [starting?_eq_head?] at h
  obtain ⟨⟨t, rest⟩, hhead, rfl⟩ := Option.map_eq_some_iff.mp h
  obtain ⟨hs, valid⟩ := mem_readings.mp (List.mem_of_head? hhead)
  exact ⟨valid, rest, hs⟩

/-- Wherever the text of a tag with valid parts stands, some tag is read. -/
theorem starting?_isSome {t : Tag} (valid : t.Valid) (rest : List Char) :
    (starting? (t.text ++ rest)).isSome := by
  have member : (t, rest) ∈ readings (t.text ++ rest) := mem_readings.mpr ⟨rfl, valid⟩
  rw [starting?_eq_head?, Option.isSome_map, List.isSome_head?]
  exact List.ne_nil_of_mem member

theorem backtick_notMem_lead (scheme : Scheme) : backtick ∉ scheme.lead := by
  cases scheme <;> decide

/-- Where a backtick and the start of a pair begin no tag, no tag begins before the next blank
    either: the first value of such a tag, reached from that pair, would make one. -/
theorem starting?_eq_none_of_solid {scheme : Scheme} {u v : List Char}
    (begun : scheme.lead <+: u ++ v) (solid : Text.Solid u)
    (h : starting? (backtick :: (u ++ v)) = none) : starting? v = none := by
  cases hv : starting? v with
  | none => rfl
  | some t =>
    obtain ⟨valid, rest, rfl⟩ := eq_of_starting? hv
    suffices ∃ w, u = scheme.lead ++ w by
      obtain ⟨w, rfl⟩ := this
      let first : Pair := ⟨scheme, w ++ backtick :: (t.first.scheme.lead ++ t.first.value)⟩
      have whole : backtick :: (scheme.lead ++ w ++ (t.text ++ rest)) =
          (Tag.mk first t.gap t.second).text ++ rest := by
        simp [text, tail, Pair.raw, first]
      have validFirst : first.Valid := by
        refine ⟨by simp [first], Text.solid_append.mpr ⟨(Text.solid_append.mp solid).2, ?_⟩⟩
        exact Text.solid_cons.mpr
          ⟨by decide, Text.solid_append.mpr ⟨t.first.scheme.solid_lead, valid.1.2⟩⟩
      have found := starting?_isSome (t := ⟨first, t.gap, t.second⟩) ⟨validFirst, valid.2⟩ rest
      rw [← whole, h] at found
      cases found
    rcases List.prefix_or_prefix_of_prefix begun (List.prefix_append u _) with inside | ⟨w, hw⟩
    · obtain ⟨w, hw⟩ := inside
      exact ⟨w, hw.symm⟩
    · cases w with
      | nil => exact ⟨[], by rw [List.append_nil, ← hw, List.append_nil]⟩
      | cons c w =>
        rw [← hw, List.prefix_append_right_inj] at begun
        obtain ⟨w', hw'⟩ := begun
        obtain ⟨rfl, -⟩ := List.cons.inj hw'
        exact absurd (by rw [← hw]; simp) (backtick_notMem_lead scheme)

/-- A tag is read exactly where some start of the text conforms to the grammar. -/
theorem starting?_isSome_iff {s : List Char} :
    (starting? s).isSome ↔ ∃ u rest, s = u ++ rest ∧ Conforms u := by
  constructor
  · intro h
    obtain ⟨t, ht⟩ := Option.isSome_iff_exists.mp h
    obtain ⟨valid, rest, rfl⟩ := eq_of_starting? ht
    exact ⟨t.text, rest, rfl, t, valid, rfl⟩
  · rintro ⟨-, rest, rfl, t, valid, rfl⟩
    exact starting?_isSome valid rest

end Tag

end StructTags
