import Mathlib.Data.List.Basic
import StructTags.Tag.Scan

/-!
# The pattern of struct tags

The grammar of tags can be written as a pattern for a search with priorities: of two alternatives
the left one is tried first, and what may be repeated or left out is taken as often as possible
first. This file fixes such patterns and what a search does with them:

* `Pattern.runs`: all ways in which a pattern matches at the start of a text, preferred first, with
  the captured parts;
* `Pattern.matchesFrom`: the leftmost matches of a text without overlap, each the preferred one;
* `tagPattern`: the pattern of tags, with the captured parts numbered by their opening parentheses;
* `Run.tag?`: the tag that a match captures, if all its parts are there and its schemes are known;
* `map_tag?_matchesFrom`: the tags of a text are what the matches capture, and no match is lost.
-/

namespace StructTags

/-! ## 1. Patterns -/

/-- A pattern over characters. -/
inductive Pattern where
  /-- Exactly this text. -/
  | literal (w : List Char)
  /-- One character of a class. -/
  | one (p : Char → Bool)
  /-- One or more characters of a class, as many as possible. -/
  | many (p : Char → Bool)
  /-- The pattern, or else nothing. -/
  | optional (a : Pattern)
  /-- One pattern behind the other. -/
  | seq (a b : Pattern)
  /-- The first pattern, or else the second. -/
  | either (a b : Pattern)
  /-- The pattern, with its text kept under a number. -/
  | capture (n : Nat) (a : Pattern)

/-- One way in which a pattern matches at the start of a text. -/
structure Run where
  text : List Char
  captures : List (Nat × List Char)
  rest : List Char

/-- A match and one that begins where it ends. -/
def Run.followedBy (x y : Run) : Run := ⟨x.text ++ y.text, x.captures ++ y.captures, y.rest⟩

/-- Every way to cut off one or more characters of a class, most first. -/
def classCuts (p : Char → Bool) : List Char → List (List Char × List Char)
  | [] => []
  | c :: cs =>
    if p c then (classCuts p cs).map (fun cut => (c :: cut.1, cut.2)) ++ [([c], cs)] else []

namespace Pattern

/-- All ways in which a pattern matches at the start of a text, preferred first. -/
def runs : Pattern → List Char → List Run
  | literal w, s => ((afterStart? w s).map fun rest => ⟨w, [], rest⟩).toList
  | one p, s =>
    match s with
    | [] => []
    | c :: cs => if p c then [⟨[c], [], cs⟩] else []
  | many p, s => (classCuts p s).map fun cut => ⟨cut.1, [], cut.2⟩
  | optional a, s => a.runs s ++ [⟨[], [], s⟩]
  | seq a b, s => (a.runs s).flatMap fun x => (b.runs x.rest).map x.followedBy
  | either a b, s => a.runs s ++ b.runs s
  | capture n a, s => (a.runs s).map fun x => { x with captures := (n, x.text) :: x.captures }

/-- The leftmost matches of a text that stands at a byte offset, for a pattern that takes at least
    one character. The search goes on behind each match. -/
def matchesFrom (p : Pattern) (offset : Nat) : List Char → List (Nat × Run)
  | [] => []
  | c :: cs =>
    match (p.runs (c :: cs)).head? with
    | none => p.matchesFrom (offset + c.utf8Size) cs
    | some r =>
      (offset, r) :: p.matchesFrom (offset + Text.byteLength r.text) (cs.drop (r.text.length - 1))
termination_by s => s.length

end Pattern

/-! ## 2. The pattern of tags -/

/-- A pair: its text is captured under the number, its scheme and its value under the next two. -/
def pairPattern (n : Nat) : Pattern :=
  .capture n
    (.seq (.capture (n + 1) (.either (.literal Scheme.json.name) (.literal Scheme.msgpack.name)))
      (.seq (.literal [':', quote])
        (.seq (.capture (n + 2) (.many (!Text.isBlank ·))) (.literal [quote]))))

/-- A tag: a pair, at most one blank, at most one more pair, between backticks. -/
def tagPattern : Pattern :=
  .seq (.literal [backtick])
    (.seq (pairPattern 1)
      (.seq (.optional (.one Text.isBlank))
        (.seq (.optional (pairPattern 4)) (.literal [backtick]))))

/-- A pair together with the text it was captured from. -/
structure CapturedPair where
  raw : List Char
  pair : Pair
  deriving DecidableEq, Repr

/-- What is captured of a tag: its bytes and its pairs. -/
structure CapturedTag where
  span : Span
  first : CapturedPair
  second : Option CapturedPair
  deriving DecidableEq, Repr

namespace Run

/-- The text captured under a number. -/
def part? (r : Run) (n : Nat) : Option (List Char) := r.captures.lookup n

/-- The pair captured under a number, if its scheme is known. -/
def pair? (r : Run) (n : Nat) : Option CapturedPair :=
  (r.part? n).bind fun raw =>
    ((r.part? (n + 1)).bind Scheme.ofName?).bind fun scheme =>
      (r.part? (n + 2)).map fun value => ⟨raw, scheme, value⟩

/-- The tag that a match of the tag pattern at a byte offset captures. -/
def tag? (offset : Nat) (r : Run) : Option CapturedTag :=
  (r.pair? 1).bind fun first =>
    match r.part? 4 with
    | none => some ⟨⟨offset, offset + Text.byteLength r.text⟩, first, none⟩
    | some _ =>
      (r.pair? 4).map fun second =>
        ⟨⟨offset, offset + Text.byteLength r.text⟩, first, some second⟩

end Run

/-- A pair as it is captured. -/
def Pair.captured (a : Pair) : CapturedPair := ⟨a.raw, a⟩

/-- A tag in place as it is captured. -/
def Group.captured (g : Group) : CapturedTag :=
  ⟨g.span, g.tag.first.captured, g.tag.second.map Pair.captured⟩

/-! ## 3. The ways to match -/

/-- The text of a start of two parts is taken off part by part. -/
theorem afterStart?_append (u v s : List Char) :
    afterStart? (u ++ v) s = (afterStart? u s).bind (afterStart? v) := by
  induction u generalizing s with
  | nil => rfl
  | cons c u ih =>
    cases s with
    | nil => rfl
    | cons d s =>
      rw [List.cons_append, afterStart?, afterStart?]
      split
      · exact ih s
      · rfl

theorem filter_map_cons (c : Char) (cuts : List (List Char × List Char)) :
    (cuts.map fun cut => (c :: cut.1, cut.2)).filter (!·.1.isEmpty) =
      cuts.map fun cut => (c :: cut.1, cut.2) := by
  rw [List.filter_eq_self]
  intro cut hcut
  obtain ⟨cut, -, rfl⟩ := List.mem_map.mp hcut
  rfl

/-- The cut without a value, if there is one, is the last. -/
theorem valueCuts_eq_filter_append (s : List Char) :
    valueCuts s = (valueCuts s).filter (!·.1.isEmpty) ++
      ((afterStart? [quote] s).map fun rest => ([], rest)).toList := by
  cases s with
  | nil => rfl
  | cons c cs =>
    by_cases hc : Text.isBlank c = true
    · have hq : quote ≠ c := fun h => absurd (h ▸ hc) (by decide)
      simp [valueCuts, hc, afterStart?, hq]
    · rw [valueCuts, if_neg hc, List.filter_append, filter_map_cons]
      by_cases hq : c = quote
      · simp [hq, afterStart?]
      · simp [hq, afterStart?, Ne.symm hq]

/-- The cuts with a value are those of the value's characters that a quote follows. -/
theorem filter_valueCuts (s : List Char) :
    (valueCuts s).filter (!·.1.isEmpty) =
      (classCuts (!Text.isBlank ·) s).filterMap fun cut =>
        (afterStart? [quote] cut.2).map fun rest => (cut.1, rest) := by
  induction s with
  | nil => rfl
  | cons c cs ih =>
    rw [valueCuts, classCuts]
    by_cases hc : Text.isBlank c = true
    · simp [hc]
    · have hsolid : (!Text.isBlank c) = true := by simpa using hc
      have hends : (if c = quote then [(([] : List Char), cs)] else []).filter
          (!·.1.isEmpty) = [] := by
        split <;> rfl
      rw [if_neg hc, if_pos hsolid, List.filter_append, filter_map_cons, hends, List.append_nil,
        valueCuts_eq_filter_append, ih, List.map_append, List.map_filterMap, List.filterMap_append,
        List.filterMap_map]
      congr 1
      · congr 1
        funext cut
        simp [Option.map_map, Function.comp_def]
      · cases hq : afterStart? [quote] cs <;> simp [hq]

section

variable {α β : Type}

/-- What the readings of a text look like as ways to match: the text and the captured parts of
    what is read. -/
def asRuns (text : α → List Char) (captures : α → List (Nat × List Char))
    (readings : List (α × List Char)) : List Run :=
  readings.map fun reading => ⟨text reading.1, captures reading.1, reading.2⟩

variable {text : α → List Char} {captures : α → List (Nat × List Char)}

theorem runs_optional {p : Pattern} {read : List (α × List Char)} {s : List Char}
    (h : p.runs s = asRuns text captures read) :
    p.optional.runs s = asRuns (fun a => (a.map text).getD []) (fun a => (a.map captures).getD [])
      (read.map (fun reading => (some reading.1, reading.2)) ++ [(none, s)]) := by
  rw [Pattern.runs, h]
  simp [asRuns, Function.comp_def]

end

/-- The value of a pair and its closing quote. -/
theorem runs_value (n : Nat) (s : List Char) :
    (Pattern.seq (.capture n (.many (!Text.isBlank ·))) (.literal [quote])).runs s =
      asRuns (fun value => value ++ [quote]) (fun value => [(n, value)])
        ((valueCuts s).filter (!·.1.isEmpty)) := by
  rw [filter_valueCuts, List.filterMap_eq_flatMap_toList]
  simp only [Pattern.runs, asRuns, List.map_map, List.flatMap_map, List.map_flatMap]
  congr 1
  funext cut
  cases hq : afterStart? [quote] cut.2 <;> simp [hq, Run.followedBy]

/-- The two names, tried in the order of the schemes. -/
theorem runs_scheme (s : List Char) :
    (Pattern.either (.literal Scheme.json.name) (.literal Scheme.msgpack.name)).runs s =
      asRuns Scheme.name (fun _ => [])
        (Scheme.all.flatMap fun scheme =>
          ((afterStart? scheme.name s).map fun rest => (scheme, rest)).toList) := by
  rw [Pattern.runs, Pattern.runs, Pattern.runs, asRuns, Scheme.all]
  cases hj : afterStart? Scheme.json.name s <;>
    cases hm : afterStart? Scheme.msgpack.name s <;> simp [hj, hm]

/-- The parts that are captured of a pair, under the given number and the next two. -/
def Pair.captures (n : Nat) (a : Pair) : List (Nat × List Char) :=
  [(n, a.raw), (n + 1, a.scheme.name), (n + 2, a.value)]

theorem Pair.readings_eq (s : List Char) :
    Pair.readings s = Scheme.all.flatMap fun scheme =>
      ((((afterStart? scheme.lead s).map valueCuts).getD []).filter (!·.1.isEmpty)).map fun cut =>
        (⟨scheme, cut.1⟩, cut.2) := by
  rw [Pair.readings]
  congr 1
  funext scheme
  rw [← List.filterMap_eq_map, List.filterMap_filter]
  congr 1
  funext cut
  cases cut.1.isEmpty <;> rfl

/-- The pattern of a pair matches in the ways in which a pair is read. -/
theorem runs_pairPattern (n : Nat) (s : List Char) :
    (pairPattern n).runs s = asRuns Pair.raw (Pair.captures n) (Pair.readings s) := by
  rw [pairPattern, Pattern.runs, Pattern.runs, Pattern.runs, runs_scheme, Pair.readings_eq]
  simp only [asRuns, List.map_map, List.flatMap_map, List.map_flatMap, List.flatMap_assoc]
  congr 1
  funext scheme
  rw [Scheme.lead_eq, afterStart?_append]
  cases hname : afterStart? scheme.name s with
  | none => rfl
  | some body =>
    rw [Option.bind_some, Option.map_some, Option.toList_some, List.flatMap_singleton,
      Pattern.runs, Pattern.runs]
    dsimp only [Function.comp_apply]
    cases hmark : afterStart? [':', quote] body with
    | none => rfl
    | some value =>
      rw [Option.map_some, Option.toList_some, List.flatMap_singleton, runs_value]
      simp [asRuns, Run.followedBy, Pair.captures, Pair.raw, Scheme.lead_eq]

/-- The parts that are captured of a tag. -/
def Tag.captures (t : Tag) : List (Nat × List Char) :=
  t.first.captures 1 ++ ((t.second.map (Pair.captures 4)).getD [])

/-- The end of a tag behind its first pair. -/
theorem runs_endings (s : List Char) :
    (Pattern.seq (.optional (.one Text.isBlank))
        (.seq (.optional (pairPattern 4)) (.literal [backtick]))).runs s =
      asRuns (fun e => e.1.toList ++ ((e.2.map Pair.raw).getD []) ++ [backtick])
        (fun e => (e.2.map (Pair.captures 4)).getD []) (Tag.endings s) := by
  have gap (s : List Char) : (Pattern.optional (.one Text.isBlank)).runs s =
      asRuns Option.toList (fun _ => []) (Tag.gapReadings s) := by
    cases s with
    | nil => rfl
    | cons c cs =>
      rw [Pattern.runs, Pattern.runs, asRuns, Tag.gapReadings, Tag.blankReadings]
      by_cases hc : Text.isBlank c = true <;> simp [hc]
  have second (s : List Char) : (Pattern.optional (pairPattern 4)).runs s =
      asRuns (fun a => (a.map Pair.raw).getD []) (fun a => (a.map (Pair.captures 4)).getD [])
        (Tag.secondReadings s) := runs_optional (runs_pairPattern 4 s)
  rw [Pattern.runs, gap, Tag.endings]
  simp only [asRuns, List.flatMap_map, List.map_flatMap]
  congr 1
  funext g
  rw [Pattern.runs, second, List.filterMap_eq_flatMap_toList]
  simp only [asRuns, List.flatMap_map, List.map_flatMap]
  congr 1
  funext a
  cases hend : afterStart? [backtick] a.2 <;> simp [Pattern.runs, hend, Run.followedBy]

/-- The pattern of tags matches in the ways in which a tag is read. -/
theorem runs_tagPattern (s : List Char) :
    tagPattern.runs s = asRuns Tag.text Tag.captures (Tag.readings s) := by
  rw [tagPattern, Pattern.runs, Pattern.runs, Tag.readings]
  cases hbody : afterStart? [backtick] s with
  | none => rfl
  | some body =>
    rw [Option.map_some, Option.toList_some, List.flatMap_singleton, Pattern.runs,
      runs_pairPattern]
    simp only [asRuns, List.flatMap_map, List.map_flatMap, runs_endings]
    congr 1
    funext first
    simp [Run.followedBy, Tag.text, Tag.tail, Tag.captures]

/-! ## 4. The matches -/

theorem Run.pair?_eq_captured {r : Run} {n : Nat} {a : Pair} (hraw : r.part? n = some a.raw)
    (hname : r.part? (n + 1) = some a.scheme.name) (hvalue : r.part? (n + 2) = some a.value) :
    r.pair? n = some a.captured := by
  simp [Run.pair?, hraw, hname, hvalue, Scheme.ofName?_name, Pair.captured]

/-- Every way to match captures a tag: both schemes are known where there are two pairs. -/
theorem tag?_run (offset : Nat) (t : Tag) (rest : List Char) :
    Run.tag? offset ⟨t.text, t.captures, rest⟩ = some (Group.captured ⟨offset, t⟩) := by
  obtain ⟨first, gap, second⟩ := t
  have hspan : (⟨offset, offset + Text.byteLength (Tag.mk first gap second).text⟩ : Span) =
      Group.span ⟨offset, ⟨first, gap, second⟩⟩ := by
    rw [Tag.byteLength_text]
    rfl
  have hfirst : Run.pair? ⟨(Tag.mk first gap second).text, (Tag.mk first gap second).captures,
      rest⟩ 1 = some first.captured := Run.pair?_eq_captured rfl rfl rfl
  rw [Run.tag?, hfirst, Option.bind_some, hspan]
  cases second with
  | none => rfl
  | some second =>
    have hsecond : Run.pair? ⟨(Tag.mk first gap (some second)).text,
        (Tag.mk first gap (some second)).captures, rest⟩ 4 = some second.captured :=
      Run.pair?_eq_captured rfl rfl rfl
    rw [hsecond]
    rfl

theorem head?_runs_tagPattern (s : List Char) :
    (tagPattern.runs s).head? =
      (Tag.readings s).head?.map fun reading =>
        ⟨reading.1.text, reading.1.captures, reading.2⟩ := by
  rw [runs_tagPattern, asRuns, List.head?_map]

/-- The tags of a text are what the matches of the pattern capture, one tag for each match. -/
theorem map_tag?_matchesFrom (offset : Nat) (s : List Char) :
    (tagPattern.matchesFrom offset s).map (fun m => m.2.tag? m.1) =
      (groupsFrom offset s).map fun g => some g.captured := by
  fun_induction groupsFrom offset s with
  | case1 => rw [Pattern.matchesFrom]; rfl
  | case2 offset c cs h ih =>
    have hnone : (Tag.readings (c :: cs)).head? = none := by
      rw [Tag.starting?_eq_head?] at h
      exact Option.map_eq_none_iff.mp h
    have hruns : (tagPattern.runs (c :: cs)).head? = none := by
      rw [head?_runs_tagPattern, hnone]
      rfl
    rw [Pattern.matchesFrom, hruns]
    exact ih
  | case3 offset c cs t h ih =>
    rw [Tag.starting?_eq_head?] at h
    obtain ⟨⟨t', rest⟩, hhead, rfl⟩ := Option.map_eq_some_iff.mp h
    have hruns : (tagPattern.runs (c :: cs)).head? = some ⟨t'.text, t'.captures, rest⟩ := by
      rw [head?_runs_tagPattern, hhead]
      rfl
    rw [Pattern.matchesFrom, hruns, List.map_cons, List.map_cons, tag?_run]
    exact congrArg _ ih

end StructTags
