import Mathlib.Data.List.MinMax
import Mathlib.Order.Bounds.Defs
import StructTags.Proofs.Tag.Greedy
import StructTags.Proofs.Tag.Search

/-!
# The tag that is read is the longest one

Which tag is read where several start is a matter of preference, part by part. This file says that
a search for the longest tag comes to the same:

* `Pair.raw_append_cases`: how two pairs lie that stand at the start of one text;
* `Tag.Valid.exists_spaced`: a second pair that is attached can as well be the end of the first;
* **`Tag.length_text_le`**: no tag at the start of a text is longer than the one that is read;
* `Pattern.longestFrom`: the leftmost matches of a text without overlap, each as long as possible;
* **`scan_longest`**: these are the matches by preference, and each span is as long as it can be.
-/

namespace StructTags

/-! ## 1. Pairs at the start of one text -/

/-- Two pairs at the start of one text have the same value, or the value of one reaches over the
    closing quote of the other. -/
theorem Pair.raw_append_cases {a b : Pair} {x y : List Char} (h : a.raw ++ x = b.raw ++ y) :
    a.scheme = b.scheme ∧ ((a.value = b.value ∧ x = y) ∨
      (∃ z, b.value = a.value ++ quote :: z ∧ x = z ++ quote :: y) ∨
      ∃ z, a.value = b.value ++ quote :: z ∧ y = z ++ quote :: x) := by
  have shape (p : Pair) (r : List Char) :
      p.raw ++ r = p.scheme.lead ++ (p.value ++ quote :: r) := by simp [raw]
  rw [shape, shape] at h
  have hscheme : b.scheme = a.scheme := by
    have hstart := afterStart?_lead a.scheme b.scheme (a.value ++ quote :: x)
    rw [h, afterStart?_eq_some_iff.mpr rfl] at hstart
    by_contra hne
    rw [if_neg hne] at hstart
    cases hstart
  rw [hscheme] at h
  refine ⟨hscheme.symm, ?_⟩
  rcases List.append_eq_append_iff.mp (List.append_cancel_left h) with ⟨w, hb, hw⟩ | ⟨w, ha, hw⟩
  · cases w with
    | nil => exact .inl ⟨by rw [hb, List.append_nil], (List.cons.inj hw).2⟩
    | cons d w =>
      obtain ⟨rfl, hx⟩ := List.cons.inj hw
      exact .inr (.inl ⟨w, hb, hx⟩)
  · cases w with
    | nil => exact .inl ⟨by rw [ha, List.append_nil], (List.cons.inj hw).2.symm⟩
    | cons d w =>
      obtain ⟨rfl, hy⟩ := List.cons.inj hw
      exact .inr (.inr ⟨w, ha, hy⟩)

namespace Tag

/-! ## 2. Tags at the start of one text -/

/-- A second pair that is attached can as well be read as the end of the first value. -/
theorem Valid.exists_spaced {t : Tag} (h : t.Valid) :
    ∃ u : Tag, u.Valid ∧ (u.gap = none → u.second = none) ∧ u.text = t.text := by
  obtain ⟨⟨scheme, value⟩, gap, second⟩ := t
  cases gap with
  | some b => exact ⟨_, h, fun hgap => (Option.some_ne_none b hgap).elim, rfl⟩
  | none =>
    cases second with
    | none => exact ⟨_, h, fun _ => rfl, rfl⟩
    | some a =>
      have hsolid : Text.Solid (value ++ quote :: (a.scheme.lead ++ a.value)) :=
        Text.solid_append.mpr ⟨h.1.2, Text.solid_cons.mpr ⟨isBlank_quote,
          Text.solid_append.mpr ⟨a.scheme.solid_lead, (h.2.2 a rfl).2⟩⟩⟩
      refine ⟨⟨⟨scheme, value ++ quote :: (a.scheme.lead ++ a.value)⟩, none, none⟩,
        valid_single ⟨by simp, hsolid⟩, fun _ => rfl, ?_⟩
      simp [text, tail, Pair.raw]

/-- No pair that stands before a backtick is longer than the second pair that is read. -/
theorem length_raw_le_of_second? {a b : Pair} {rest : List Char} (valid : a.Valid)
    (h : second? (a.raw ++ backtick :: rest) = some (some b)) : a.raw.length ≤ b.raw.length := by
  obtain ⟨hb, rest', hsplit⟩ := eq_of_second? h
  rw [hsplit, second?_raw_append_iff hb] at h
  obtain ⟨hscheme, hsame | ⟨z, hvalue, hrest⟩ | ⟨z, hvalue, -⟩⟩ := Pair.raw_append_cases hsplit.symm
  · rw [Pair.length_raw, Pair.length_raw, Pair.length, Pair.length, hscheme, hsame.1]
  · -- the value could be closed later, at the end of the other pair
    have hsolid := valid.2
    rw [hvalue] at hsolid
    exact absurd ⟨z, rest, hrest, (Text.solid_cons.mp (Text.solid_append.mp hsolid).2).2⟩ h
  · rw [Pair.length_raw, Pair.length_raw, Pair.length, Pair.length, hscheme, hvalue,
      List.length_append]
    omega

variable {t u : Tag} {s rest : List Char}

/-- What can end a tag behind its first pair is no longer than what is read as its end. -/
theorem length_tail_le (h : ending? (u.tail ++ backtick :: rest) = some (t.gap, t.second))
    (hu : u.Valid) (hspaced : u.gap = none → u.second = none) : u.tail.length ≤ t.tail.length := by
  obtain ⟨first, gap, second⟩ := u
  cases gap with
  | none =>
    obtain rfl : second = none := hspaced rfl
    exact Nat.zero_le _
  | some b =>
    have hblank : ending? (b :: ((second.map Pair.raw).getD [] ++ backtick :: rest)) =
        some (t.gap, t.second) := h
    rw [ending?_blank (hu.2.1 b rfl)] at hblank
    obtain ⟨read, hread, heq⟩ := Option.map_eq_some_iff.mp hblank
    obtain ⟨hgap, rfl⟩ := Prod.mk.inj heq
    rw [tail, tail, ← hgap, List.length_append, List.length_append]
    refine Nat.add_le_add_left ?_ _
    cases second with
    | none => exact Nat.zero_le _
    | some a =>
      obtain ⟨c, hc⟩ := exists_second?_eq_some (hu.2.2 a rfl) rest
      have hpair : some (some c) = some t.second := hc.symm.trans hread
      rw [← Option.some.inj hpair]
      exact length_raw_le_of_second? (hu.2.2 a rfl) hc

/-- What can follow the first pair of a tag ends it. -/
theorem ending?_tail_isSome (hu : u.Valid) (hspaced : u.gap = none → u.second = none)
    (rest : List Char) : (ending? (u.tail ++ backtick :: rest)).isSome := by
  obtain ⟨first, gap, second⟩ := u
  cases gap with
  | none =>
    obtain rfl : second = none := hspaced rfl
    rfl
  | some b =>
    exact ending?_isSome_iff.mpr (.inr ⟨b, second, rest, hu.2.1 b rfl, hu.2.2, by simp [tail]⟩)

theorem text_append_eq (t : Tag) (rest : List Char) :
    t.text ++ rest = backtick :: (t.first.raw ++ (t.tail ++ backtick :: rest)) := by
  simp [text]

theorem length_text_eq (t : Tag) : t.text.length = t.first.length + t.tail.length + 2 := by
  simp [text, Pair.length_raw, Nat.add_assoc]

/-- **No tag that stands at the start of a text is longer than the one that is read there.** -/
theorem length_text_le (h : starting? s = some t) (hu : u.Valid) (hs : s = u.text ++ rest) :
    u.text.length ≤ t.text.length := by
  obtain ⟨u, hu, hspaced, htext⟩ := hu.exists_spaced
  rw [← htext] at hs ⊢
  obtain ⟨ht, rest', hs'⟩ := eq_of_starting? h
  have hsplit := hs'.symm.trans hs
  rw [text_append_eq, text_append_eq] at hsplit
  rw [hs', text_append_eq, starting?_raw_append_iff ht.1] at h
  obtain ⟨hend, hno⟩ := h
  rw [length_text_eq, length_text_eq, Pair.length, Pair.length]
  obtain ⟨hscheme, hcases⟩ := Pair.raw_append_cases (List.cons.inj hsplit).2
  rw [hscheme]
  rcases hcases with ⟨hvalue, htails⟩ | ⟨z, hvalue, htails⟩ | ⟨z, hvalue, htails⟩
  · rw [htails] at hend
    have := length_tail_le hend hu hspaced
    rw [hvalue]
    omega
  · -- the first value could be continued up to the end of the other one
    have hsolid := hu.1.2
    rw [hvalue] at hsolid
    exact absurd ⟨z, _, htails, (Text.solid_cons.mp (Text.solid_append.mp hsolid).2).2,
      ending?_tail_isSome hu hspaced rest⟩ hno
  · -- the other pair ends inside the first value, where there is no blank
    rw [hvalue, List.length_append, List.length_cons]
    have hsolid := ht.1.2
    rw [hvalue] at hsolid
    have hquoted : Text.Solid (z ++ [quote]) :=
      (Text.solid_cons.mp (Text.solid_append.mp hsolid).2).2.concat isBlank_quote
    cases hgap : u.gap with
    | none =>
      have hnil : u.tail = [] := by rw [tail, hgap, hspaced hgap]; rfl
      rw [hnil, List.length_nil]
      omega
    | some b =>
      rw [tail, hgap, List.append_cons z] at htails
      have := Text.isBlank_of_cons_eq_append hquoted (by simp) htails
      exact absurd (this.symm.trans (hu.2.1 b hgap)) Bool.false_ne_true

end Tag

/-! ## 3. The longest match -/

/-- The leftmost matches of a text that stands at a byte offset, each of them as long as possible
    and the preferred one of that length. The search goes on behind each match. -/
def Pattern.longestFrom (p : Pattern) (offset : Nat) : List Char → List (Nat × Run)
  | [] => []
  | c :: cs =>
    match (p.runs (c :: cs)).argmax (·.text.length) with
    | none => p.longestFrom (offset + c.utf8Size) cs
    | some r =>
      (offset, r) :: p.longestFrom (offset + Text.byteLength r.text) (cs.drop (r.text.length - 1))
termination_by s => s.length

/-- The first of some values is the greatest if none behind it is greater. -/
theorem argmax_eq_head? {α : Type} {f : α → Nat} {l : List α}
    (h : ∀ a ∈ l.head?, ∀ b ∈ l, f b ≤ f a) : l.argmax f = l.head? := by
  cases l with
  | nil => rfl
  | cons a l =>
    rw [List.argmax_cons, List.head?_cons]
    cases hl : l.argmax f with
    | none => rfl
    | some b =>
      have hle := h a rfl b (List.mem_cons_of_mem a (List.argmax_mem hl))
      exact if_neg (Nat.not_lt.mpr hle)

/-- The preferred way in which the pattern of tags matches is the longest. -/
theorem argmax_runs_tagPattern (s : List Char) :
    (tagPattern.runs s).argmax (·.text.length) = (tagPattern.runs s).head? := by
  refine argmax_eq_head? fun r hr r' hr' => ?_
  rw [head?_runs_tagPattern] at hr
  obtain ⟨⟨t, rest⟩, hhead, rfl⟩ := Option.map_eq_some_iff.mp hr
  rw [runs_tagPattern] at hr'
  obtain ⟨⟨u, rest'⟩, hmem, rfl⟩ := List.mem_map.mp hr'
  obtain ⟨hs, hu⟩ := Tag.mem_readings.mp hmem
  have hread : Tag.starting? s = some t := by rw [Tag.starting?_eq_head?, hhead]; rfl
  exact Tag.length_text_le hread hu hs

/-- The search for the longest tags finds the same matches as the search by preference. -/
theorem longestFrom_tagPattern (offset : Nat) (s : List Char) :
    tagPattern.longestFrom offset s = tagPattern.matchesFrom offset s := by
  fun_induction Pattern.matchesFrom tagPattern offset s with
  | case1 => rw [Pattern.longestFrom]
  | case2 offset c cs h ih => rw [Pattern.longestFrom, argmax_runs_tagPattern, h, ← ih]
  | case3 offset c cs r h ih => rw [Pattern.longestFrom, argmax_runs_tagPattern, h, ← ih]

/-- A tag that is found is the longest one that starts where it does. -/
theorem byteLength_le_of_mem_scan {s w : List Char} {g : Group} (hg : g ∈ scan s)
    (hw : Conforms w) (hstands : Text.StandsAt s g.span.start w) :
    g.span.start + Text.byteLength w ≤ g.span.stop := by
  obtain ⟨u, v, hs, hu, hread⟩ := exists_cut_of_mem_scan hg
  obtain ⟨u', v', hs', hu'⟩ := hstands
  obtain ⟨t, ht, rfl⟩ := hw
  obtain ⟨x, rfl, hx⟩ := Text.exists_append_of_byteLength_le (hs.symm.trans hs') (by omega)
  rw [Text.byteLength_append] at hu'
  obtain rfl : x = [] := Text.eq_nil_of_byteLength_eq_zero (by omega)
  have hlen := Tag.length_text_le hread ht hx
  have hprefix : t.text <+: g.tag.text :=
    List.prefix_of_prefix_length_le ⟨v', hx.symm⟩ (List.prefix_append _ v) hlen
  obtain ⟨y, hy⟩ := hprefix
  rw [g.span_stop, ← hy, Text.byteLength_append]
  omega

/-- A tag that is found has a blank in front of its second pair. -/
theorem exists_gap_of_mem_scan {s : List Char} {g : Group} (hg : g ∈ scan s) {a : Pair}
    (ha : g.tag.second = some a) : ∃ c, g.tag.gap = some c ∧ Text.isBlank c = true := by
  obtain ⟨u, v, -, -, hread⟩ := exists_cut_of_mem_scan hg
  have valid := valid_of_mem_scan hg
  rw [Tag.starting?_text_append_iff valid, Tag.Maximal, ha] at hread
  cases hgap : g.tag.gap with
  | none => rw [hgap] at hread; exact hread.elim
  | some c => exact ⟨c, rfl, valid.2.1 c hgap⟩

/-- **The tags found are the longest ones.** A search that takes the longest match wherever one
    starts finds the same matches as the search by preference. The span of a tag that is found is
    the longest of all the texts of the grammar that stand where it starts; its second pair, if it
    has one, stands behind the first with exactly one blank between them; and a span without blanks
    has no second pair. -/
theorem scan_longest (s : List Char) :
    tagPattern.longestFrom 0 s = tagPattern.matchesFrom 0 s ∧
      (∀ g ∈ scan s, IsGreatest {stop | ∃ w, Conforms w ∧ Text.StandsAt s g.span.start w ∧
        stop = g.span.start + Text.byteLength w} g.span.stop) ∧
      (∀ g ∈ scan s, ∀ a ∈ g.tag.second, ∃ c, Text.isBlank c = true ∧
        (Text.encode s).extract g.span.start g.span.stop =
          Text.encode ([backtick] ++ g.tag.first.raw ++ [c] ++ a.raw ++ [backtick])) ∧
      ∀ g ∈ scan s, ∀ w, (Text.encode s).extract g.span.start g.span.stop = Text.encode w →
        (∀ c ∈ w, Text.isBlank c = false) → g.tag.second = none := by
  refine ⟨longestFrom_tagPattern 0 s, fun g hg => ⟨?_, ?_⟩, fun g hg a ha => ?_,
    fun g hg w hw hsolid => ?_⟩
  · exact ⟨g.tag.text, ⟨g.tag, valid_of_mem_scan hg, rfl⟩, standsAt_of_mem_scan hg, g.span_stop⟩
  · rintro _ ⟨w, hw, hstands, rfl⟩
    exact byteLength_le_of_mem_scan hg hw hstands
  · obtain ⟨c, hgap, hc⟩ := exists_gap_of_mem_scan hg ha
    refine ⟨c, hc, ?_⟩
    rw [extract_of_mem_scan hg, Tag.text, Tag.tail, hgap, Option.mem_def.mp ha]
    simp
  · rw [extract_of_mem_scan hg, Text.encode_inj] at hw
    cases hsecond : g.tag.second with
    | none => rfl
    | some a =>
      obtain ⟨c, hgap, hc⟩ := exists_gap_of_mem_scan hg hsecond
      have hmem : c ∈ w := by
        rw [← hw, Tag.text, Tag.tail, hgap]
        simp
      exact absurd ((hsolid c hmem).symm.trans hc) Bool.false_ne_true

end StructTags
