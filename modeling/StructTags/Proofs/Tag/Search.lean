import Mathlib.Data.List.Pairwise
import StructTags.Proofs.Tag.Layout
import StructTags.Proofs.Tag.Pattern

/-!
# What the search for tags finds

The search of `scan` is compared with the grammar and with the pattern of tags:

* `standsAt_of_mem_scan`, `extract_of_mem_scan`: where a tag is found its text stands, character by
  character and byte by byte;
* `exists_mem_scan_of_conforms`: a text of the grammar starts only inside a tag that is found;
* **`scan_leftmost`**: the tags found are the leftmost ones without overlap and nothing else, and
  none of the pattern's matches is lost.
-/

namespace StructTags

/-- The pairs of a tag: the first, and the second if there is one. -/
def Tag.pairs (t : Tag) : List Pair := t.first :: t.second.toList

theorem Tag.Valid.pairs {t : Tag} (h : t.Valid) {a : Pair} (ha : a ∈ t.pairs) : a.Valid := by
  rcases List.mem_cons.mp ha with rfl | ha
  · exact h.1
  · exact h.2.2 a (Option.mem_toList.mp ha)

theorem Pair.raw_eq_name (a : Pair) :
    a.raw = a.scheme.name ++ [':', quote] ++ a.value ++ [quote] := by
  rw [Pair.raw, Scheme.lead_eq]

section

variable {s : List Char} {g : Group}

/-- A tag that is found cuts the text in two, and is the one that is read where it stands. -/
theorem exists_cut_of_mem_scan (h : g ∈ scan s) :
    ∃ u v, s = u ++ (g.tag.text ++ v) ∧ Text.byteLength u = g.span.start ∧
      Tag.starting? (g.tag.text ++ v) = some g.tag := by
  obtain ⟨l, hread, rfl⟩ := exists_layout s
  rw [Layout.scan_text hread] at h
  exact Layout.exists_cut_of_mem_groups hread [] h

theorem standsAt_of_mem_scan (h : g ∈ scan s) : Text.StandsAt s g.span.start g.tag.text := by
  obtain ⟨u, v, hs, hu, -⟩ := exists_cut_of_mem_scan h
  exact ⟨u, v, hs, hu⟩

theorem valid_of_mem_scan (h : g ∈ scan s) : g.tag.Valid := by
  obtain ⟨u, v, -, -, hread⟩ := exists_cut_of_mem_scan h
  exact (Tag.eq_of_starting? hread).1

theorem pairwise_scan (s : List Char) :
    (scan s).Pairwise fun a b => a.span.stop ≤ b.span.start := by
  obtain ⟨l, hread, rfl⟩ := exists_layout s
  rw [Layout.scan_text hread]
  exact Layout.pairwise_groups

theorem Group.span_stop (g : Group) :
    g.span.stop = g.span.start + Text.byteLength g.tag.text := by
  rw [Tag.byteLength_text]
  rfl

theorem Group.span_start_lt_stop (g : Group) : g.span.start < g.span.stop := by
  have hlen := Text.length_le_byteLength g.tag.text
  have hpos := List.length_pos_iff.mpr g.tag.text_ne_nil
  rw [g.span_stop]
  omega

/-- Two tags that are found do not overlap. -/
theorem disjoint_of_mem_scan {h : Group} (hg : g ∈ scan s) (hh : h ∈ scan s) (hne : g ≠ h) :
    g.span.stop ≤ h.span.start ∨ h.span.stop ≤ g.span.start := by
  have hpair : (scan s).Pairwise fun a b =>
      a.span.stop ≤ b.span.start ∨ b.span.stop ≤ a.span.start := (pairwise_scan s).imp .inl
  have hsymm : Std.Symm fun a b : Group =>
      a.span.stop ≤ b.span.start ∨ b.span.stop ≤ a.span.start := ⟨fun _ _ => Or.symm⟩
  exact hpair.forall hg hh hne

/-- A tag with msgpack does not overlap one without. -/
theorem disjoint_of_hasMsgpack {h : Group} (hg : g ∈ scan s) (hh : h ∈ scan s)
    (hnone : g.tag.hasMsgpack = false) (hmsgpack : h.tag.hasMsgpack = true) :
    g.span.stop ≤ h.span.start ∨ h.span.stop ≤ g.span.start := by
  refine disjoint_of_mem_scan hg hh fun heq => ?_
  subst heq
  exact Bool.false_ne_true (hnone.symm.trans hmsgpack)

/-- The bytes of the span of a tag that is found are those of the tag as it is written. -/
theorem extract_of_mem_scan (h : g ∈ scan s) :
    (Text.encode s).extract g.span.start g.span.stop = Text.encode g.tag.text := by
  rw [g.span_stop]
  exact Text.extract_encode (standsAt_of_mem_scan h)

/-- A text of the grammar starts only inside a tag that is found. -/
theorem exists_mem_scan_of_conforms {w : List Char} {i : Nat} (hw : Conforms w)
    (h : Text.StandsAt s i w) : ∃ g ∈ scan s, g.span.start ≤ i ∧ i < g.span.stop := by
  obtain ⟨l, hread, rfl⟩ := exists_layout s
  obtain ⟨u, v, hsplit, rfl⟩ := h
  obtain ⟨g, hg, hle, hlt⟩ := Layout.exists_group_of_conforms hread hw hsplit 0
  rw [Layout.scan_text hread]
  exact ⟨g, hg, by omega, by omega⟩

end

/-- A text of the grammar that starts behind some of the tags found does not start in front of the
    next one. -/
theorem exists_head?_of_conforms {s w : List Char} {before after : List Group} {i : Nat}
    (hscan : scan s = before ++ after) (hw : Conforms w) (hstands : Text.StandsAt s i w)
    (hbefore : ∀ g ∈ before.getLast?, g.span.stop ≤ i) :
    ∃ g ∈ after.head?, g.span.start ≤ i := by
  obtain ⟨g, hg, hle, hlt⟩ := exists_mem_scan_of_conforms hw hstands
  have hspans : (scan s).map Group.span = before.map Group.span ++ after.map Group.span := by
    rw [hscan, List.map_append]
  have hpair : ((scan s).map Group.span).Pairwise fun a b => a.stop ≤ b.start :=
    List.pairwise_map.mpr (pairwise_scan s)
  have hpos : ∀ o ∈ (scan s).map Group.span, o.start < o.stop :=
    List.forall_mem_map.mpr fun g _ => g.span_start_lt_stop
  have hmem := List.mem_map_of_mem (f := Group.span) hg
  rw [hspans] at hpair hpos hmem
  obtain ⟨o, ho, hstart⟩ := Text.exists_head?_of_mem hpair hpos hmem hle hlt fun o ho => by
    rw [List.getLast?_map] at ho
    obtain ⟨g', hg', rfl⟩ := Option.map_eq_some_iff.mp ho
    exact hbefore g' hg'
  rw [List.head?_map] at ho
  obtain ⟨next, hnext, rfl⟩ := Option.map_eq_some_iff.mp ho
  exact ⟨next, hnext, hstart⟩

/-- **The search finds the leftmost tags without overlap, and nothing else.** The tags found are
    what the matches of the pattern capture, one for each match; their spans are in order, disjoint
    and between characters of the text; the bytes of a span are those of the tag; and no text of
    the grammar starts behind a tag and before the next one. -/
theorem scan_leftmost (s : List Char) :
    (tagPattern.matchesFrom 0 s).map (fun m => m.2.tag? m.1) =
        (scan s).map (fun g => some g.captured) ∧
      (scan s).Pairwise (fun a b => a.span.stop ≤ b.span.start) ∧
      (∀ g ∈ scan s, g.span.start < g.span.stop ∧ g.span.stop ≤ Text.byteLength s ∧
        Text.Boundary s g.span.start ∧ Text.Boundary s g.span.stop) ∧
      (∀ g ∈ scan s,
        (Text.encode s).extract g.span.start g.span.stop =
            Text.encode ([backtick] ++ g.tag.first.raw ++ g.tag.gap.toList ++
              (g.tag.second.map Pair.raw).getD [] ++ [backtick]) ∧
          (∀ c ∈ g.tag.gap, Text.isBlank c = true) ∧
          ∀ a ∈ g.tag.pairs,
            a.raw = a.scheme.name ++ [':', quote] ++ a.value ++ [quote] ∧
              a.value ≠ [] ∧ ∀ c ∈ a.value, Text.isBlank c = false) ∧
      ∀ before after, scan s = before ++ after → ∀ w i, Conforms w → Text.StandsAt s i w →
        (∀ g ∈ before.getLast?, g.span.stop ≤ i) → ∃ g ∈ after.head?, g.span.start ≤ i := by
  refine ⟨?_, pairwise_scan s, fun g hg => ?_, fun g hg => ?_, ?_⟩
  · rw [scan_eq]
    exact map_tag?_matchesFrom 0 s
  · have hstands := standsAt_of_mem_scan hg
    have hstop := hstands.boundary_stop
    have hle := hstands.stop_le
    rw [← g.span_stop] at hstop hle
    exact ⟨g.span_start_lt_stop, hle, hstands.boundary_start, hstop⟩
  · have hvalid := valid_of_mem_scan hg
    refine ⟨?_, hvalid.2.1, fun a ha => ⟨a.raw_eq_name, hvalid.pairs ha⟩⟩
    rw [extract_of_mem_scan hg, Tag.text, Tag.tail]
    simp
  · intro before after hscan w i hw hstands hbefore
    exact exists_head?_of_conforms hscan hw hstands hbefore

end StructTags
