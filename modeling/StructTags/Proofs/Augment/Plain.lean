import StructTags.Proofs.Augment.Step
import StructTags.Proofs.Tag.Search

/-!
# Plain texts

A text is plain if each of its tags without msgpack holds one pair and nothing else, with neither
quotes nor backticks in the value. Augmenting finds the same tags in such a text again and again:

* `Tag.Plain`, `Plain`: plain tags and texts;
* `insertAfter_tag`: the segment is put in behind the pair of the tags that it is meant for, and
  inside no other tag;
* **`Augmentation.scan_step`**: after a step the tags are where they were carried, and those that
  the step was meant for have their msgpack pair;
* **`scan_augment`**: so in the end all tags have msgpack, and stand where they were carried.
-/

namespace StructTags

/-! ## 1. Plain tags -/

namespace Tag

/-- A tag is plain if it has msgpack, or else holds one pair and nothing else, with neither quotes
    nor backticks in the value. -/
def Plain (t : Tag) : Prop :=
  t.hasMsgpack = false →
    t.gap = none ∧ t.second = none ∧ quote ∉ t.first.value ∧ backtick ∉ t.first.value

instance (t : Tag) : Decidable t.Plain := inferInstanceAs (Decidable (_ → _))

theorem scheme_of_hasMsgpack {t : Tag} (h : t.hasMsgpack = false) : t.first.scheme = .json := by
  cases hscheme : t.first.scheme with
  | json => rfl
  | msgpack =>
    rw [hasMsgpack, hscheme] at h
    cases h

theorem augmented_inj {t u : Tag} (ht : t.hasMsgpack = false) (hu : u.hasMsgpack = false)
    (h : t.augmented = u.augmented) : t.first = u.first := by
  obtain ⟨⟨scheme, v⟩, gap, second⟩ := t
  obtain ⟨⟨scheme', v'⟩, gap', second'⟩ := u
  obtain rfl : scheme = .json := scheme_of_hasMsgpack ht
  obtain rfl : scheme' = .json := scheme_of_hasMsgpack hu
  -- the value stands there twice, so both values have the same length
  have hlen := congrArg List.length h
  simp only [augmented, segment, Pair.raw, List.length_append, List.length_cons] at hlen
  simp only [augmented, Pair.raw, List.append_assoc] at h
  have hvalue := (List.append_inj (List.append_cancel_left h) (by omega)).1
  exact congrArg (Pair.mk .json) hvalue

/-- A tag without msgpack whose first pair is the given one gets a msgpack pair. -/
def grow (p : Pair) (t : Tag) : Tag :=
  if t.hasMsgpack = false ∧ t.first = p then t.withMsgpack else t

theorem hasMsgpack_withMsgpack (t : Tag) : t.withMsgpack.hasMsgpack = true := by
  simp [withMsgpack, hasMsgpack]

theorem grow_of_hasMsgpack {t : Tag} (h : t.hasMsgpack = true) (p : Pair) : t.grow p = t :=
  if_neg fun hgrow => Bool.false_ne_true (hgrow.1.symm.trans h)

theorem Plain.grow {t : Tag} (h : t.Plain) (p : Pair) : (t.grow p).Plain := by
  unfold Tag.grow
  split
  · intro hmsgpack
    rw [hasMsgpack_withMsgpack] at hmsgpack
    cases hmsgpack
  · exact h

end Tag

/-- A text is plain if its tags are. -/
def Plain (s : List Char) : Prop := ∀ g ∈ scan s, g.tag.Plain

instance (s : List Char) : Decidable (Plain s) := inferInstanceAs (Decidable (∀ g ∈ scan s, _))

namespace Pair

theorem backtick_notMem_raw {a : Pair} (h : backtick ∉ a.value) : backtick ∉ a.raw := by
  have hlead : backtick ∉ a.scheme.lead := by cases a.scheme <;> decide
  have hquote : backtick ∉ [quote] := by decide
  simp only [raw, List.mem_append]
  exact fun hmem => hmem.elim (fun hmem => hmem.elim hlead h) hquote

/-- In a pair without further quotes no other pair of its scheme stands. -/
theorem eq_of_raw_eq_append {a b : Pair} {u v : List Char} (ha : quote ∉ a.value)
    (hb : quote ∉ b.value) (hscheme : a.scheme = b.scheme) (h : a.raw = u ++ (b.raw ++ v)) :
    u = [] ∧ v = [] ∧ a = b := by
  obtain ⟨scheme, va⟩ := a
  obtain ⟨scheme', vb⟩ := b
  obtain rfl : scheme = scheme' := hscheme
  have hname : quote ∉ scheme.name ++ [':'] := by cases scheme <;> decide
  have hleft (value : List Char) : (Pair.mk scheme value).raw =
      (scheme.name ++ [':']) ++ quote :: (value ++ [quote]) := by
    simp [raw, Scheme.lead_eq]
  -- each side has two quotes, so none are in `u` and `v`
  have hcount := congrArg (List.count quote) h
  rw [hleft, hleft] at hcount
  simp only [List.count_append, List.count_cons_self, List.count_nil,
    List.count_eq_zero_of_not_mem hname, List.count_eq_zero_of_not_mem ha,
    List.count_eq_zero_of_not_mem hb] at hcount
  have hu : quote ∉ u := List.count_eq_zero.mp (by omega)
  have hfront : quote ∉ u ++ (scheme.name ++ [':']) := fun hmem =>
    (List.mem_append.mp hmem).elim hu hname
  have hquotes : (scheme.name ++ [':']) ++ quote :: (va ++ [quote]) =
      (u ++ (scheme.name ++ [':'])) ++ quote :: (vb ++ quote :: v) := by
    rw [← hleft, h, hleft]
    simp
  obtain ⟨hname', hrest⟩ := Text.append_cons_inj hname hfront hquotes
  obtain ⟨hvalue, hv⟩ := Text.append_cons_inj ha hb hrest
  exact ⟨List.self_eq_append_left.mp hname', hv.symm, congrArg (Pair.mk scheme) hvalue⟩

end Pair

/-! ## 2. Sites in tags -/

section

variable {s : List Char} {g : Group}

/-- A tag with msgpack has no site inside or right behind it. -/
theorem site_of_hasMsgpack {needle : List Char} (hg : g ∈ scan s) (h : g.tag.hasMsgpack = true)
    {e : Nat} (he : e ∈ (exposed needle s).map Span.stop) :
    e ≤ g.span.start ∨ g.span.stop < e := by
  obtain ⟨o, ho, rfl⟩ := List.mem_map.mp he
  obtain ⟨hocc, hfree⟩ := mem_exposed_iff.mp ho
  have hstop := (standsAt_of_mem_exposed ho).2
  have hpos := byteLength_pos (ne_nil_of_mem_occurrencesFrom hocc)
  have := overlaps_eq_false_iff.mp (hfree g hg h)
  omega

variable {p : Pair}

theorem standsAt_raw_of_mem_scan (hg : g ∈ scan s) :
    Text.StandsAt s (g.span.start + 1) g.tag.first.raw :=
  (standsAt_of_mem_scan hg).trans ⟨[backtick], g.tag.tail ++ [backtick], by simp [Tag.text], rfl⟩

/-- A tag of one pair stops one byte behind this pair. -/
theorem span_stop_of_single (hgap : g.tag.gap = none) (hsecond : g.tag.second = none) :
    g.span.stop = g.span.start + 1 + Text.byteLength g.tag.first.raw + 1 := by
  rw [g.span_stop, Tag.text_of_single hgap hsecond, Text.byteLength_append, Text.byteLength_cons]
  show g.span.start + (1 + _ + 1) = _
  omega

/-- An occurrence without backticks that stops in a tag stands between its backticks. -/
theorem between_backticks (hp : backtick ∉ p.value) (hg : g ∈ scan s) {i : Nat}
    (h : Text.StandsAt s i p.raw) (hlt : g.span.start < i + Text.byteLength p.raw)
    (hle : i + Text.byteLength p.raw ≤ g.span.stop) :
    g.span.start + 1 ≤ i ∧ i + Text.byteLength p.raw + 1 ≤ g.span.stop := by
  have hp' := Pair.backtick_notMem_raw hp
  have hone : backtick.utf8Size = 1 := rfl
  have hpos := byteLength_pos p.raw_ne_nil
  have htext : g.tag.text = (backtick :: (g.tag.first.raw ++ g.tag.tail)) ++ [backtick] := rfl
  have hsize : Text.byteLength g.tag.text =
      Text.byteLength (backtick :: (g.tag.first.raw ++ g.tag.tail)) + 1 := by
    rw [htext, Text.byteLength_append]
    rfl
  have hstands := standsAt_of_mem_scan hg
  have hopen := hstands.trans (x := [backtick]) (j := 0) ⟨[], _, rfl, rfl⟩
  have hclose := hstands.trans (x := [backtick]) ⟨_, [], htext, rfl⟩
  have hopen' := h.disjoint hopen hp'
  have hclose' := h.disjoint hclose hp'
  rw [g.span_stop, hsize] at hle ⊢
  omega

/-- Behind the pair that the step is for there is a site. -/
theorem exists_site_of_first (hp : backtick ∉ p.value) (hg : g ∈ scan s)
    (h : g.tag.hasMsgpack = false) (hplain : g.tag.Plain) (hfirst : g.tag.first = p) :
    ∃ e ∈ (exposed p.raw s).map Span.stop, e + 1 = g.span.stop := by
  obtain ⟨hgap, hsecond, -, -⟩ := hplain h
  have hsize := span_stop_of_single hgap hsecond
  have hstands := standsAt_raw_of_mem_scan hg
  rw [hfirst] at hsize hstands
  obtain ⟨o, ho, hle, hlt⟩ := exists_occurrence_of_standsAt p.raw_ne_nil 0 hstands
  obtain ⟨hocc, hstop⟩ := standsAt_of_mem_occurrencesFrom [] ho
  have hbetween := between_backticks hp hg hocc (by omega) (by omega)
  refine ⟨o.stop, List.mem_map_of_mem (mem_exposed_iff.mpr ⟨ho, fun g' hg' h' => ?_⟩), by omega⟩
  have := disjoint_of_hasMsgpack hg hg' h h'
  exact overlaps_eq_false_iff.mpr (by omega)

variable (hquote : quote ∉ p.value) (hbacktick : backtick ∉ p.value)

include hquote hbacktick

/-- The only site in a plain tag without msgpack is the one right behind its pair, and only if it is
    the pair that the step is for. -/
theorem site_of_plain (hg : g ∈ scan s) (h : g.tag.hasMsgpack = false) (hplain : g.tag.Plain)
    (hjson : p.scheme = .json) {e : Nat} (he : e ∈ (exposed p.raw s).map Span.stop) :
    e ≤ g.span.start ∨ g.span.stop < e ∨ (g.tag.first = p ∧ e + 1 = g.span.stop) := by
  obtain ⟨o, ho, rfl⟩ := List.mem_map.mp he
  obtain ⟨hstands, hstop⟩ := standsAt_of_mem_exposed ho
  by_cases hlt : g.span.start < o.stop
  · by_cases hle : o.stop ≤ g.span.stop
    · rw [hstop] at hlt hle ⊢
      obtain ⟨hstart', hstop'⟩ := between_backticks hbacktick hg hstands hlt hle
      obtain ⟨hgap, hsecond, hquote', -⟩ := hplain h
      have hsize := span_stop_of_single hgap hsecond
      obtain ⟨u, v, hraw, hi⟩ :=
        (standsAt_raw_of_mem_scan hg).inner hstands hstart' (by omega)
      have hscheme : g.tag.first.scheme = p.scheme := (Tag.scheme_of_hasMsgpack h).trans hjson.symm
      obtain ⟨rfl, -, hfirst⟩ := Pair.eq_of_raw_eq_append hquote' hquote hscheme hraw
      rw [Text.byteLength_nil] at hi
      rw [hfirst] at hsize
      exact .inr (.inr ⟨hfirst, by omega⟩)
    · exact .inr (.inl (by omega))
  · exact .inl (by omega)

/-- A tag of one pair gets its segment behind the pair, and nothing else. -/
theorem insertAfter_single (hplain : Plain s) (hg : g ∈ scan s) (h : g.tag.hasMsgpack = false)
    (hfirst : g.tag.first = p) (hjson : p.scheme = .json) :
    insertAfter (segment p.value) ((exposed p.raw s).map Span.stop) g.span.start g.tag.text =
      g.tag.withMsgpack.text := by
  subst hfirst
  obtain ⟨hgap, hsecond, -, -⟩ := hplain g hg h
  obtain ⟨e, he, hlast⟩ := exists_site_of_first hbacktick hg h (hplain g hg) rfl
  have hsites {e' : Nat} (he' : e' ∈ (exposed g.tag.first.raw s).map Span.stop) :=
    site_of_plain hquote hbacktick hg h (hplain g hg) hjson he'
  have hsize := span_stop_of_single hgap hsecond
  have hfront : Text.byteLength (backtick :: g.tag.first.raw) =
      1 + Text.byteLength g.tag.first.raw := rfl
  have hback : Text.byteLength [backtick] = 1 := rfl
  -- the site is behind the pair, and so neither inside what is in front of it nor further behind
  have hpair := insertAfter_of_no_site (segment g.tag.first.value) g.span.start
    (List.cons_ne_nil backtick g.tag.first.raw) fun e' he' => by
      have := hsites he'
      omega
  have hclose := insertAfter_eq_self (segment g.tag.first.value)
    (g.span.start + Text.byteLength (backtick :: g.tag.first.raw)) (w := [backtick])
    fun e' he' => by
      have := hsites he'
      omega
  have hin : g.span.start + Text.byteLength (backtick :: g.tag.first.raw) ∈
      (exposed g.tag.first.raw s).map Span.stop := by
    have heq : g.span.start + Text.byteLength (backtick :: g.tag.first.raw) = e := by omega
    rw [heq]
    exact he
  rw [Tag.text_of_single hgap hsecond, Tag.text_withMsgpack, insertAfter_append, hpair, hclose,
    if_pos hin, List.append_assoc]

/-- **In a plain text the segment is put in behind the pairs that it is meant for**, and inside no
    other tag. -/
theorem insertAfter_tag (hplain : Plain s) (hg : g ∈ scan s) (hjson : p.scheme = .json) :
    insertAfter (segment p.value) ((exposed p.raw s).map Span.stop) g.span.start g.tag.text =
      (g.tag.grow p).text := by
  by_cases hgrow : g.tag.hasMsgpack = false ∧ g.tag.first = p
  · rw [Tag.grow, if_pos hgrow]
    exact insertAfter_single hquote hbacktick hplain hg hgrow.1 hgrow.2 hjson
  · rw [Tag.grow, if_neg hgrow]
    refine insertAfter_eq_self _ _ fun e he => ?_
    rw [← g.span_stop]
    cases h : g.tag.hasMsgpack with
    | true => exact site_of_hasMsgpack hg h he
    | false =>
      rcases site_of_plain hquote hbacktick hg h (hplain g hg) hjson he with hle | hlt | hfirst
      · exact .inl hle
      · exact .inr hlt
      · exact absurd ⟨h, hfirst.1⟩ hgrow

end

/-! ## 3. One step -/

theorem grown_insertAfter (value : List Char) (sites : List Nat) (offset : Nat) (s : List Char) :
    Grown value s (insertAfter (segment value) sites offset s) := by
  induction s generalizing offset with
  | nil => exact .nil
  | cons c s ih =>
    rw [insertAfter]
    split
    · exact .cons c (.put (ih _))
    · exact .cons c (ih _)

namespace Layout

/-- The layout with the segment put in at the sites in its stretches, and with its tags changed. -/
def insert (value : List Char) (sites : List Nat) (change : Tag → Tag) (offset : Nat) :
    Layout → Layout
  | done last => done (insertAfter (segment value) sites offset last)
  | tag front t rest =>
    tag (insertAfter (segment value) sites offset front) (change t)
      (rest.insert value sites change (offset + Text.byteLength front + t.size))

section

variable {value : List Char} {sites : List Nat} {change : Tag → Tag}

theorem text_insert {l : Layout} {offset : Nat}
    (h : ∀ g ∈ l.groups offset,
      insertAfter (segment value) sites g.span.start g.tag.text = (change g.tag).text) :
    (l.insert value sites change offset).text =
      insertAfter (segment value) sites offset l.text := by
  induction l generalizing offset with
  | done last => rfl
  | tag front t rest ih =>
    obtain ⟨htag, hrest⟩ := List.forall_mem_cons.mp h
    have htag : insertAfter (segment value) sites (offset + Text.byteLength front) t.text =
      (change t).text := htag
    rw [insert, text, text, insertAfter_append, insertAfter_append, htag, ih hrest,
      Tag.byteLength_text]

theorem grows_insert {l : Layout}
    (h : ∀ t ∈ l.tags, change t = t ∨
      (t.gap = none ∧ t.second = none ∧ t.first.value = value ∧ change t = t.withMsgpack))
    (offset : Nat) : Grows value l (l.insert value sites change offset) := by
  induction l generalizing offset with
  | done last => exact .done (grown_insertAfter value sites offset last)
  | tag front t rest ih =>
    obtain ⟨htag, hrest⟩ := List.forall_mem_cons.mp h
    have hfront := grown_insertAfter value sites offset front
    rw [insert]
    rcases htag with hsame | ⟨hgap, hsecond, hvalue, hnew⟩
    · rw [hsame]
      exact .keep t hfront (ih hrest _)
    · rw [hnew]
      exact .pair t hfront hgap hsecond hvalue (ih hrest _)

/-- The tags stand where their offsets are carried. -/
theorem groups_insert {l : Layout} {s w : List Char} {carry : Nat → Nat} (hs : s = w ++ l.text)
    (hcarry : ∀ u v, s = u ++ v →
      Text.byteLength (insertAfter (segment value) sites 0 u) = carry (Text.byteLength u))
    (h : ∀ g ∈ l.groups (Text.byteLength w),
      insertAfter (segment value) sites g.span.start g.tag.text = (change g.tag).text) :
    (l.insert value sites change (Text.byteLength w)).groups (carry (Text.byteLength w)) =
      (l.groups (Text.byteLength w)).map fun g => ⟨carry g.start, change g.tag⟩ := by
  induction l generalizing w with
  | done last => rfl
  | tag front t rest ih =>
    obtain ⟨htag, hrest⟩ := List.forall_mem_cons.mp h
    have htag : insertAfter (segment value) sites (Text.byteLength w + Text.byteLength front)
      t.text = (change t).text := htag
    have hfront : carry (Text.byteLength w) +
        Text.byteLength (insertAfter (segment value) sites (Text.byteLength w) front) =
          carry (Text.byteLength w + Text.byteLength front) := by
      rw [← hcarry w _ hs, ← Text.byteLength_append, ← Text.byteLength_append,
        ← hcarry (w ++ front) (t.text ++ rest.text) (by rw [hs, text, List.append_assoc]),
        insertAfter_append, Nat.zero_add]
    have hnext : Text.byteLength w + Text.byteLength front + t.size =
        Text.byteLength (w ++ front ++ t.text) := by
      rw [Text.byteLength_append, Text.byteLength_append, Tag.byteLength_text]
    have hcut : s = w ++ front ++ t.text ++ rest.text := by
      rw [hs, text]
      simp
    have hsize : carry (Text.byteLength w + Text.byteLength front) + (change t).size =
        carry (Text.byteLength (w ++ front ++ t.text)) := by
      rw [← hcarry _ _ hcut, insertAfter_append, Nat.zero_add, Text.byteLength_append,
        hcarry (w ++ front) (t.text ++ rest.text) (by rw [hcut]; simp), Text.byteLength_append,
        htag, Tag.byteLength_text]
    rw [hnext] at hrest
    rw [insert, groups, groups, List.map_cons, hfront, hsize, hnext, ih hcut hrest]

end

end Layout

namespace Augmentation

/-- What a step makes of a tag. -/
def regrow (a : Augmentation) (t u : Tag) : Tag := if a.Due t then u.grow t.first else u

/-- What the steps for some tags make of a tag. -/
def regrown (a : Augmentation) : List Tag → Tag → Tag
  | [], u => u
  | t :: ts, u => (a.step t).regrown ts (a.regrow t u)

section

variable {a : Augmentation} {t : Tag}

theorem regrow_plain {u : Tag} (h : u.Plain) : (a.regrow t u).Plain := by
  unfold regrow
  split
  · exact h.grow t.first
  · exact h

/-- A step that replaces takes a layout of a plain text to one of the new text. -/
theorem read_insert (ht : t.Plain) (hdue : a.Due t) {l : Layout} (hread : l.Read)
    (htext : l.text = a.text) (hplain : Plain a.text) :
    (l.insert t.first.value (a.sites t) (a.regrow t) 0).Read ∧
      (l.insert t.first.value (a.sites t) (a.regrow t) 0).text = (a.step t).text ∧
      (l.insert t.first.value (a.sites t) (a.regrow t) 0).groups 0 =
        (l.groups 0).map fun g => ⟨a.carry t g.start, a.regrow t g.tag⟩ := by
  obtain ⟨-, -, hquote, hbacktick⟩ := ht hdue.1
  have hchange : a.regrow t = Tag.grow t.first := funext fun u => if_pos hdue
  have hscan : scan a.text = l.groups 0 := by rw [← htext, Layout.scan_text hread]
  have htags : ∀ g ∈ l.groups 0, insertAfter (segment t.first.value) (a.sites t) g.span.start
      g.tag.text = (a.regrow t g.tag).text := fun g hg => by
    rw [hchange, sites, if_pos hdue]
    exact insertAfter_tag hquote hbacktick hplain (hscan ▸ hg) (Tag.scheme_of_hasMsgpack hdue.1)
  refine ⟨hread.grown hbacktick (Layout.grows_insert (fun u hu => ?_) 0), ?_, ?_⟩
  · rw [← l.map_groups 0, ← hscan] at hu
    obtain ⟨g, hg, rfl⟩ := List.mem_map.mp hu
    rw [hchange, Tag.grow]
    split
    · rename_i h
      obtain ⟨hgap, hsecond, -, -⟩ := hplain g hg h.1
      exact .inr ⟨hgap, hsecond, by rw [h.2], rfl⟩
    · exact .inl rfl
  · rw [Layout.text_insert htags, htext, step_text]
  · have hzero : a.carry t 0 = 0 := (byteLength_insertAfter_sites (u := []) rfl).symm
    have hgroups := Layout.groups_insert (w := []) htext.symm
      (fun u v h => byteLength_insertAfter_sites h) htags
    rw [Text.byteLength_nil, hzero] at hgroups
    exact hgroups

/-- **After a step the tags of a plain text are where they were carried**, and those that the step
    was meant for have their msgpack pair. -/
theorem scan_step (ht : t.Plain) (hplain : Plain a.text) :
    scan (a.step t).text =
      (scan a.text).map fun g => ⟨a.carry t g.start, a.regrow t g.tag⟩ := by
  by_cases hdue : a.Due t
  · obtain ⟨l, hread, htext⟩ := exists_layout a.text
    obtain ⟨hread', htext', hgroups⟩ := read_insert ht hdue hread htext hplain
    rw [← htext', Layout.scan_text hread', hgroups, ← Layout.scan_text hread, htext]
  · have hsame (g : Group) : (⟨a.carry t g.start, a.regrow t g.tag⟩ : Group) = g := by
      rw [carry, sites, regrow, if_neg hdue, if_neg hdue]
      rfl
    simp only [hsame, List.map_id', (step_of_not_due hdue).1]

theorem plain_step (ht : t.Plain) (hplain : Plain a.text) : Plain (a.step t).text := by
  intro g hg
  rw [scan_step ht hplain] at hg
  obtain ⟨g', hg', rfl⟩ := List.mem_map.mp hg
  exact regrow_plain (hplain g' hg')

end

/-! ## 4. All steps -/

theorem scan_foldl_step {ts : List Tag} (hts : ∀ t ∈ ts, t.Plain) {a : Augmentation}
    (hplain : Plain a.text) :
    scan (ts.foldl step a).text =
      (scan a.text).map fun g => ⟨a.carried ts g.start, a.regrown ts g.tag⟩ := by
  induction ts generalizing a with
  | nil => exact (List.map_id' _).symm
  | cons t ts ih =>
    obtain ⟨ht, hts⟩ := List.forall_mem_cons.mp hts
    rw [List.foldl_cons, ih hts (plain_step ht hplain), scan_step ht hplain, List.map_map]
    rfl

theorem regrown_of_hasMsgpack {u : Tag} (h : u.hasMsgpack = true) (ts : List Tag)
    (a : Augmentation) : a.regrown ts u = u := by
  induction ts generalizing a with
  | nil => rfl
  | cons t ts ih =>
    have hstep : a.regrow t u = u := by
      rw [regrow, Tag.grow_of_hasMsgpack h, ite_self]
    rw [regrown, hstep, ih]

/-- A tag that is among those the steps are for gets its msgpack pair, if it had none and was not
    dealt with before. -/
theorem regrown_of_mem {u : Tag} (h : u.hasMsgpack = false) {ts : List Tag} (hmem : u ∈ ts)
    {a : Augmentation} (happlied : u.augmented ∉ a.applied) :
    a.regrown ts u = u.withMsgpack := by
  induction ts generalizing a with
  | nil => exact absurd hmem List.not_mem_nil
  | cons t ts ih =>
    rw [regrown]
    by_cases hgrow : a.Due t ∧ u.first = t.first
    · have hstep : a.regrow t u = u.withMsgpack := by
        rw [regrow, if_pos hgrow.1, Tag.grow, if_pos ⟨h, hgrow.2⟩]
      rw [hstep, regrown_of_hasMsgpack u.hasMsgpack_withMsgpack]
    · have hstep : a.regrow t u = u := by
        unfold regrow Tag.grow
        split
        · exact if_neg fun hfirst => hgrow ⟨‹_›, hfirst.2⟩
        · rfl
      have hne : u ≠ t := fun heq => by
        subst heq
        exact hgrow ⟨⟨h, happlied⟩, rfl⟩
      rw [hstep]
      refine ih ((List.mem_cons.mp hmem).resolve_left hne) fun hin => ?_
      rw [step_applied] at hin
      rcases List.mem_append.mp hin with hin | hin
      · exact happlied hin
      · split at hin
        · rename_i hdue
          have haug := List.mem_singleton.mp hin
          exact hgrow ⟨hdue, Tag.augmented_inj h hdue.1 haug⟩
        · exact absurd hin List.not_mem_nil

end Augmentation

/-- A tag as augmenting a plain text leaves it: with msgpack. -/
def Tag.completed (t : Tag) : Tag := if t.hasMsgpack then t else t.withMsgpack

theorem Tag.hasMsgpack_completed (t : Tag) : t.completed.hasMsgpack = true := by
  unfold completed
  split
  · assumption
  · exact t.hasMsgpack_withMsgpack

theorem Augmentation.regrown_eq_completed (s : List Char) {ts : List Tag} {t : Tag} (ht : t ∈ ts) :
    Augmentation.regrown { text := s } ts t = t.completed := by
  unfold Tag.completed
  split
  · rename_i h
    exact regrown_of_hasMsgpack h ts _
  · rename_i h
    rw [Bool.not_eq_true] at h
    exact regrown_of_mem h ht List.not_mem_nil

/-- **Augmenting a plain text completes its tags, and they stand where they were carried.** -/
theorem scan_augment {s : List Char} (h : Plain s) :
    scan (augment s).text = (scan s).map fun g =>
      ⟨Augmentation.carried { text := s } ((scan s).map (·.tag)) g.start, g.tag.completed⟩ := by
  have hts : ∀ t ∈ (scan s).map (·.tag), t.Plain := List.forall_mem_map.mpr h
  rw [augment, Augmentation.scan_foldl_step hts h]
  refine List.map_congr_left fun g hg => congrArg (Group.mk _) ?_
  exact Augmentation.regrown_eq_completed s (List.mem_map_of_mem hg)

end StructTags
