import StructTags.Proofs.Augment.Clean
import StructTags.Proofs.Augment.Following
import StructTags.Proofs.Augment.Stretch

/-!
# Two msgpack pairs side by side

A tag has one or two pairs, so a longer list of pairs is no tag, and what stands in it is replaced
like any other text. There a segment can come to stand in front of a msgpack pair. In a plain text,
where every tag with msgpack is found at each step, it can do so nowhere else:

* `Doubled`: two msgpack pairs with a space between them;
* `Augmentation.Meets`: a step puts its segment in directly in front of another one;
* `Augmentation.doubled_step_iff`: where nothing was doubled, a step doubles something if and only
  if it meets a segment;
* `Augmentation.not_meets_run_of_apart`: in a plain text a step only meets segments in the stretches
  between tags, so none does if the stretches of the text that was given have no such place;
* `Augmentation.meets_run_of_stretch`: and if they have one, some step does;
* **`doubled_augment_iff`**: so augmenting a plain text doubles something if and only if one of the
  pairs that it is for stands outside the tags with msgpack in front of a msgpack pair;
* `exists_doubled_augment`: in a list of three pairs a segment is put in front of another one.
-/

namespace StructTags

/-! ## 1. Doubled texts -/

/-- Two msgpack pairs with clean values stand side by side, with a space between them. -/
def Doubled (s : List Char) : Prop :=
  ∃ x y, (Pair.mk .msgpack x).Clean ∧ (Pair.mk .msgpack y).Clean ∧
    (Pair.mk .msgpack x).followedBy y <:+: s

/-- The value ends in a msgpack pair, but for the closing quote. -/
def EndsInMsgpack (value : List Char) : Prop :=
  ∃ x, (Pair.mk .msgpack x).Clean ∧ Scheme.msgpack.lead ++ x <:+ value

/-- A text begins with a space and a clean msgpack pair. -/
def BeginsWithSegment (s : List Char) : Prop :=
  ∃ y, (Pair.mk .msgpack y).Clean ∧ segment y <+: s

/-- An insertion does not take two such pairs apart. -/
theorem Doubled.insert {value x y : List Char} (h : Doubled x) (hvalue : Text.Solid value)
    (hins : Inserts value x y) : Doubled y := by
  obtain ⟨v, w, hv, hw, hword⟩ := h
  obtain ⟨front, rest, rfl, rfl⟩ := hins
  exact ⟨v, w, hv, hw, Pair.followedBy_insert hv.2.1 hw.2.1 hvalue (fun h => by cases h) hword⟩

/-- An insertion brings two such pairs together only in front of another segment, unless the value
    itself ends in one of them. -/
theorem doubled_of_insert {value front rest : List Char} (hvalue : Text.Solid value)
    (hend : ¬ EndsInMsgpack value)
    (h : Doubled (front ++ ((Pair.mk .json value).raw ++ (segment value ++ rest)))) :
    Doubled (front ++ ((Pair.mk .json value).raw ++ rest)) ∨
      (Pair.mk .msgpack value).Clean ∧ BeginsWithSegment rest := by
  obtain ⟨x, y, hx, hy, hword⟩ := h
  rcases Pair.followedBy_of_insert hx.2.1 hx.1.2 hy.1.2 hvalue hword with
    hbefore | hpair | hlast | ⟨hpair, hrest⟩
  · exact .inl ⟨x, y, hx, hy, hbefore⟩
  · cases hpair
  · exact absurd ⟨x, hx, hlast⟩ hend
  · exact .inr ⟨hpair ▸ hx, y, hy, hrest⟩

/-! ## 2. Behind a site -/

theorem Pair.two_le_count_quote_raw (a : Pair) : 2 ≤ a.raw.count quote := by
  rw [raw_eq_stem, List.count_append, List.count_cons_self, List.count_append,
    List.count_singleton_self]
  omega

/-- In a msgpack pair no pair stands in front of its closing quote. -/
theorem Pair.not_isSuffix_of_msgpack {a : Pair} {y w w' : List Char} (hy : quote ∉ y)
    (hsplit : (Pair.mk .msgpack y).raw = w ++ w') (hne : w' ≠ []) : ¬ a.raw <:+ w := by
  intro hsuffix
  obtain ⟨v, d, rfl⟩ := List.eq_nil_or_concat w' |>.resolve_left hne
  have hcut : (Scheme.msgpack.lead ++ y) ++ [quote] = (w ++ v) ++ [d] := by
    have hraw : (Pair.mk .msgpack y).raw = (Scheme.msgpack.lead ++ y) ++ [quote] := rfl
    rw [← hraw, hsplit]
    simp
  obtain ⟨hfront, -⟩ := List.append_inj' hcut rfl
  have hcount := congrArg (List.count quote) hfront
  have hlead : Scheme.msgpack.lead.count quote = 1 := by decide
  rw [List.count_append, List.count_append, hlead, List.count_eq_zero_of_not_mem hy] at hcount
  have htwo := a.two_le_count_quote_raw
  have hle := hsuffix.sublist.count_le quote
  omega

/-- A pair whose value does not end in its stem is found wherever it stands. -/
theorem Pair.mem_occurrences {s : List Char} {i : Nat} (a : Pair) (ha : quote ∉ a.value)
    (hstem : ¬ a.scheme.stem <:+ a.value) (h : Text.StandsAt s i a.raw) :
    (⟨i, i + Text.byteLength a.raw⟩ : Span) ∈ occurrences a.raw s := by
  obtain ⟨o, ho, hle, hlt⟩ := exists_occurrence_of_standsAt a.raw_ne_nil 0 h
  obtain ⟨⟨u, v, hcut, hu⟩, hstop⟩ := standsAt_of_mem_occurrencesFrom [] ho
  obtain ⟨u', v', hcut', rfl⟩ := h
  obtain ⟨x, rfl, hrest⟩ := Text.exists_append_of_byteLength_le (hcut.symm.trans hcut') (by omega)
  rw [Text.byteLength_append] at hle hlt ⊢
  obtain ⟨y, hraw, hagain⟩ := Text.exists_append_of_byteLength_le hrest.symm (by omega)
  -- what is found starts there, or the pair starts inside it
  by_cases hx : x = []
  · have hsame : o = ⟨o.start, o.stop⟩ := rfl
    rw [hx, Text.byteLength_nil, Nat.add_zero, hu, ← hstop, ← hsame]
    exact ho
  · have hy : y ≠ [] := by
      rintro rfl
      rw [List.append_nil] at hraw
      rw [hraw] at hstop
      omega
    refine absurd (Pair.stem_isSuffix_of_overlap ha hraw hx hy ?_) hstem
    refine List.prefix_of_prefix_length_le ⟨v, hagain.symm⟩ (List.prefix_append _ v') ?_
    rw [hraw, List.length_append]
    exact Nat.le_add_left _ _

namespace Augmentation

section

variable {a : Augmentation} {t : Tag}

/-- No site is inside of a segment. -/
theorem site_of_segment {u v y : List Char} (ht : Text.Solid t.first.value) (hy : quote ∉ y)
    (h : a.text = u ++ (segment y ++ v)) {e : Nat} (he : e ∈ a.sites t) :
    e ≤ Text.byteLength u ∨ Text.byteLength u + Text.byteLength (segment y) ≤ e := by
  by_contra hin
  obtain ⟨p, q, hp, rfl⟩ := exists_cut_of_mem_sites he
  obtain ⟨w, rfl, hw⟩ := Text.exists_append_of_byteLength_le (h.symm.trans hp) (by omega)
  rw [Text.byteLength_append] at hin
  obtain ⟨w', hsegment, -⟩ := Text.exists_append_of_byteLength_le hw.symm (by omega)
  have hend := raw_isSuffix_of_mem_sites hp he
  cases w with
  | nil => exact hin (.inl (Nat.le_refl _))
  | cons c w =>
    obtain ⟨rfl, hraw⟩ := List.cons.inj hsegment
    refine Pair.not_isSuffix_of_msgpack hy hraw (fun hnil => ?_)
      (Text.isSuffix_of_notMem (Pair.blank_notMem_raw ht) hend)
    rw [hsegment, hnil, List.append_nil] at hin
    omega

/-- What a step leaves behind a place starts with a space only if it did before. -/
theorem insertAfter_eq_blank_cons {u v z : List Char} (ht : Text.Solid t.first.value)
    (h : a.text = u ++ v)
    (hz : insertAfter (segment t.first.value) (a.sites t) (Text.byteLength u) v = ' ' :: z) :
    ∃ v', v = ' ' :: v' ∧
      insertAfter (segment t.first.value) (a.sites t) (Text.byteLength u + 1) v' = z := by
  cases v with
  | nil => cases hz
  | cons c v =>
    rw [insertAfter] at hz
    obtain ⟨rfl, hrest⟩ := List.cons.inj hz
    have hsite : Text.byteLength u + ' '.utf8Size ∉ a.sites t := fun hmem => by
      have hsize : Text.byteLength (u ++ [' ']) = Text.byteLength u + ' '.utf8Size := by simp
      rw [← hsize] at hmem
      have hend := raw_isSuffix_of_mem_sites (h.trans (List.append_cons u ' ' v)) hmem
      have hnil := Text.isSuffix_of_notMem (Pair.blank_notMem_raw ht) hend
      exact t.first.raw_ne_nil (List.suffix_nil.mp hnil)
    rw [if_neg hsite, List.nil_append] at hrest
    exact ⟨v, rfl, hrest⟩

/-- A step changes nothing of whether a segment follows a place. -/
theorem segment_isPrefix_insertAfter_iff {u v y : List Char} (ht : Text.Solid t.first.value)
    (h : a.text = u ++ v) (hy : quote ∉ y) (hsolid : Text.Solid y) :
    segment y <+: insertAfter (segment t.first.value) (a.sites t) (Text.byteLength u) v ↔
      segment y <+: v := by
  constructor
  · rintro ⟨z, hz⟩
    obtain ⟨v', rfl, hrest⟩ := insertAfter_eq_blank_cons ht h hz.symm
    have hgrown := grown_insertAfter t.first.value (a.sites t) (Text.byteLength u + 1) v'
    rw [hrest] at hgrown
    obtain ⟨z', rfl, -⟩ := hgrown.of_append (Pair.solid_raw (a := ⟨.msgpack, y⟩) hsolid)
    exact ⟨z', rfl⟩
  · rintro ⟨z, rfl⟩
    have hword := insertAfter_of_no_site (w := segment y) (segment t.first.value)
      (Text.byteLength u) (List.cons_ne_nil _ _) fun e he => site_of_segment ht hy h he
    rw [insertAfter_append, hword, List.append_assoc]
    exact List.prefix_append _ _

/-! ## 3. Steps -/

/-- The step puts its segment in directly in front of another one, behind a pair with a clean
    value. -/
def Meets (a : Augmentation) (t : Tag) : Prop :=
  ∃ x v, a.text = x ++ (t.first.raw ++ v) ∧ Text.byteLength (x ++ t.first.raw) ∈ a.sites t ∧
    (Pair.mk .msgpack t.first.value).Clean ∧ BeginsWithSegment v

theorem doubled_step_of_meets (ht : Text.Solid t.first.value) (h : a.Meets t) :
    Doubled (a.step t).text := by
  obtain ⟨x, v, htext, hsite, hclean, y, hy, hv⟩ := h
  refine step_of_mem_sites (fun _ _ hins h => h.insert ht hins) htext hsite
    ⟨t.first.value, y, hclean, hy, ?_⟩
  obtain ⟨z, hz⟩ := (segment_isPrefix_insertAfter_iff ht
    (htext.trans (List.append_assoc ..).symm) hy.2.1 hy.1.2).mpr hv
  exact ⟨x ++ (t.first.raw ++ [' ']), z, by rw [← hz]; simp [Pair.followedBy, segment]⟩

/-- **A step brings two msgpack pairs together only where its segment is put in in front of another
    one.** -/
theorem doubled_step_iff (ht : Text.Solid t.first.value)
    (hend : t.hasMsgpack = false → ¬ EndsInMsgpack t.first.value) :
    Doubled (a.step t).text ↔ Doubled a.text ∨ a.Meets t := by
  constructor
  · refine step_induction (motive := fun y => Doubled y → Doubled a.text ∨ a.Meets t) .inl
      fun x v htext hdue hsite ih h => ?_
    have hjson := congrArg Pair.raw (t.first_eq_of_hasMsgpack hdue.1)
    rw [hjson] at h ih
    rcases doubled_of_insert ht (hend hdue.1) h with hbefore | ⟨hclean, y, hy, hv⟩
    · exact ih hbefore
    · refine .inr ⟨x, v, htext, hsite, hclean, y, hy, ?_⟩
      rw [← hjson] at hv
      exact (segment_isPrefix_insertAfter_iff ht (htext.trans (List.append_assoc ..).symm)
        hy.2.1 hy.1.2).mp hv
  · rintro (h | h)
    · exact (a.reflTransGen_step t).rec h fun _ hins h => h.insert ht hins.2
    · exact doubled_step_of_meets ht h

end

/-! ## 4. Plain texts -/

/-- In no stretch the first pair of a tag that is due stands in front of a msgpack pair. -/
def Apart (a : Augmentation) (ts : List Tag) (l : Layout) : Prop :=
  ∀ t ∈ ts, a.Due t → ∀ y, (Pair.mk .msgpack y).Clean → ∀ c ∈ l.stretches [],
    ¬ t.first.followedBy y <:+: c.2

section

variable {a : Augmentation} {t : Tag} {ts : List Tag} {l : Layout}

/-- In a plain text a tag without msgpack holds no space. -/
theorem blank_notMem_text {s : List Char} (hplain : Plain s) {g : Group} (hg : g ∈ scan s)
    (h : g.tag.hasMsgpack = false) : ' ' ∉ g.tag.text := by
  obtain ⟨hgap, hsecond, -, -⟩ := hplain g hg h
  have hraw := Pair.blank_notMem_raw (valid_of_mem_scan hg).1.2
  have hbacktick : ' ' ≠ backtick := by decide
  rw [Tag.text_of_single hgap hsecond]
  simp [hraw, hbacktick]

/-- In a plain text, a pair in front of a msgpack pair that a segment is put in behind is in no
    tag. -/
theorem not_in_group_of_site {x y z : List Char} (hplain : Plain a.text)
    (hcut : a.text = x ++ (t.first.followedBy y ++ z))
    (hsite : Text.byteLength (x ++ t.first.raw) ∈ a.sites t) {g : Group} (hg : g ∈ scan a.text)
    (hstart : g.span.start ≤ Text.byteLength x)
    (hstop : Text.byteLength (x ++ t.first.followedBy y) ≤ g.span.stop) : False := by
  cases h : g.tag.hasMsgpack with
  | true =>
    rw [sites, if_pos (due_of_mem_sites hsite)] at hsite
    have := site_of_hasMsgpack hg h hsite
    have hpos := byteLength_pos t.first.raw_ne_nil
    have hsegment := segment_pos y
    simp only [Pair.followedBy, Text.byteLength_append] at this hstop
    omega
  | false =>
    -- a tag of one pair holds no space, and the word does
    rw [Text.byteLength_append, g.span_stop] at hstop
    obtain ⟨p, q, hin, -⟩ := (standsAt_of_mem_scan hg).inner ⟨x, z, hcut, rfl⟩ hstart hstop
    refine blank_notMem_text hplain hg h ?_
    rw [hin]
    simp [Pair.followedBy, segment]

/-- In a plain text, what a step finds in front of a msgpack pair stands in a stretch. -/
theorem not_meets_of_apart (hread : l.Read) (htext : l.text = a.text) (hplain : Plain a.text)
    (hapart : a.Apart (t :: ts) l) : ¬ a.Meets t := by
  rintro ⟨x, v, hcut, hsite, hclean, y, hy, z, rfl⟩
  have hword : backtick ∉ t.first.followedBy y := fun hmem =>
    (List.mem_append.mp hmem).elim (Pair.backtick_notMem_raw hclean.2.2)
      (backtick_notMem_segment hy.2.2)
  rw [← List.append_assoc t.first.raw] at hcut
  rcases Layout.exists_stretch_or_group [] hword (htext.trans hcut) with
    ⟨c, hc, hin⟩ | ⟨g, hg, hstart, hstop⟩
  · exact hapart t List.mem_cons_self (due_of_mem_sites hsite) y hy c hc hin
  · rw [Text.byteLength_nil, Nat.zero_add] at hstart hstop
    have hmem : g ∈ scan a.text := by
      rw [← htext, Layout.scan_text hread]
      exact hg
    exact not_in_group_of_site hplain hcut hsite hmem hstart hstop

/-- A word with a pair that the step is not for is in a stretch after the step only if it was there
    before. -/
theorem followedBy_isInfix_of_insertAfter {p : Pair} {y u f v : List Char} (ht : t.first.Clean)
    (hp : p.Clean) (hjson : p.scheme = .json) (hne : p ≠ t.first) (hy : Text.Solid y)
    (htext : a.text = u ++ (f ++ v)) (hu : Layout.Opens u)
    (h : p.followedBy y <:+:
      insertAfter (segment t.first.value) (a.sites t) (Text.byteLength u) f) :
    p.followedBy y <:+: f := by
  refine insertAfter_induction (motive := fun z => p.followedBy y <:+: z → p.followedBy y <:+: f)
    t.first.raw [] (fun x z hf _ hsite => ?_) (fun h => h) (fun x z w _ _ hsite ih h => ?_) h
  · rw [← Text.byteLength_append] at hsite
    have hcut : a.text = (u ++ x) ++ (z ++ v) := by rw [htext, hf]; simp
    exact hu.isSuffix (Pair.backtick_notMem_raw ht.2.2) (raw_isSuffix_of_mem_sites hcut hsite)
  · have hfirst := t.first_eq_of_hasMsgpack (due_of_mem_sites hsite).1
    rw [congrArg Pair.raw hfirst] at h ih
    rcases Pair.followedBy_of_insert hp.2.1 hp.1.2 hy ht.1.2 h with
      hbefore | hsame | hlast | ⟨hmsgpack, -⟩
    · exact ih hbefore
    · exact absurd (hsame.trans hfirst.symm) hne
    · refine absurd (hlast.subset (List.mem_append_left _ ?_)) ht.2.1
      rw [Scheme.lead_eq_stem]
      exact List.mem_append_right _ (List.mem_singleton_self quote)
    · rw [hmsgpack] at hjson
      cases hjson

/-- After a step the first pairs that are still due are apart from msgpack pairs, if they were. -/
theorem exists_layout_step (ht : t.Plain) (hts : ∀ u ∈ ts, u.Plain ∧ u.first.Valid)
    (hvalid : t.first.Valid) (hread : l.Read) (htext : l.text = a.text) (hplain : Plain a.text)
    (hapart : a.Apart (t :: ts) l) :
    ∃ l' : Layout, l'.Read ∧ l'.text = (a.step t).text ∧ (a.step t).Apart ts l' := by
  by_cases hdue : a.Due t
  · obtain ⟨hread', htext', -⟩ := read_insert ht hdue hread htext hplain
    refine ⟨_, hread', htext', fun u hu hdue' y hy c hc hin => ?_⟩
    have happlied := hdue'.2
    rw [step_applied, if_pos hdue, List.mem_append, List.mem_singleton, not_or] at happlied
    obtain ⟨before, f, hmem, hf⟩ := Layout.exists_of_mem_stretches_insert [] hc
    obtain ⟨⟨v, hcut⟩, hopens, -, -⟩ := Layout.exists_cut_of_mem_stretches (.inl rfl) hmem
    obtain ⟨-, -, hquote, hbacktick⟩ := ht hdue.1
    obtain ⟨-, -, hquote', hbacktick'⟩ := (hts u hu).1 hdue'.1
    refine hapart u (List.mem_cons_of_mem t hu) ⟨hdue'.1, happlied.1⟩ y hy _ hmem ?_
    refine followedBy_isInfix_of_insertAfter ⟨hvalid, hquote, hbacktick⟩
      ⟨(hts u hu).2, hquote', hbacktick'⟩ (Tag.scheme_of_hasMsgpack hdue'.1) (fun hsame => ?_)
      hy.1.2 (htext ▸ hcut) hopens (hf ▸ hin)
    exact happlied.2 (by rw [Tag.augmented, Tag.augmented, hsame])
  · obtain ⟨htext', happlied⟩ := step_of_not_due hdue
    refine ⟨l, hread, htext.trans htext'.symm, fun u hu hdue' => ?_⟩
    rw [Due, happlied] at hdue'
    exact hapart u (List.mem_cons_of_mem t hu) hdue'

/-- A word with a pair that the step is not for is in a stretch after the step if it was there
    before. -/
theorem followedBy_isInfix_insertAfter {p : Pair} {y u f v : List Char} (ht : t.first.Clean)
    (hp : quote ∉ p.value) (hne : p ≠ t.first) (hy : quote ∉ y) (htext : a.text = u ++ (f ++ v))
    (hu : Layout.Opens u) (h : p.followedBy y <:+: f) :
    p.followedBy y <:+:
      insertAfter (segment t.first.value) (a.sites t) (Text.byteLength u) f := by
  refine insertAfter_induction (motive := fun z => p.followedBy y <:+: z) t.first.raw []
    (fun x z hf _ hsite => ?_) h fun x z w _ _ hsite ih => ?_
  · rw [← Text.byteLength_append] at hsite
    have hcut : a.text = (u ++ x) ++ (z ++ v) := by rw [htext, hf]; simp
    exact hu.isSuffix (Pair.backtick_notMem_raw ht.2.2) (raw_isSuffix_of_mem_sites hcut hsite)
  · have hfirst := t.first_eq_of_hasMsgpack (due_of_mem_sites hsite).1
    rw [congrArg Pair.raw hfirst] at ih ⊢
    exact Pair.followedBy_insert hp hy ht.1.2 (fun hsame => absurd (hsame.trans hfirst.symm) hne) ih

theorem not_meets_run_of_apart (hts : ∀ t ∈ ts, t.Plain ∧ t.first.Valid) (hread : l.Read)
    (htext : l.text = a.text) (hplain : Plain a.text) (hapart : a.Apart ts l) :
    ¬ a.AtSomeStep Meets ts := by
  induction ts generalizing a l with
  | nil => exact id
  | cons t ts ih =>
    obtain ⟨⟨ht, hvalid⟩, hts⟩ := List.forall_mem_cons.mp hts
    obtain ⟨l', hread', htext', hapart'⟩ :=
      exists_layout_step ht hts hvalid hread htext hplain hapart
    rintro (h | h)
    · exact not_meets_of_apart hread htext hplain hapart h
    · exact ih hts hread' htext' (plain_step ht hplain) hapart' h

/-- A pair in front of a msgpack pair in a stretch is met by the step that is for it. -/
theorem meets_of_stretch (hread : l.Read) (htext : l.text = a.text) (hdue : a.Due t)
    (hclean : t.first.Clean) (hstem : ¬ t.first.scheme.stem <:+ t.first.value) {y u f : List Char}
    (hy : (Pair.mk .msgpack y).Clean) (hmem : (u, f) ∈ l.stretches [])
    (h : t.first.followedBy y <:+: f) : a.Meets t := by
  obtain ⟨⟨v, hcut⟩, -, -, hgroups⟩ := Layout.exists_cut_of_mem_stretches (.inl rfl) hmem
  obtain ⟨x, z, hf⟩ := h
  have hword : a.text = (u ++ x) ++ (t.first.raw ++ (segment y ++ (z ++ v))) := by
    rw [← htext, ← List.nil_append l.text, hcut, ← hf]
    simp [Pair.followedBy]
  refine ⟨u ++ x, _, hword, ?_, hclean, y, hy, List.prefix_append _ _⟩
  rw [sites, if_pos hdue, Text.byteLength_append (u ++ x)]
  have hfound := t.first.mem_occurrences hclean.2.1 hstem ⟨u ++ x, _, hword, rfl⟩
  refine List.mem_map.mpr ⟨_, mem_exposed_iff.mpr ⟨hfound, fun g hg _ => ?_⟩, rfl⟩
  -- no tag reaches into the stretch
  rw [← htext, Layout.scan_text hread] at hg
  have hout := hgroups g hg
  have hin := congrArg Text.byteLength hf
  rw [overlaps_eq_false_iff]
  simp only [Pair.followedBy, Text.byteLength_append] at hout hin ⊢
  omega

/-- **A pair in front of a msgpack pair in a stretch is met at its turn.** -/
theorem meets_run_of_stretch (hts : ∀ t ∈ ts, t.Plain ∧ t.first.Valid) (ht : t ∈ ts)
    (hdue : a.Due t) (hstem : ¬ t.first.scheme.stem <:+ t.first.value) (hread : l.Read)
    (htext : l.text = a.text) (hplain : Plain a.text) {y u f : List Char}
    (hy : (Pair.mk .msgpack y).Clean) (hmem : (u, f) ∈ l.stretches [])
    (h : t.first.followedBy y <:+: f) : a.AtSomeStep Meets ts := by
  obtain ⟨-, -, hquote, hbacktick⟩ := (hts t ht).1 hdue.1
  have hclean : t.first.Clean := ⟨(hts t ht).2, hquote, hbacktick⟩
  induction ts generalizing a l u f with
  | nil => exact absurd ht List.not_mem_nil
  | cons t' ts ih =>
    obtain ⟨⟨ht', hvalid'⟩, hts'⟩ := List.forall_mem_cons.mp hts
    by_cases hturn : t'.hasMsgpack = false ∧ t'.first = t.first
    · obtain ⟨hnone, hfirst⟩ := hturn
      have hdue' : a.Due t' := ⟨hnone, by rw [Tag.augmented, hfirst]; exact hdue.2⟩
      rw [← hfirst] at hclean hstem h
      exact .inl (meets_of_stretch hread htext hdue' hclean hstem hy hmem h)
    · have ht : t ∈ ts := (List.mem_cons.mp ht).resolve_left fun heq =>
        hturn ⟨heq ▸ hdue.1, heq ▸ rfl⟩
      refine .inr ?_
      by_cases hstep : a.Due t'
      · obtain ⟨-, -, hquote', hbacktick'⟩ := ht' hstep.1
        obtain ⟨⟨v, hcut⟩, hopens, -, -⟩ := Layout.exists_cut_of_mem_stretches (.inl rfl) hmem
        obtain ⟨hread', htext', -⟩ := read_insert ht' hstep hread htext hplain
        obtain ⟨u', hmem'⟩ := Layout.exists_mem_stretches_insert hmem t'.first.value (a.sites t')
          (a.regrow t') []
        have hnot : t.augmented ∉ (a.step t').applied := by
          rw [step_applied, if_pos hstep, List.mem_append, List.mem_singleton, not_or]
          exact ⟨hdue.2, fun hsame =>
            hturn ⟨hstep.1, (Tag.augmented_inj hdue.1 hstep.1 hsame).symm⟩⟩
        exact ih hts' ht ⟨hdue.1, hnot⟩ hread' htext' (plain_step ht' hplain) hmem'
          (followedBy_isInfix_insertAfter ⟨hvalid', hquote', hbacktick'⟩ hquote
            (fun hsame => hturn ⟨hstep.1, hsame.symm⟩) hy.2.1 (htext ▸ hcut) hopens h)
      · obtain ⟨htext', happlied⟩ := step_of_not_due hstep
        refine ih hts' ht ⟨hdue.1, by rw [happlied]; exact hdue.2⟩ hread (htext.trans htext'.symm)
          (htext' ▸ hplain) hmem h

end

end Augmentation

/-! ## 5. Augmenting -/

/-- Where the first pair of a tag without msgpack stands in front of a msgpack pair, it overlaps a
    tag with msgpack. -/
def Shielded (s : List Char) : Prop :=
  ∀ g ∈ scan s, g.tag.hasMsgpack = false → ∀ y, (Pair.mk .msgpack y).Clean →
    ∀ i, Text.StandsAt s i (g.tag.first.followedBy y) → ∃ g' ∈ scan s, g'.tag.hasMsgpack = true ∧
      (Span.mk i (i + Text.byteLength g.tag.first.raw)).overlaps g'.span = true

theorem Shielded.apart {s : List Char} (h : Shielded s) {l : Layout} (hread : l.Read)
    (htext : l.text = s) :
    Augmentation.Apart { text := s } ((scan s).map (·.tag)) l := by
  rintro t ht hdue y hy ⟨u, f⟩ hc ⟨p, q, hf⟩
  obtain ⟨g, hg, rfl⟩ := List.mem_map.mp ht
  have hf : p ++ g.tag.first.followedBy y ++ q = f := hf
  obtain ⟨⟨v, hcut⟩, -, -, hgroups⟩ := Layout.exists_cut_of_mem_stretches (.inl rfl) hc
  have hstands : Text.StandsAt s (Text.byteLength (u ++ p)) (g.tag.first.followedBy y) :=
    ⟨u ++ p, q ++ v, by rw [← htext, ← List.nil_append l.text, hcut, ← hf]; simp, rfl⟩
  obtain ⟨g', hg', -, hover⟩ := h g hg hdue.1 y hy _ hstands
  rw [← htext, Layout.scan_text hread] at hg'
  -- no tag reaches into the stretch, in which the pair stands
  have hout := hgroups g' hg'
  have hin := congrArg Text.byteLength hf
  simp only [Pair.followedBy, Text.byteLength_append] at hout hin
  rw [Span.overlaps, Bool.and_eq_true, decide_eq_true_eq, decide_eq_true_eq] at hover
  simp only [Text.byteLength_append] at hover
  omega

/-- In a plain text that is not shielded, a pair in front of a msgpack pair stands in a stretch. -/
theorem exists_stretch_of_not_shielded {s : List Char} (hplain : Plain s) (h : ¬ Shielded s)
    {l : Layout} (hread : l.Read) (htext : l.text = s) :
    ∃ g ∈ scan s, g.tag.hasMsgpack = false ∧ ∃ y, (Pair.mk .msgpack y).Clean ∧
      ∃ c ∈ l.stretches [], g.tag.first.followedBy y <:+: c.2 := by
  unfold Shielded at h
  push Not at h
  obtain ⟨g, hg, hnone, y, hy, i, ⟨u, v, hcut, rfl⟩, hfree⟩ := h
  refine ⟨g, hg, hnone, y, hy, ?_⟩
  obtain ⟨-, -, -, hbacktick⟩ := hplain g hg hnone
  have hword : backtick ∉ g.tag.first.followedBy y := fun hmem =>
    (List.mem_append.mp hmem).elim (Pair.backtick_notMem_raw hbacktick)
      (backtick_notMem_segment hy.2.2)
  refine (Layout.exists_stretch_or_group [] hword (htext.trans hcut)).resolve_right ?_
  rintro ⟨g', hg', hstart, hstop⟩
  rw [Text.byteLength_nil, Nat.zero_add] at hstart hstop
  have hmem : g' ∈ scan s := by
    rw [← htext, Layout.scan_text hread]
    exact hg'
  cases hmsgpack : g'.tag.hasMsgpack with
  | true =>
    refine hfree g' hmem hmsgpack ?_
    have hpos := byteLength_pos g.tag.first.raw_ne_nil
    simp only [Pair.followedBy, Text.byteLength_append] at hstop
    rw [Span.overlaps, Bool.and_eq_true, decide_eq_true_eq, decide_eq_true_eq]
    dsimp only
    omega
  | false =>
    rw [Text.byteLength_append, g'.span_stop] at hstop
    obtain ⟨p, q, hin, -⟩ := (standsAt_of_mem_scan hmem).inner ⟨u, v, hcut, rfl⟩ hstart hstop
    refine Augmentation.blank_notMem_text hplain hmem hmsgpack ?_
    rw [hin]
    simp [Pair.followedBy, segment]

/-- In a plain text no value without msgpack ends in a msgpack pair. -/
theorem Plain.not_endsInMsgpack {s : List Char} (hplain : Plain s) {g : Group} (hg : g ∈ scan s)
    (h : g.tag.hasMsgpack = false) : ¬ EndsInMsgpack g.tag.first.value := by
  rintro ⟨x, -, hx⟩
  obtain ⟨-, -, hquote, -⟩ := hplain g hg h
  exact hquote (hx.subset (List.mem_append_left _ (by decide)))

/-- Augmenting a plain text brings two msgpack pairs together if and only if some step puts a segment
    in in front of another one. -/
theorem Plain.doubled_augment_iff_meets {s : List Char} (hplain : Plain s) :
    Doubled (augment s).text ↔ Doubled s ∨
      Augmentation.AtSomeStep Augmentation.Meets { text := s } ((scan s).map (·.tag)) :=
  Augmentation.foldl_step_iff (List.forall_mem_map.mpr fun _ hg _ =>
    Augmentation.doubled_step_iff (valid_of_mem_scan hg).1.2 (hplain.not_endsInMsgpack hg))
    { text := s }

/-- **When augmenting a plain text brings two msgpack pairs together.** It does not, as long as the
    pairs that it is for stand in front of msgpack pairs only in tags with msgpack. Anywhere else it
    does so: such a pair is replaced like all others, unless its value ends in its own stem, so that
    the pair can start inside itself and be missed. -/
theorem doubled_augment_iff {s : List Char} (hplain : Plain s) :
    (Shielded s → (Doubled (augment s).text ↔ Doubled s)) ∧
      ((∀ g ∈ scan s, g.tag.hasMsgpack = false → ¬ Scheme.json.stem <:+ g.tag.first.value) →
        (Doubled (augment s).text ↔ Doubled s ∨ ¬ Shielded s)) := by
  obtain ⟨l, hread, htext⟩ := exists_layout s
  have hts : ∀ t ∈ (scan s).map (·.tag), t.Plain ∧ t.first.Valid :=
    List.forall_mem_map.mpr fun g hg => ⟨hplain g hg, (valid_of_mem_scan hg).1⟩
  have hshielded (h : Shielded s) :
      ¬ Augmentation.AtSomeStep Augmentation.Meets { text := s } ((scan s).map (·.tag)) :=
    Augmentation.not_meets_run_of_apart hts hread htext hplain (h.apart hread htext)
  refine ⟨fun h => ?_, fun hstem => ?_⟩
  · rw [hplain.doubled_augment_iff_meets, or_iff_left (hshielded h)]
  · rw [hplain.doubled_augment_iff_meets]
    refine or_congr_right ⟨fun hmeets h => hshielded h hmeets, fun h => ?_⟩
    obtain ⟨g, hg, hnone, y, hy, ⟨u, f⟩, hc, hword⟩ :=
      exists_stretch_of_not_shielded hplain h hread htext
    have hnot : ¬ g.tag.first.scheme.stem <:+ g.tag.first.value := by
      rw [Tag.scheme_of_hasMsgpack hnone]
      exact hstem g hg hnone
    exact Augmentation.meets_run_of_stretch hts (List.mem_map_of_mem hg)
      ⟨hnone, List.not_mem_nil⟩ hnot hread htext hplain hy hc hword

/-- The name of the scheme stands twice in two msgpack pairs. -/
theorem Doubled.two_le_count {s : List Char} (h : Doubled s) : 2 ≤ s.count 'k' := by
  obtain ⟨x, y, -, -, hword⟩ := h
  have hlead : Scheme.msgpack.lead.count 'k' = 1 := by decide
  refine Nat.le_trans ?_ (hword.sublist.count_le 'k')
  simp only [Pair.followedBy, segment, Pair.raw, List.count_append, List.count_cons, hlead]
  omega

/-- A second tag with the same pair, which only differs by the msgpack pair that it has, shields
    it. -/
theorem shielded_secondTag : Shielded "`json:\"a\"` `json:\"a\" msgpack:\"x\"`".toList := by
  intro g hg h y _ i ⟨u, v, hs, hi⟩
  have hscan : scan "`json:\"a\"` `json:\"a\" msgpack:\"x\"`".toList =
      [⟨0, ⟨⟨.json, ['a']⟩, none, none⟩⟩,
        ⟨11, ⟨⟨.json, ['a']⟩, some ' ', some ⟨.msgpack, ['x']⟩⟩⟩] := by decide +kernel
  have hfound : occurrencesFrom ((Pair.mk .json ['a']).raw ++ ' ' :: Scheme.msgpack.lead) 0
      "`json:\"a\"` `json:\"a\" msgpack:\"x\"`".toList = [⟨12, 30⟩] := by decide +kernel
  rw [hscan] at hg ⊢
  rcases List.mem_cons.mp hg with rfl | hg
  · have hword : (Pair.mk .json ['a']).followedBy y ++ v =
        ((Pair.mk .json ['a']).raw ++ ' ' :: Scheme.msgpack.lead) ++ (y ++ [quote] ++ v) := by
      simp [Pair.followedBy, segment, Pair.raw]
    have hne : (Pair.mk .json ['a']).raw ++ ' ' :: Scheme.msgpack.lead ≠ [] := by simp
    obtain ⟨o, ho, hle, hlt⟩ := exists_occurrence_of_standsAt hne 0
      ⟨u, y ++ [quote] ++ v, hs.trans (congrArg (u ++ ·) hword), hi⟩
    rw [hfound] at ho
    obtain rfl := List.mem_singleton.mp ho
    refine ⟨_, List.mem_cons_of_mem _ List.mem_cons_self, rfl, ?_⟩
    show (decide (i < 33) && decide (11 < i + 8)) = true
    rw [Nat.zero_add] at hle hlt
    have hlt : i < 30 := hlt
    have hle : 12 ≤ i := hle
    simp only [Bool.and_eq_true, decide_eq_true_eq]
    omega
  · obtain rfl := List.mem_singleton.mp hg
    cases h

/-- A list of three pairs shields nothing. -/
theorem not_shielded_threePairs :
    ¬ Shielded "`json:\"a\"` `json:\"a\" msgpack:\"x\" yaml:\"y\"`".toList := by
  intro h
  have hscan : scan "`json:\"a\"` `json:\"a\" msgpack:\"x\" yaml:\"y\"`".toList =
      [⟨0, ⟨⟨.json, ['a']⟩, none, none⟩⟩] := by decide +kernel
  obtain ⟨g, hg, hmsgpack, -⟩ := h ⟨0, ⟨⟨.json, ['a']⟩, none, none⟩⟩
    (by rw [hscan]; exact List.mem_singleton_self _) rfl ['x'] (by decide) 12
    ⟨"`json:\"a\"` `".toList, " yaml:\"y\"`".toList, by decide, by decide⟩
  rw [hscan] at hg
  obtain rfl := List.mem_singleton.mp hg
  cases hmsgpack

/-- The same pair twice, the second time with a msgpack pair behind it. Where the two are a tag, it
    stays as it is; where a third pair follows, there is no tag, and the list gets a second msgpack
    pair. -/
theorem doubled_augment_listed :
    (Plain "`json:\"a\"` `json:\"a\" msgpack:\"x\"`".toList ∧
        Shielded "`json:\"a\"` `json:\"a\" msgpack:\"x\"`".toList ∧
        ¬ Doubled (augment "`json:\"a\"` `json:\"a\" msgpack:\"x\"`".toList).text) ∧
      Plain "`json:\"a\"` `json:\"a\" msgpack:\"x\" yaml:\"y\"`".toList ∧
        ¬ Shielded "`json:\"a\"` `json:\"a\" msgpack:\"x\" yaml:\"y\"`".toList ∧
        Doubled (augment "`json:\"a\"` `json:\"a\" msgpack:\"x\" yaml:\"y\"`".toList).text := by
  have hplain : Plain "`json:\"a\"` `json:\"a\" msgpack:\"x\"`".toList := by decide +kernel
  have hplain' : Plain "`json:\"a\"` `json:\"a\" msgpack:\"x\" yaml:\"y\"`".toList := by
    decide +kernel
  have hsingle : ¬ Doubled "`json:\"a\"` `json:\"a\" msgpack:\"x\"`".toList := fun h =>
    absurd h.two_le_count (by decide)
  have hstem : ∀ g ∈ scan "`json:\"a\"` `json:\"a\" msgpack:\"x\" yaml:\"y\"`".toList,
      g.tag.hasMsgpack = false → ¬ Scheme.json.stem <:+ g.tag.first.value := by decide +kernel
  exact ⟨⟨hplain, shielded_secondTag, fun h =>
      hsingle (((doubled_augment_iff hplain).1 shielded_secondTag).mp h)⟩,
    hplain', not_shielded_threePairs,
    ((doubled_augment_iff hplain').2 hstem).mpr (.inr not_shielded_threePairs)⟩

/-- The list of pairs in the second line is no tag, since it has three of them. The pair in the
    first line stands in it too, in front of a msgpack pair, and so the list gets another one. -/
theorem exists_doubled_augment :
    ¬ Doubled "A `json:\"a\"`\nB `json:\"a\" msgpack:\"x\" yaml:\"y\"`\n".toList ∧
      Doubled
        (augment "A `json:\"a\"`\nB `json:\"a\" msgpack:\"x\" yaml:\"y\"`\n".toList).text := by
  refine ⟨fun h => absurd h.two_le_count (by decide), ['a'], ['x'], by decide, by decide, ?_⟩
  refine ⟨"A `json:\"a\" msgpack:\"a\"`\nB `json:\"a\" ".toList, " yaml:\"y\"`\n".toList, ?_⟩
  decide +kernel

end StructTags
