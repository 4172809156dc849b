import StructTags.Proofs.Augment.Idempotence

/-!
# Clean sources

A clean source has neither quotes nor backticks outside of its tags, and a blank between any two of
them. There augmenting does what it should, tag by tag:

* `Tag.Clean`, `Layout.Clean`: clean tags and sources;
* `Layout.Clean.read`: a clean source is read as it is laid out;
* `Augmentation.text_foldl_step`: where no stretch has a quote, each step only changes tags;
* **`augment_clean`**: a tag of one json pair gets its msgpack pair, all else stays; each
  augmentation is applied once; and a second time nothing is done.
-/

namespace StructTags

/-! ## 1. Clean sources -/

/-- A pair that can be written, with neither quotes nor backticks in its value. -/
def Pair.Clean (a : Pair) : Prop := a.Valid ∧ quote ∉ a.value ∧ backtick ∉ a.value

instance (a : Pair) : Decidable a.Clean := inferInstanceAs (Decidable (_ ∧ _ ∧ _))

/-- A stretch between tags, without quotes and backticks. -/
def CleanStretch (s : List Char) : Prop := quote ∉ s ∧ backtick ∉ s

instance (s : List Char) : Decidable (CleanStretch s) := inferInstanceAs (Decidable (_ ∧ _))

namespace Tag

/-- A tag of one clean pair, or of two with one blank between them, one of them with msgpack. -/
inductive Clean : Tag → Prop where
  | single {a : Pair} : a.Clean → Clean ⟨a, none, none⟩
  | double {a b : Pair} {c : Char} : a.Clean → Text.isBlank c = true → b.Clean →
      (Tag.mk a (some c) (some b)).hasMsgpack = true → Clean ⟨a, some c, some b⟩

instance : (t : Tag) → Decidable t.Clean
  | ⟨a, none, none⟩ => decidable_of_iff a.Clean ⟨.single, fun h => by cases h; assumption⟩
  | ⟨a, some c, some b⟩ =>
    decidable_of_iff (a.Clean ∧ Text.isBlank c = true ∧ b.Clean ∧
        (Tag.mk a (some c) (some b)).hasMsgpack = true)
      ⟨fun h => .double h.1 h.2.1 h.2.2.1 h.2.2.2,
        fun h => by cases h with | double ha hc hb hmsgpack => exact ⟨ha, hc, hb, hmsgpack⟩⟩
  | ⟨_, none, some _⟩ => isFalse fun h => by cases h
  | ⟨_, some _, none⟩ => isFalse fun h => by cases h

/-- The value of a tag that is one json pair. -/
def single? : Tag → Option (List Char)
  | ⟨⟨.json, v⟩, none, none⟩ => some v
  | _ => none

/-- A tag that is one json pair gets a msgpack pair with the same value; all others stay. -/
def rewritten (t : Tag) : Tag :=
  match t.single? with
  | some v => ⟨⟨.json, v⟩, some ' ', some ⟨.msgpack, v⟩⟩
  | none => t

theorem Clean.valid {t : Tag} (h : t.Clean) : t.Valid := by
  cases h with
  | single ha => exact valid_single ha.1
  | double ha hc hb _ =>
    refine ⟨ha.1, fun c' hc' => ?_, fun b' hb' => ?_⟩
    · rw [← Option.some.inj hc']
      exact hc
    · rw [← Option.some.inj hb']
      exact hb.1

theorem Clean.first {t : Tag} (h : t.Clean) : t.first.Clean := by
  cases h with
  | single ha => exact ha
  | double ha _ _ _ => exact ha

/-- A clean tag without msgpack is one json pair. -/
theorem Clean.eq_of_hasMsgpack {t : Tag} (h : t.Clean) (hmsgpack : t.hasMsgpack = false) :
    t = ⟨⟨.json, t.first.value⟩, none, none⟩ := by
  have hscheme := scheme_of_hasMsgpack hmsgpack
  cases h with
  | single ha => rw [← hscheme]
  | double _ _ _ hboth => exact absurd (hmsgpack.symm.trans hboth) Bool.false_ne_true

theorem single?_of_hasMsgpack {t : Tag} (h : t.hasMsgpack = true) : t.single? = none := by
  unfold single?
  split
  · cases h
  · rfl

theorem Clean.completed_eq {t : Tag} (h : t.Clean) : t.completed = t.rewritten := by
  unfold completed rewritten
  split
  · rename_i hmsgpack
    rw [single?_of_hasMsgpack hmsgpack]
  · rename_i hmsgpack
    rw [Bool.not_eq_true] at hmsgpack
    rw [h.eq_of_hasMsgpack hmsgpack]
    rfl

theorem Clean.plain {t : Tag} (h : t.Clean) : t.Plain := by
  intro hmsgpack
  rw [h.eq_of_hasMsgpack hmsgpack]
  exact ⟨rfl, rfl, h.first.2⟩

end Tag

namespace Layout

/-- What follows a tag is clean: a clean stretch, with a blank if there is another tag. -/
def CleanBehind : Layout → Prop
  | done last => CleanStretch last
  | tag front t rest =>
    CleanStretch front ∧ (∃ c ∈ front, Text.isBlank c = true) ∧ t.Clean ∧ rest.CleanBehind

/-- A clean source: clean stretches and tags, with a blank between any two tags. -/
def Clean : Layout → Prop
  | done last => CleanStretch last
  | tag front t rest => CleanStretch front ∧ t.Clean ∧ rest.CleanBehind

instance decidableCleanBehind : (l : Layout) → Decidable l.CleanBehind
  | done last => inferInstanceAs (Decidable (CleanStretch last))
  | tag front _ rest =>
    have := decidableCleanBehind rest
    have : Decidable (∃ c ∈ front, Text.isBlank c = true) := List.decidableBEx _ front
    inferInstanceAs (Decidable (_ ∧ _ ∧ _ ∧ _))

instance : (l : Layout) → Decidable l.Clean
  | done last => inferInstanceAs (Decidable (CleanStretch last))
  | tag _ _ _ => inferInstanceAs (Decidable (_ ∧ _ ∧ _))

/-- The layout with its tags changed. -/
def mapTags (change : Tag → Tag) : Layout → Layout
  | done last => done last
  | tag front t rest => tag front (change t) (rest.mapTags change)

theorem CleanBehind.clean {l : Layout} (h : l.CleanBehind) : l.Clean := by
  cases l with
  | done last => exact h
  | tag front t rest => exact ⟨h.1, h.2.2⟩

theorem Clean.clean_of_mem_tags {l : Layout} (h : l.Clean) {t : Tag} (ht : t ∈ l.tags) :
    t.Clean := by
  induction l with
  | done last => exact absurd ht List.not_mem_nil
  | tag front t' rest ih =>
    rcases List.mem_cons.mp ht with rfl | ht
    · exact h.2.1
    · exact ih h.2.2.clean ht

theorem tagless_of_notMem {front : List Char} (h : backtick ∉ front) (rest : List Char) :
    Tagless front rest := by
  intro w w' hsplit hne
  obtain ⟨c, cs, rfl⟩ := List.exists_cons_of_ne_nil hne
  have hc : c ≠ backtick := fun heq => by
    subst heq
    rw [hsplit] at h
    exact h (List.mem_append_right _ List.mem_cons_self)
  rw [List.cons_append, Tag.starting?, if_neg hc]

/-- No value is continued over what follows a tag: the first quote there stands behind a blank. -/
theorem CleanBehind.not_continues {l : Layout} (h : l.CleanBehind) : ¬ Continues l.text := by
  intro ⟨u, v, hsplit, hu, _⟩
  cases l with
  | done last =>
    have hmem : quote ∈ last := by
      rw [show last = u ++ quote :: v from hsplit]
      exact List.mem_append_right _ List.mem_cons_self
    exact h.1 hmem
  | tag front t rest =>
    obtain ⟨hfront, ⟨c, hc, hblank⟩, -, -⟩ := h
    rcases List.append_eq_append_iff.mp hsplit with ⟨w, hw, -⟩ | ⟨w, hw, hrest⟩
    · have hmem : c ∈ u := by
        rw [hw]
        exact List.mem_append_left _ hc
      exact Bool.false_ne_true ((hu c hmem).symm.trans hblank)
    · cases w with
      | nil =>
        rw [List.append_nil] at hw
        rw [hw] at hc
        exact Bool.false_ne_true ((hu c hc).symm.trans hblank)
      | cons d w =>
        obtain ⟨rfl, -⟩ := List.cons.inj hrest
        rw [hw] at hfront
        exact hfront.1 (List.mem_append_right _ List.mem_cons_self)

theorem CleanBehind.maximal {l : Layout} (h : l.CleanBehind) {t : Tag} (ht : t.Clean) :
    t.Maximal l.text := by
  cases ht with
  | single _ => exact h.not_continues
  | double _ _ _ _ => exact fun hc => h.not_continues (Closes.continues hc)

/-- **A clean source is read as it is laid out.** -/
theorem Clean.read {l : Layout} (h : l.Clean) : l.Read := by
  induction l with
  | done last => exact tagless_of_notMem h.2 []
  | tag front t rest ih =>
    obtain ⟨hfront, ht, hrest⟩ := h
    refine ⟨tagless_of_notMem hfront.2 _, ?_, ih hrest.clean⟩
    exact (Tag.starting?_text_append_iff ht.valid _).mpr (hrest.maximal ht)

theorem Clean.plain {l : Layout} (h : l.Clean) : Plain l.text := by
  intro g hg
  rw [scan_text h.read] at hg
  refine (h.clean_of_mem_tags ?_).plain
  rw [← l.map_groups 0]
  exact List.mem_map_of_mem hg

end Layout

/-! ## 2. Steps over stretches without quotes -/

namespace Layout

/-- No stretch has a quote. -/
def Bare : Layout → Prop
  | done last => quote ∉ last
  | tag front _ rest => quote ∉ front ∧ rest.Bare

theorem Clean.bare {l : Layout} (h : l.Clean) : l.Bare := by
  induction l with
  | done last => exact h.1
  | tag front t rest ih => exact ⟨h.1.1, ih h.2.2.clean⟩

section

variable {change : Tag → Tag}

theorem Bare.mapTags {l : Layout} (h : l.Bare) : (l.mapTags change).Bare := by
  induction l with
  | done last => exact h
  | tag front t rest ih => exact ⟨h.1, ih h.2⟩

theorem mapTags_mapTags (l : Layout) (change' : Tag → Tag) :
    (l.mapTags change).mapTags change' = l.mapTags fun t => change' (change t) := by
  induction l with
  | done last => rfl
  | tag front t rest ih => rw [mapTags, mapTags, mapTags, ih]

theorem mapTags_congr {l : Layout} {change' : Tag → Tag}
    (h : ∀ t ∈ l.tags, change t = change' t) : l.mapTags change = l.mapTags change' := by
  induction l with
  | done last => rfl
  | tag front t rest ih =>
    obtain ⟨ht, hrest⟩ := List.forall_mem_cons.mp h
    rw [mapTags, mapTags, ht, ih hrest]

theorem mapTags_id (l : Layout) : (l.mapTags fun t => t) = l := by
  induction l with
  | done last => rfl
  | tag front t rest ih => rw [mapTags, ih]

/-- In a stretch without quotes nothing is put in behind quotes. -/
theorem insertAfter_of_notMem_quote {value : List Char} {sites : List Nat} {s u front v : List Char}
    (hs : s = u ++ (front ++ v)) (hfront : quote ∉ front)
    (hsites : ∀ e ∈ sites, ∃ i, Text.StandsAt s i [quote] ∧ e = i + 1) :
    insertAfter (segment value) sites (Text.byteLength u) front = front := by
  have hone : quote.utf8Size = 1 := rfl
  refine insertAfter_eq_self _ _ fun e he => ?_
  obtain ⟨i, hi, rfl⟩ := hsites e he
  have := Text.StandsAt.disjoint ⟨u, v, hs, rfl⟩ hi hfront
  omega

/-- Where no stretch has a quote, putting in behind quotes only changes tags. -/
theorem insert_eq_mapTags {value : List Char} {sites : List Nat} {s : List Char}
    (hsites : ∀ e ∈ sites, ∃ i, Text.StandsAt s i [quote] ∧ e = i + 1) {l : Layout} (h : l.Bare)
    {u : List Char} (hs : s = u ++ l.text) :
    l.insert value sites change (Text.byteLength u) = l.mapTags change := by
  induction l generalizing u with
  | done last =>
    have hcut : s = u ++ (last ++ []) := by rw [hs, List.append_nil]; rfl
    rw [insert, insertAfter_of_notMem_quote hcut h hsites, mapTags]
  | tag front t rest ih =>
    have hnext : Text.byteLength u + Text.byteLength front + t.size =
        Text.byteLength (u ++ front ++ t.text) := by
      rw [Text.byteLength_append, Text.byteLength_append, Tag.byteLength_text]
    have hcut : s = u ++ front ++ t.text ++ rest.text := by
      rw [hs, text]
      simp
    rw [insert, insertAfter_of_notMem_quote hs h.1 hsites, hnext, ih h.2 hcut, mapTags]

end

end Layout

namespace Augmentation

/-- Each site of a step stands behind a quote. -/
theorem exists_quote_of_mem_sites {a : Augmentation} {t : Tag} {e : Nat} (h : e ∈ a.sites t) :
    ∃ i, Text.StandsAt a.text i [quote] ∧ e = i + 1 := by
  unfold sites at h
  split at h
  · obtain ⟨o, ho, rfl⟩ := List.mem_map.mp h
    obtain ⟨hstands, hstop⟩ := standsAt_of_mem_exposed ho
    have hquote := hstands.trans (x := [quote]) ⟨t.first.scheme.lead ++ t.first.value, [], rfl, rfl⟩
    have hraw : Text.byteLength t.first.raw =
        Text.byteLength (t.first.scheme.lead ++ t.first.value) + 1 := by
      rw [Pair.raw, Text.byteLength_append]
      rfl
    exact ⟨_, hquote, by omega⟩
  · exact absurd h List.not_mem_nil

/-- A step takes a plain text whose stretches have no quotes to the same text with its tags
    changed. -/
theorem read_mapTags {a : Augmentation} {t : Tag} (ht : t.Plain) {l : Layout} (hread : l.Read)
    (hbare : l.Bare) (htext : l.text = a.text) (hplain : Plain a.text) :
    (l.mapTags (a.regrow t)).Read ∧ (l.mapTags (a.regrow t)).text = (a.step t).text := by
  by_cases hdue : a.Due t
  · have hinsert : l.insert t.first.value (a.sites t) (a.regrow t) 0 = l.mapTags (a.regrow t) :=
      Layout.insert_eq_mapTags (u := []) (fun e he => exists_quote_of_mem_sites he) hbare htext.symm
    obtain ⟨hread', htext', -⟩ := read_insert ht hdue hread htext hplain
    rw [hinsert] at hread' htext'
    exact ⟨hread', htext'⟩
  · have hsame : a.regrow t = fun u => u := funext fun u => if_neg hdue
    rw [hsame, l.mapTags_id, htext, (step_of_not_due hdue).1]
    exact ⟨hread, rfl⟩

/-- **Where no stretch has a quote, the steps only change tags.** -/
theorem text_foldl_step {ts : List Tag} (hts : ∀ t ∈ ts, t.Plain) {a : Augmentation} {l : Layout}
    (hread : l.Read) (hbare : l.Bare) (htext : l.text = a.text) (hplain : Plain a.text) :
    (ts.foldl step a).text = (l.mapTags (a.regrown ts)).text := by
  induction ts generalizing a l with
  | nil =>
    have hsame : a.regrown [] = fun u => u := rfl
    rw [hsame, l.mapTags_id, htext]
    rfl
  | cons t ts ih =>
    obtain ⟨ht, hts⟩ := List.forall_mem_cons.mp hts
    obtain ⟨hread', htext'⟩ := read_mapTags ht hread hbare htext hplain
    rw [List.foldl_cons, ih hts hread' hbare.mapTags htext' (plain_step ht hplain),
      Layout.mapTags_mapTags]
    rfl

end Augmentation

/-! ## 3. What is applied -/

/-- The augmentation for a json pair with the given value. -/
def augmentationOf (v : List Char) : List Char :=
  (Pair.mk .json v).raw ++ [' '] ++ (Pair.mk .msgpack v).raw

theorem augmentationOf_inj {v v' : List Char} (h : augmentationOf v = augmentationOf v') :
    v = v' := by
  have hfirst := Tag.augmented_inj (t := ⟨⟨.json, v⟩, none, none⟩) (u := ⟨⟨.json, v'⟩, none, none⟩)
    rfl rfl (by simpa [augmentationOf, Tag.augmented, segment] using h)
  exact congrArg Pair.value hfirst

theorem Tag.Clean.augmentation?_eq {t : Tag} (h : t.Clean) :
    t.augmentation? = t.single?.map augmentationOf := by
  cases hmsgpack : t.hasMsgpack with
  | true =>
    rw [single?_of_hasMsgpack hmsgpack, t.augmentation?_eq, hmsgpack]
    rfl
  | false =>
    rw [h.eq_of_hasMsgpack hmsgpack]
    rfl

theorem eraseDups_map_augmentationOf (vs : List (List Char)) :
    (vs.map augmentationOf).eraseDups = vs.eraseDups.map augmentationOf := by
  refine (map_eraseDupsBy augmentationOf (· == ·) vs fun v _ v' _ => ?_).symm
  rw [Bool.eq_iff_iff, beq_iff_eq, beq_iff_eq]
  exact ⟨congrArg augmentationOf, augmentationOf_inj⟩

/-! ## 4. Clean sources are augmented -/

/-- **Augmenting a clean source rewrites its tags one by one**: a tag of one json pair gets the
    msgpack pair with the same value, and all else stays as it is. Each augmentation is applied
    once, in the order in which the values come first. A second time nothing is changed and nothing
    applied. -/
theorem augment_clean (l : Layout) (h : l.Clean) :
    (augment l.text).text = (l.mapTags Tag.rewritten).text ∧
      (augment l.text).applied = (l.tags.filterMap Tag.single?).eraseDups.map augmentationOf ∧
      (augment (augment l.text).text).text = (augment l.text).text ∧
      (augment (augment l.text).text).applied = [] := by
  have hscan : (scan l.text).map (·.tag) = l.tags := by rw [Layout.scan_text h.read, l.map_groups]
  have htags : ∀ t ∈ l.tags, t.Clean := fun t ht => h.clean_of_mem_tags ht
  have hmsgpack : ∀ g ∈ scan (augment l.text).text, g.tag.hasMsgpack = true := fun g hg =>
    hasMsgpack_of_mem_scan_augment h.plain hg
  refine ⟨?_, ?_, augment_text_eq_self_iff.mpr hmsgpack, augment_applied_eq_nil_iff.mpr hmsgpack⟩
  · rw [augment, hscan, Augmentation.text_foldl_step (fun t ht => (htags t ht).plain) h.read h.bare
      rfl h.plain]
    refine congrArg Layout.text (Layout.mapTags_congr fun t ht => ?_)
    rw [Augmentation.regrown_eq_completed l.text ht, (htags t ht).completed_eq]
  · rw [augment, Augmentation.foldl_step_applied, hscan, ← eraseDups_map_augmentationOf,
      List.map_filterMap]
    exact congrArg List.eraseDups (List.filterMap_congr fun t ht => (htags t ht).augmentation?_eq)

/-- Two tags of one value and a tag with msgpack between them. -/
theorem augment_clean_three : ∃ l : Layout, l.Clean ∧
    l.text = "A `json:\"a\"`\nB `json:\"a\" msgpack:\"b\"`\nC `json:\"a\"`".toList ∧
    (augment l.text).text = ("A `json:\"a\" msgpack:\"a\"`\n" ++
      "B `json:\"a\" msgpack:\"b\"`\nC `json:\"a\" msgpack:\"a\"`").toList ∧
    (augment l.text).applied = ["json:\"a\" msgpack:\"a\"".toList] := by
  have hclean : (Layout.tag "A ".toList ⟨⟨.json, ['a']⟩, none, none⟩
      (.tag "\nB ".toList ⟨⟨.json, ['a']⟩, some ' ', some ⟨.msgpack, ['b']⟩⟩
        (.tag "\nC ".toList ⟨⟨.json, ['a']⟩, none, none⟩ (.done [])))).Clean := by
    decide +kernel
  exact ⟨_, hclean, by decide, (augment_clean _ hclean).1.trans (by decide),
    (augment_clean _ hclean).2.1.trans (by decide)⟩

end StructTags
