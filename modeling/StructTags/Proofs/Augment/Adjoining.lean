import Mathlib
import StructTags.Proofs.Augment.Clean

/-!
# Tags that adjoin

A value ends at the last quote of its stretch that lets the tag go on, so a tag is read as it is
written only if the text behind it offers no later quote. For clean tags, in whatever order and
however close, this file says when that is so:

* `Tag.Tidy`, `Layout.Tidy`: clean tags, the second pair attached or behind one blank, and stretches
  without backticks;
* `Layout.Separate`, **`Layout.Tidy.scan_text_iff`**: the search finds such tags exactly if each is
  maximal in front of what follows;
* `closes_tag_iff`, `continues_tag_iff`: which tags take over the one in front of them;
* `Layout.Apart`, **`scan_tidy_iff`**: where no stretch has a quote, no pair may be attached, and
  tags need a blank between them unless both have one inside.
-/

namespace StructTags

/-! ## 1. Tidy layouts -/

namespace Tag

/-- A tag of one clean pair, or of two with at most one blank between them. -/
inductive Tidy : Tag → Prop where
  | single {a : Pair} : a.Clean → Tidy ⟨a, none, none⟩
  | attached {a b : Pair} : a.Clean → b.Clean → Tidy ⟨a, none, some b⟩
  | spaced {a b : Pair} {c : Char} : a.Clean → Text.isBlank c = true → b.Clean →
      Tidy ⟨a, some c, some b⟩

theorem Tidy.valid {t : Tag} (h : t.Tidy) : t.Valid := by
  cases h with
  | single ha => exact valid_single ha.1
  | attached ha hb => exact ⟨ha.1, nofun, fun b heq => Option.some.inj heq ▸ hb.1⟩
  | spaced ha hc hb =>
    exact ⟨ha.1, fun c heq => Option.some.inj heq ▸ hc, fun b heq => Option.some.inj heq ▸ hb.1⟩

end Tag

namespace Layout

/-- Tidy tags with stretches between them that have no backtick. -/
def Tidy : Layout → Prop
  | done last => backtick ∉ last
  | tag front t rest => backtick ∉ front ∧ t.Tidy ∧ rest.Tidy

/-- Each tag is maximal in front of what follows it. -/
def Separate : Layout → Prop
  | done _ => True
  | tag _ t rest => t.Maximal rest.text ∧ rest.Separate

/-- The tags of a tidy layout are read exactly if they are maximal. -/
theorem Tidy.read_iff {l : Layout} (h : l.Tidy) : l.Read ↔ l.Separate := by
  induction l with
  | done last => exact iff_of_true (tagless_of_notMem h []) trivial
  | tag front t rest ih =>
    obtain ⟨hfront, ht, hrest⟩ := h
    rw [Read, Separate, Tag.starting?_text_append_iff ht.valid, ih hrest]
    exact and_iff_right (tagless_of_notMem hfront _)

/-- Tags that are found where the layout has them are read there. -/
theorem Tidy.read_of_cuts {l : Layout} (h : l.Tidy) (u : List Char)
    (hcuts : ∀ g ∈ l.groups (Text.byteLength u), ∃ v w, u ++ l.text = v ++ (g.tag.text ++ w) ∧
      Text.byteLength v = g.span.start ∧ Tag.starting? (g.tag.text ++ w) = some g.tag) : l.Read := by
  induction l generalizing u with
  | done last => exact tagless_of_notMem h []
  | tag front t rest ih =>
    obtain ⟨hfront, -, hrest⟩ := h
    have hassoc : u ++ (tag front t rest).text = u ++ front ++ (t.text ++ rest.text) := by
      rw [text, List.append_assoc]
    refine ⟨tagless_of_notMem hfront _, ?_, ih hrest (u ++ front ++ t.text) fun g hg => ?_⟩
    · obtain ⟨v, w, hsplit, hstart, hread⟩ := hcuts _ List.mem_cons_self
      have hlength : Text.byteLength v = Text.byteLength (u ++ front) := by
        rw [hstart, Text.byteLength_append]
        rfl
      obtain ⟨x, rfl, hx⟩ := Text.exists_append_of_byteLength_le (hassoc.symm.trans hsplit)
        (Nat.le_of_eq hlength.symm)
      rw [Text.byteLength_append, Nat.add_eq_left] at hlength
      rw [Text.eq_nil_of_byteLength_eq_zero hlength, List.nil_append] at hx
      rw [hx]
      exact hread
    · rw [Text.byteLength_append, Text.byteLength_append, Tag.byteLength_text] at hg
      obtain ⟨v, w, hsplit, hfound⟩ := hcuts g (List.mem_cons_of_mem _ hg)
      exact ⟨v, w, by rw [← hsplit, hassoc, List.append_assoc], hfound⟩

/-- **The search finds the tags of a tidy layout, and nothing else, exactly if each of them is
    maximal in front of what follows it.** -/
theorem Tidy.scan_text_iff {l : Layout} (h : l.Tidy) : scan l.text = l.groups 0 ↔ l.Separate := by
  rw [← h.read_iff]
  refine ⟨fun hscan => h.read_of_cuts [] fun g hg => ?_, scan_text⟩
  rw [Text.byteLength_nil, ← hscan] at hg
  exact exists_cut_of_mem_scan hg

end Layout

/-! ## 2. What takes over the tag in front -/

section

variable {front s u v : List Char} {t : Tag}

/-- A stretch has no quote in front of its first blank. -/
def Quiet (front : List Char) : Prop := quote ∉ front.takeWhile (!Text.isBlank ·)

instance (front : List Char) : Decidable (Quiet front) := inferInstanceAs (Decidable (¬ _))

/-- A solid stretch that is quiet has no quote. -/
theorem Quiet.notMem (h : Quiet front) (hsolid : Text.Solid front) : quote ∉ front := by
  have hall : ∀ c ∈ front, (!Text.isBlank c) = true := fun c hc => by rw [hsolid c hc]; rfl
  rwa [Quiet, List.takeWhile_eq_self_iff.mpr hall] at h

/-- A value that reaches into a quiet stretch reaches over it. -/
theorem Quiet.solid_of_split (h : Quiet front) (hsplit : front ++ s = u ++ quote :: v)
    (hu : Text.Solid u) : Text.Solid front := by
  rcases List.append_eq_append_iff.mp hsplit with ⟨w, rfl, -⟩ | ⟨w, rfl, hw⟩
  · exact (Text.solid_append.mp hu).1
  · cases w with
    | nil => rwa [List.append_nil]
    | cons d w =>
      have hall : ∀ c ∈ u ++ [quote], (!Text.isBlank c) = true := fun c hc => by
        rw [hu.concat isBlank_quote c hc]
        rfl
      rw [Quiet, ← (List.cons.inj hw).1, List.append_cons, List.takeWhile_append_of_pos hall] at h
      exact absurd (List.mem_append_left _ (List.mem_append_right _ List.mem_cons_self)) h

/-- A tidy tag has a quote with no blank in front of it, behind which a tag may end or go on. If it
    has no blank inside, this is its last quote. -/
theorem Tag.Tidy.exists_quote (h : t.Tidy) : ∃ w tail, Text.Solid w ∧
    t.text = w ++ quote :: tail ∧ (∀ rest, (Tag.ending? (tail ++ rest)).isSome) ∧
    (t.gap = none → tail = [backtick]) := by
  have hlead : ∀ {a : Pair}, a.Clean → Text.Solid (a.scheme.lead ++ a.value) := fun ha =>
    Text.solid_append.mpr ⟨Scheme.solid_lead _, ha.1.2⟩
  cases h with
  | @single a ha =>
    refine ⟨backtick :: (a.scheme.lead ++ a.value), [backtick], ?_, ?_, fun _ => rfl, fun _ => rfl⟩
    · exact Text.solid_cons.mpr ⟨isBlank_backtick, hlead ha⟩
    · simp [text, tail, Pair.raw]
  | @attached a b ha hb =>
    refine ⟨backtick :: (a.raw ++ (b.scheme.lead ++ b.value)), [backtick], ?_, ?_, fun _ => rfl,
      fun _ => rfl⟩
    · exact Text.solid_cons.mpr
        ⟨isBlank_backtick, Text.solid_append.mpr ⟨Pair.solid_raw ha.1.2, hlead hb⟩⟩
    · simp [text, tail, Pair.raw]
  | @spaced a b c ha hc hb =>
    refine ⟨backtick :: (a.scheme.lead ++ a.value), c :: (b.raw ++ [backtick]), ?_, ?_,
      fun rest => ?_, fun hgap => absurd hgap (Option.some_ne_none c)⟩
    · exact Text.solid_cons.mpr ⟨isBlank_backtick, hlead ha⟩
    · simp [text, tail, Pair.raw]
    · refine ending?_isSome_iff.mpr (.inr ⟨c, some b, rest, hc, fun a heq => ?_, by simp⟩)
      exact Option.some.inj heq ▸ hb.1

/-- **A tag takes over the single pair in front of it** if no blank stands between them. -/
theorem continues_tag_iff (hfront : Quiet front) (ht : t.Tidy) (rest : List Char) :
    Continues (front ++ (t.text ++ rest)) ↔ Text.Solid front := by
  constructor
  · rintro ⟨u, v, hsplit, hu, -⟩
    exact hfront.solid_of_split hsplit hu
  · intro hsolid
    obtain ⟨w, tail, hw, htext, hending, -⟩ := ht.exists_quote
    refine ⟨front ++ w, tail ++ rest, ?_, Text.solid_append.mpr ⟨hsolid, hw⟩, hending rest⟩
    rw [htext, List.append_assoc, List.append_assoc, List.cons_append]

/-- Behind a backtick there is no other one before the next blank. -/
theorem not_closes {p q : List Char} {c : Char} (hquote : quote ∉ p) (hp : backtick ∉ p)
    (hq : backtick ∉ q) (hc : Text.isBlank c = true) (s : List Char) :
    ¬ Closes (p ++ backtick :: (q ++ c :: s)) := by
  rintro ⟨u, v, hsplit, hu⟩
  have hne : c ≠ backtick := by
    rintro rfl
    exact absurd hc (by decide)
  rw [List.append_cons u] at hsplit
  rcases List.append_eq_append_iff.mp hsplit with ⟨w, hw, hrest⟩ | ⟨w, rfl, -⟩
  · cases w with
    | nil =>
      rw [List.append_nil] at hw
      rw [← hw] at hquote
      exact hquote (List.mem_append_right _ List.mem_cons_self)
    | cons d w =>
      -- the second backtick stands behind the first one, and a blank between them
      have hsolid : Text.Solid (p ++ d :: w) := by
        rw [← hw]
        exact hu.concat isBlank_quote
      obtain ⟨-, hrest⟩ := List.cons.inj hrest
      rcases List.append_eq_append_iff.mp hrest with ⟨z, rfl, hz⟩ | ⟨z, rfl, hz⟩
      · cases z with
        | nil => exact hne (List.cons.inj hz).1
        | cons e z =>
          have hmem : c ∈ p ++ d :: (q ++ e :: z) := by
            rw [(List.cons.inj hz).1]
            simp
          rw [hsolid c hmem] at hc
          cases hc
      · cases z with
        | nil => exact hne (List.cons.inj hz).1.symm
        | cons e z =>
          rw [← (List.cons.inj hz).1] at hq
          exact hq (List.mem_append_right _ List.mem_cons_self)
  · exact hquote (List.mem_append_left _ (List.mem_append_right _ List.mem_cons_self))

/-- **A tag takes over the second pair of one in front of it** if no blank stands between them and
    it has none inside. -/
theorem closes_tag_iff (hfront : Quiet front) (hback : backtick ∉ front) (ht : t.Tidy)
    (rest : List Char) :
    Closes (front ++ (t.text ++ rest)) ↔ Text.Solid front ∧ t.gap = none := by
  constructor
  · intro hcloses
    obtain ⟨u, v, hsplit, hu⟩ := id hcloses
    have hsolid := hfront.solid_of_split hsplit hu
    refine ⟨hsolid, ?_⟩
    cases ht with
    | single _ => rfl
    | attached _ _ => rfl
    | @spaced a b c ha hc hb =>
      have hshape : front ++ ((Tag.mk a (some c) (some b)).text ++ rest) =
          front ++ backtick :: (a.raw ++ c :: (b.raw ++ backtick :: rest)) := by
        simp [Tag.text, Tag.tail]
      rw [hshape] at hcloses
      exact absurd hcloses (not_closes (hfront.notMem hsolid) hback (Pair.backtick_notMem_raw ha.2.2) hc _)
  · rintro ⟨hsolid, hgap⟩
    obtain ⟨w, tail, hw, htext, -, htail⟩ := ht.exists_quote
    refine ⟨front ++ w, rest, ?_, Text.solid_append.mpr ⟨hsolid, hw⟩⟩
    rw [htext, htail hgap]
    simp

end

/-! ## 3. Quiet stretches -/

/-- A tag whose second pair is not attached, and which has a blank between it and the next tag,
    unless both have one inside. -/
def Tag.Apart (t : Tag) : Layout → Prop
  | .done _ => t.gap = none → t.second = none
  | .tag front next _ => (t.gap = none → t.second = none) ∧
      (Text.Solid front → t.gap.isSome ∧ next.gap.isSome)

namespace Layout

/-- Each tag is apart from what follows it. -/
def Apart : Layout → Prop
  | done _ => True
  | tag _ t rest => t.Apart rest ∧ rest.Apart

/-- The stretches in front of the tags are quiet. -/
def Quiet : Layout → Prop
  | done _ => True
  | tag front _ rest => StructTags.Quiet front ∧ rest.Quiet

/-- The stretches between the tags are quiet. -/
def QuietBetween : Layout → Prop
  | done _ => True
  | tag _ _ rest => rest.Quiet

end Layout

/-- No value is continued in a text without backticks. -/
theorem not_continues_of_notMem {s : List Char} (h : backtick ∉ s) : ¬ Continues s := by
  rintro ⟨u, v, hsplit, -, hending⟩
  refine h ?_
  rw [hsplit]
  refine List.mem_append_right _ (List.mem_cons_of_mem _ ?_)
  rcases Tag.ending?_isSome_iff.mp hending with ⟨rest, rfl⟩ | ⟨b, second, rest, -, -, rfl⟩
  · exact List.mem_cons_self
  · exact List.mem_cons_of_mem _ (List.mem_append_right _ List.mem_cons_self)

/-- In front of quiet stretches, the tags that are apart are the maximal ones. -/
theorem Tag.Tidy.maximal_iff_apart {t : Tag} (ht : t.Tidy) {l : Layout} (h : l.Tidy)
    (hquiet : l.Quiet) : t.Maximal l.text ↔ t.Apart l := by
  cases l with
  | done last =>
    have hnot : ¬ Continues last := not_continues_of_notMem h
    cases ht with
    | single _ => exact iff_of_true hnot fun _ => rfl
    | attached _ _ => exact iff_of_false id fun hapart => nomatch hapart rfl
    | spaced _ _ _ => exact iff_of_true (fun hcloses => hnot hcloses.continues) nofun
  | tag front next rest =>
    obtain ⟨hback, hnext, -⟩ := h
    cases ht with
    | single _ =>
      refine (not_congr (continues_tag_iff hquiet.1 hnext rest.text)).trans ?_
      simp [Apart]
    | attached _ _ => exact iff_of_false id fun hapart => nomatch hapart.1 rfl
    | spaced _ _ _ =>
      refine (not_congr (closes_tag_iff hquiet.1 hback hnext rest.text)).trans ?_
      simp [Apart, Option.isSome_iff_ne_none]

theorem Layout.Quiet.between {l : Layout} (h : l.Quiet) : l.QuietBetween := by
  cases l with
  | done last => exact trivial
  | tag front t rest => exact h.2

theorem Layout.Tidy.separate_iff_apart {l : Layout} (h : l.Tidy) (hquiet : l.QuietBetween) :
    l.Separate ↔ l.Apart := by
  induction l with
  | done last => exact Iff.rfl
  | tag front t rest ih =>
    obtain ⟨-, ht, hrest⟩ := h
    rw [Separate, Apart, ht.maximal_iff_apart hrest hquiet, ih hrest hquiet.between]

/-- **When clean tags are recognised.** In a text of clean tags, with an attached or a separate
    second pair or none, and stretches without backticks, the search finds each tag with its span
    and its pairs, and nothing else, exactly if each of them is maximal in front of the text behind
    it. If between two tags no quote comes before the first blank, this means that no second pair
    is attached and that a blank stands between two tags, unless both of them have one inside. -/
theorem scan_tidy_iff (l : Layout) (h : l.Tidy) :
    (scan l.text = l.groups 0 ↔ l.Separate) ∧
      (l.QuietBetween → (scan l.text = l.groups 0 ↔ l.Apart)) :=
  ⟨h.scan_text_iff, fun hquiet => h.scan_text_iff.trans (h.separate_iff_apart hquiet)⟩

/-- Two tags of two pairs with nothing between them, and one of one pair behind a blank. -/
def threeTags : Layout :=
  .tag [] ⟨⟨.json, ['a']⟩, some ' ', some ⟨.msgpack, ['b']⟩⟩
    (.tag [] ⟨⟨.msgpack, ['c']⟩, some ' ', some ⟨.json, ['d']⟩⟩
      (.tag ", \"x\" ".toList ⟨⟨.json, ['e']⟩, none, none⟩ (.done [])))

/-- These tags are recognised. -/
theorem scan_tidy_threeTags :
    threeTags.text =
        "`json:\"a\" msgpack:\"b\"``msgpack:\"c\" json:\"d\"`, \"x\" `json:\"e\"`".toList ∧
      threeTags.Tidy ∧ threeTags.QuietBetween ∧ threeTags.Apart ∧
      scan threeTags.text = threeTags.groups 0 ∧ (scan threeTags.text).length = 3 := by
  have htidy : threeTags.Tidy :=
    ⟨by decide, .spaced (by decide) (by decide) (by decide), by decide,
      .spaced (by decide) (by decide) (by decide), by decide, .single (by decide),
      List.not_mem_nil⟩
  have hquiet : threeTags.QuietBetween := ⟨by decide, by decide, trivial⟩
  have hapart : threeTags.Apart :=
    ⟨⟨by decide, by decide⟩, ⟨by decide, by decide⟩, fun _ => rfl, trivial⟩
  have hscan := ((scan_tidy_iff threeTags htidy).2 hquiet).mpr hapart
  refine ⟨by decide, htidy, hquiet, hapart, hscan, ?_⟩
  rw [hscan]
  rfl

/-- A msgpack pair that is attached belongs to the value of the pair in front of it: the tag is
    found without msgpack and augmented. Two tags of one pair with nothing between them are found as
    one. -/
theorem exists_tidy_not_found :
    (∃ l : Layout, l.Tidy ∧ l.text = "`json:\"a\"msgpack:\"b\"`".toList ∧
      l.tags.map Tag.hasMsgpack = [true] ∧ scan l.text ≠ l.groups 0 ∧
      (scan l.text).map (·.tag) = [⟨⟨.json, "a\"msgpack:\"b".toList⟩, none, none⟩] ∧
      (augment l.text).text =
        "`json:\"a\"msgpack:\"b\" msgpack:\"a\"msgpack:\"b\"`".toList) ∧
    ∃ l : Layout, l.Tidy ∧ l.text = "`json:\"a\"``json:\"b\"`".toList ∧ l.tags.length = 2 ∧
      scan l.text ≠ l.groups 0 ∧
      (scan l.text).map (·.tag) = [⟨⟨.json, "a\"``json:\"b".toList⟩, none, none⟩] := by
  have hne : ∀ {l : Layout} {ts : List Tag}, (scan l.text).map (·.tag) = ts → l.tags ≠ ts →
      scan l.text ≠ l.groups 0 := by
    intro l ts htags hne hscan
    rw [hscan, Layout.map_groups] at htags
    exact hne htags
  constructor
  · have htags : (scan (Layout.tag [] ⟨⟨.json, ['a']⟩, none, some ⟨.msgpack, ['b']⟩⟩
        (.done [])).text).map (·.tag) =
          [⟨⟨.json, "a\"msgpack:\"b".toList⟩, none, none⟩] := by cbv
    refine ⟨_, ?_, by decide, rfl, hne htags (by decide), htags, ?_⟩
    · exact ⟨by decide, .attached (by decide) (by decide), List.not_mem_nil⟩
    · cbv
  · have htags : (scan (Layout.tag [] ⟨⟨.json, ['a']⟩, none, none⟩
        (.tag [] ⟨⟨.json, ['b']⟩, none, none⟩ (.done []))).text).map (·.tag) =
          [⟨⟨.json, "a\"``json:\"b".toList⟩, none, none⟩] := by cbv
    refine ⟨_, ?_, by decide, rfl, hne htags (by decide), htags⟩
    exact ⟨by decide, .single (by decide), by decide, .single (by decide), List.not_mem_nil⟩

end StructTags
