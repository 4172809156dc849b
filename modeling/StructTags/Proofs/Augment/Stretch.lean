import StructTags.Proofs.Augment.Plain
import StructTags.Proofs.Text.Words

/-!
# The stretches between tags

A word without backticks does not reach over the ends of a tag. This file says what that means for
the stretches that the tags of a text leave between them:

* `Layout.stretches`: the stretches in front of the tags and behind the last one, in place;
* `Layout.exists_cut_of_mem_stretches`: a stretch starts with the text or behind a backtick, and no
  tag reaches into it;
* `Layout.exists_of_mem_stretches_insert`, `Layout.exists_mem_stretches_insert`: what becomes of the
  stretches when something is put in;
* **`Layout.exists_stretch_or_group`**: a word without backticks stands in a stretch or in a tag.
-/

namespace StructTags.Layout

/-! ## 1. Stretches in place -/

/-- The stretches between the tags from left to right, each with all that stands in front of it. -/
def stretches (before : List Char) : Layout → List (List Char × List Char)
  | done last => [(before, last)]
  | tag front t rest => (before, front) :: rest.stretches (before ++ front ++ t.text)

/-- A place at the start of a text or right behind a backtick. -/
def Opens (before : List Char) : Prop := before = [] ∨ ∃ p, before = p ++ [backtick]

theorem opens_text (before : List Char) (t : Tag) : Opens (before ++ t.text) :=
  .inr ⟨before ++ (backtick :: (t.first.raw ++ t.tail)), by simp [Tag.text]⟩

/-- A word without backticks that ends in a stretch stands in it as a whole. -/
theorem Opens.isSuffix {before w u : List Char} (h : Opens before) (hw : backtick ∉ w)
    (hend : w <:+ before ++ u) : w <:+ u := by
  rcases h with rfl | ⟨p, rfl⟩
  · exact hend
  · rw [List.append_assoc] at hend
    exact Text.isSuffix_of_notMem hw hend

theorem byteLength_append_text (before front : List Char) (t : Tag) :
    Text.byteLength before + Text.byteLength front + t.size =
      Text.byteLength (before ++ front ++ t.text) := by
  rw [Text.byteLength_append, Text.byteLength_append, Tag.byteLength_text]

/-- A stretch starts with the text or behind a backtick, and no tag reaches into it. -/
theorem exists_cut_of_mem_stretches {l : Layout} {before u f : List Char} (hbefore : Opens before)
    (h : (u, f) ∈ l.stretches before) :
    (∃ v, before ++ l.text = u ++ (f ++ v)) ∧ Opens u ∧
      Text.byteLength before ≤ Text.byteLength u ∧
      ∀ g ∈ l.groups (Text.byteLength before),
        g.span.stop ≤ Text.byteLength u ∨ Text.byteLength (u ++ f) ≤ g.span.start := by
  induction l generalizing before with
  | done last =>
    obtain ⟨rfl, rfl⟩ := Prod.mk.inj (List.mem_singleton.mp h)
    exact ⟨⟨[], by rw [text, List.append_nil]⟩, hbefore, Nat.le_refl _,
      fun g hg => absurd hg List.not_mem_nil⟩
  | tag front t rest ih =>
    have hnext := byteLength_append_text before front t
    rcases List.mem_cons.mp h with h | h
    · obtain ⟨rfl, rfl⟩ := Prod.mk.inj h
      refine ⟨⟨t.text ++ rest.text, rfl⟩, hbefore, Nat.le_refl _, fun g hg => .inr ?_⟩
      rw [Text.byteLength_append]
      rcases List.mem_cons.mp hg with rfl | hg
      · exact Nat.le_refl _
      · exact Nat.le_trans (Nat.le_add_right _ _) (le_start_of_mem_groups hg)
    · obtain ⟨⟨v, hcut⟩, hopens, hle, hgroups⟩ := ih (opens_text (before ++ front) t) h
      refine ⟨⟨v, by rw [← hcut, text]; simp⟩, hopens, by omega, fun g hg => ?_⟩
      rcases List.mem_cons.mp hg with rfl | hg
      · refine .inl (Nat.le_trans ?_ hle)
        rw [← hnext]
        exact Nat.le_refl _
      · rw [hnext] at hg
        exact hgroups g hg

/-- When something is put into a layout, it is put into its stretches. -/
theorem exists_of_mem_stretches_insert {l : Layout} {value : List Char} {sites : List Nat}
    {change : Tag → Tag} (before : List Char) {before' u' f' : List Char}
    (h : (u', f') ∈ (l.insert value sites change (Text.byteLength before)).stretches before') :
    ∃ u f, (u, f) ∈ l.stretches before ∧
      f' = insertAfter (segment value) sites (Text.byteLength u) f := by
  induction l generalizing before before' with
  | done last =>
    obtain ⟨-, rfl⟩ := Prod.mk.inj (List.mem_singleton.mp h)
    exact ⟨before, last, List.mem_singleton_self _, rfl⟩
  | tag front t rest ih =>
    rw [insert, byteLength_append_text] at h
    rcases List.mem_cons.mp h with h | h
    · obtain ⟨-, rfl⟩ := Prod.mk.inj h
      exact ⟨before, front, List.mem_cons_self, rfl⟩
    · obtain ⟨u, f, hmem, hf⟩ := ih _ h
      exact ⟨u, f, List.mem_cons_of_mem _ hmem, hf⟩

/-- And each of its stretches is there afterwards, with what was put into it. -/
theorem exists_mem_stretches_insert {l : Layout} {before u f : List Char}
    (h : (u, f) ∈ l.stretches before) (value : List Char) (sites : List Nat) (change : Tag → Tag)
    (before' : List Char) :
    ∃ u', (u', insertAfter (segment value) sites (Text.byteLength u) f) ∈
      (l.insert value sites change (Text.byteLength before)).stretches before' := by
  induction l generalizing before before' with
  | done last =>
    obtain ⟨rfl, rfl⟩ := Prod.mk.inj (List.mem_singleton.mp h)
    exact ⟨before', List.mem_singleton_self _⟩
  | tag front t rest ih =>
    rw [insert, byteLength_append_text]
    rcases List.mem_cons.mp h with h | h
    · obtain ⟨rfl, rfl⟩ := Prod.mk.inj h
      exact ⟨before', List.mem_cons_self⟩
    · obtain ⟨u', hmem⟩ := ih h _
      exact ⟨u', List.mem_cons_of_mem _ hmem⟩

/-! ## 2. Words without backticks -/

/-- A word without backticks stands in front of a tag, behind it, or in it. -/
theorem sides_of_tag {t : Tag} {front rest w u v : List Char} (hw : backtick ∉ w)
    (h : front ++ (t.text ++ rest) = u ++ (w ++ v)) :
    (∃ z, front = u ++ w ++ z) ∨ (∃ z, u = front ++ t.text ++ z ∧ rest = z ++ (w ++ v)) ∨
      (Text.byteLength front ≤ Text.byteLength u ∧
        Text.byteLength (u ++ w) ≤ Text.byteLength (front ++ t.text)) := by
  have hone : backtick.utf8Size = 1 := rfl
  have hstands : Text.StandsAt (front ++ (t.text ++ rest)) (Text.byteLength u) w := ⟨u, v, h, rfl⟩
  -- the word is on one side of each of the two backticks of the tag
  have hopen := hstands.disjoint (c := backtick)
    ⟨front, t.first.raw ++ t.tail ++ [backtick] ++ rest, by simp [Tag.text], rfl⟩ hw
  have hclose := hstands.disjoint (c := backtick)
    ⟨front ++ (backtick :: (t.first.raw ++ t.tail)), rest, by simp [Tag.text], rfl⟩ hw
  have hsize : Text.byteLength (front ++ t.text) =
      Text.byteLength (front ++ (backtick :: (t.first.raw ++ t.tail))) + 1 := by
    simp [Tag.text, hone, Nat.add_assoc]
  rw [Text.byteLength_append u w]
  by_cases hfront : Text.byteLength u + Text.byteLength w ≤ Text.byteLength front
  · rw [← Text.byteLength_append] at hfront
    have hcut : (u ++ w) ++ v = front ++ (t.text ++ rest) := by rw [h, List.append_assoc]
    obtain ⟨z, hz, -⟩ := Text.exists_append_of_byteLength_le hcut hfront
    exact .inl ⟨z, hz⟩
  · by_cases hback : Text.byteLength (front ++ t.text) ≤ Text.byteLength u
    · have hcut : (front ++ t.text) ++ rest = u ++ (w ++ v) := by rw [← h, List.append_assoc]
      obtain ⟨z, hz, hrest⟩ := Text.exists_append_of_byteLength_le hcut hback
      exact .inr (.inl ⟨z, hz, hrest⟩)
    · exact .inr (.inr ⟨by omega, by omega⟩)

/-- **A word without backticks stands in a stretch or in a tag.** -/
theorem exists_stretch_or_group {l : Layout} {w u v : List Char} (before : List Char)
    (hw : backtick ∉ w) (h : l.text = u ++ (w ++ v)) :
    (∃ c ∈ l.stretches before, w <:+: c.2) ∨
      ∃ g ∈ l.groups (Text.byteLength before),
        g.span.start ≤ Text.byteLength before + Text.byteLength u ∧
          Text.byteLength before + Text.byteLength (u ++ w) ≤ g.span.stop := by
  induction l generalizing before u with
  | done last =>
    exact .inl ⟨_, List.mem_singleton_self _, u, v, (List.append_assoc ..).trans h.symm⟩
  | tag front t rest ih =>
    rcases sides_of_tag hw h with ⟨z, hz⟩ | ⟨z, rfl, hz⟩ | ⟨hstart, hstop⟩
    · exact .inl ⟨_, List.mem_cons_self, u, z, hz.symm⟩
    · have hnext := byteLength_append_text before front t
      rcases ih (before ++ front ++ t.text) hz with ⟨c, hc, hword⟩ | ⟨g, hg, hstart, hstop⟩
      · exact .inl ⟨c, List.mem_cons_of_mem _ hc, hword⟩
      · refine .inr ⟨g, List.mem_cons_of_mem _ (hnext ▸ hg), ?_, ?_⟩
        · simp only [Text.byteLength_append] at hstart ⊢
          omega
        · simp only [Text.byteLength_append] at hstop ⊢
          omega
    · refine .inr ⟨_, List.mem_cons_self, Nat.add_le_add_left hstart _, ?_⟩
      rw [Text.byteLength_append front, Tag.byteLength_text] at hstop
      show _ ≤ Text.byteLength before + Text.byteLength front + t.size
      omega

end StructTags.Layout
