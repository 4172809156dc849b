import StructTags.Proofs.Text.Place
import StructTags.Tag.Scan

/-!
# How a text is laid out

The tags that a search finds cut a text into stretches: one in front of each tag, one behind the
last. This file fixes such layouts and when a search finds them:

* `Layout`, `Layout.text`, `Layout.groups`: the stretches and tags, the text they make up, the tags
  in place;
* `Layout.Read`: no tag starts in a stretch, and where a tag stands it is the one that is read;
* `Layout.groupsFrom_text`: then the search finds exactly the tags of the layout;
* `exists_layout`: every text has such a layout;
* `Layout.exists_group_of_conforms`: in it, a text of the grammar starts only inside a tag.
-/

namespace StructTags

/-! ## 1. Layouts -/

/-- A text cut into stretches and tags. -/
inductive Layout where
  /-- The stretch behind the last tag. -/
  | done (last : List Char)
  /-- A stretch, the tag behind it, and what follows. -/
  | tag (front : List Char) (t : Tag) (rest : Layout)

namespace Layout

/-- The text that is laid out. -/
def text : Layout → List Char
  | done last => last
  | tag front t rest => front ++ (t.text ++ rest.text)

/-- The tags from left to right. -/
def tags : Layout → List Tag
  | done _ => []
  | tag _ t rest => t :: rest.tags

/-- The tags in place, for a text that stands at a byte offset. -/
def groups (offset : Nat) : Layout → List Group
  | done _ => []
  | tag front t rest =>
    ⟨offset + Text.byteLength front, t⟩ :: rest.groups (offset + Text.byteLength front + t.size)

theorem map_groups (l : Layout) (offset : Nat) : (l.groups offset).map (·.tag) = l.tags := by
  induction l generalizing offset with
  | done last => rfl
  | tag front t rest ih => rw [groups, tags, List.map_cons, ih]

end Layout

/-- No tag starts in a stretch that the given text follows. -/
def Tagless (front rest : List Char) : Prop :=
  ∀ w w', front = w ++ w' → w' ≠ [] → Tag.starting? (w' ++ rest) = none

/-- A text of the grammar does not start in such a stretch. -/
theorem Tagless.byteLength_le {front rest u w v : List Char} (h : Tagless front rest)
    (hw : Conforms w) (hsplit : front ++ rest = u ++ (w ++ v)) :
    Text.byteLength front ≤ Text.byteLength u := by
  refine Nat.le_of_not_lt fun hin => ?_
  obtain ⟨x, rfl, hx⟩ := Text.exists_append_of_byteLength_le hsplit.symm (Nat.le_of_lt hin)
  have hne : x ≠ [] := by
    rintro rfl
    rw [List.append_nil] at hin
    exact Nat.lt_irrefl _ hin
  have hsome : (Tag.starting? (w ++ v)).isSome := Tag.starting?_isSome_iff.mpr ⟨w, v, rfl, hw⟩
  rw [hx, h u x rfl hne] at hsome
  cases hsome

namespace Layout

/-- No tag starts in a stretch, and where a tag stands it is the one that is read. -/
def Read : Layout → Prop
  | done last => Tagless last []
  | tag front t rest =>
    Tagless front (t.text ++ rest.text) ∧ Tag.starting? (t.text ++ rest.text) = some t ∧ rest.Read

/-! ## 2. The search -/

/-- The search finds the tags of a layout that is read. -/
theorem groupsFrom_text {l : Layout} (h : l.Read) (offset : Nat) :
    groupsFrom offset l.text = l.groups offset := by
  induction l generalizing offset with
  | done last =>
    have hskip : groupsFrom offset (last ++ []) = _ := groupsFrom_append h
    rw [List.append_nil, groupsFrom_nil] at hskip
    exact hskip
  | tag front t rest ih =>
    obtain ⟨hfront, htag, hrest⟩ := h
    rw [text, groupsFrom_append hfront, groupsFrom_of_some htag, ih hrest, groups,
      Tag.byteLength_text]

theorem scan_text {l : Layout} (h : l.Read) : scan l.text = l.groups 0 := by
  rw [scan_eq, groupsFrom_text h]

/-- One more character in front of the first stretch. -/
def push (c : Char) : Layout → Layout
  | done last => done (c :: last)
  | tag front t rest => tag (c :: front) t rest

theorem text_push (c : Char) (l : Layout) : (l.push c).text = c :: l.text := by cases l <;> rfl

theorem Tagless.cons {c : Char} {front rest : List Char} (h : Tagless front rest)
    (hc : Tag.starting? (c :: (front ++ rest)) = none) : Tagless (c :: front) rest := by
  intro w w' hsplit hne
  cases w with
  | nil =>
    rw [List.nil_append] at hsplit
    rw [← hsplit]
    exact hc
  | cons d w =>
    rw [List.cons_append] at hsplit
    exact h w w' (List.cons.inj hsplit).2 hne

theorem Read.push {l : Layout} {c : Char} (h : l.Read)
    (hc : Tag.starting? (c :: l.text) = none) : (l.push c).Read := by
  cases l with
  | done last => exact Tagless.cons h (by rwa [List.append_nil])
  | tag front t rest => exact ⟨Tagless.cons h.1 hc, h.2⟩

end Layout

/-- Every text has a layout that is read. -/
theorem exists_layout (s : List Char) : ∃ l : Layout, l.Read ∧ l.text = s := by
  -- the search itself makes the layout, step by step; where it stands does not matter
  suffices ∀ (offset : Nat) (s : List Char), ∃ l : Layout, l.Read ∧ l.text = s from this 0 s
  intro offset s
  fun_induction groupsFrom offset s with
  | case1 =>
    refine ⟨.done [], fun w w' hsplit hne => ?_, rfl⟩
    exact absurd (List.append_eq_nil_iff.mp hsplit.symm).2 hne
  | case2 offset c cs h ih =>
    obtain ⟨l, hread, htext⟩ := ih
    rw [← htext] at h
    exact ⟨l.push c, hread.push h, by rw [Layout.text_push, htext]⟩
  | case3 offset c cs t h ih =>
    obtain ⟨l, hread, htext⟩ := ih
    obtain ⟨-, rest, hrest⟩ := Tag.eq_of_starting? h
    rw [Tag.drop_length_text hrest] at htext
    rw [hrest, ← htext] at h
    have hnone : Tagless [] (t.text ++ l.text) := fun w w' hsplit hne =>
      absurd (List.append_eq_nil_iff.mp hsplit.symm).2 hne
    exact ⟨.tag [] t l, ⟨hnone, h, hread⟩, by rw [Layout.text, htext, ← hrest, List.nil_append]⟩

namespace Layout

/-! ## 3. Where the tags stand -/

section

variable {l : Layout} {offset : Nat} {g : Group}

theorem le_start_of_mem_groups (h : g ∈ l.groups offset) : offset ≤ g.start := by
  induction l generalizing offset with
  | done last => exact absurd h List.not_mem_nil
  | tag front t rest ih =>
    rcases List.mem_cons.mp h with rfl | h
    · exact Nat.le_add_right _ _
    · have := ih h
      omega

/-- The tags stand one behind the other. -/
theorem pairwise_groups : (l.groups offset).Pairwise fun a b => a.span.stop ≤ b.span.start := by
  induction l generalizing offset with
  | done last => exact List.Pairwise.nil
  | tag front t rest ih =>
    refine List.pairwise_cons.mpr ⟨fun g hg => ?_, ih⟩
    exact le_start_of_mem_groups hg

/-- Each tag stands in the text where the layout has it, and is the one that is read there. -/
theorem exists_cut_of_mem_groups (hread : l.Read) (u : List Char)
    (h : g ∈ l.groups (Text.byteLength u)) :
    ∃ v w, u ++ l.text = v ++ (g.tag.text ++ w) ∧ Text.byteLength v = g.start ∧
      Tag.starting? (g.tag.text ++ w) = some g.tag := by
  induction l generalizing u with
  | done last => exact absurd h List.not_mem_nil
  | tag front t rest ih =>
    rcases List.mem_cons.mp h with rfl | h
    · refine ⟨u ++ front, rest.text, ?_, Text.byteLength_append u front, hread.2.1⟩
      rw [text, List.append_assoc]
    · have hfront : Text.byteLength u + Text.byteLength front + t.size =
          Text.byteLength (u ++ front ++ t.text) := by
        rw [Text.byteLength_append, Text.byteLength_append, Tag.byteLength_text]
      rw [hfront] at h
      obtain ⟨v, w, hcut, hv⟩ := ih hread.2.2 (u ++ front ++ t.text) h
      refine ⟨v, w, ?_, hv⟩
      rw [text, ← hcut, List.append_assoc, List.append_assoc]

end

/-- A text of the grammar starts only inside a tag of the layout. -/
theorem exists_group_of_conforms {l : Layout} (h : l.Read) {u w v : List Char} (hw : Conforms w)
    (hsplit : l.text = u ++ (w ++ v)) (offset : Nat) : ∃ g ∈ l.groups offset,
      g.span.start ≤ offset + Text.byteLength u ∧ offset + Text.byteLength u < g.span.stop := by
  induction l generalizing u offset with
  | done last =>
    rw [text] at hsplit
    have hle := Tagless.byteLength_le h hw (by rw [List.append_nil]; exact hsplit)
    rw [hsplit, Text.byteLength_append, Text.byteLength_append] at hle
    obtain rfl : w = [] := Text.eq_nil_of_byteLength_eq_zero (by omega)
    obtain ⟨t, -, hnil⟩ := hw
    exact absurd hnil t.text_ne_nil
  | tag front t rest ih =>
    obtain ⟨hfront, -, hrest⟩ := h
    rw [text] at hsplit
    have hle := hfront.byteLength_le hw hsplit
    obtain ⟨y, rfl, hy⟩ := Text.exists_append_of_byteLength_le hsplit hle
    rw [Text.byteLength_append]
    by_cases htag : Text.byteLength y < t.size
    · refine ⟨_, List.mem_cons_self, ?_, ?_⟩
      · show offset + Text.byteLength front ≤ _
        omega
      · show _ < offset + Text.byteLength front + t.size
        omega
    · rw [← Tag.byteLength_text] at htag
      obtain ⟨z, rfl, hz⟩ := Text.exists_append_of_byteLength_le hy (by omega)
      obtain ⟨g, hg, hstart, hstop⟩ := ih hrest hz (offset + Text.byteLength front + t.size)
      rw [Text.byteLength_append, Tag.byteLength_text]
      exact ⟨g, List.mem_cons_of_mem _ hg, by omega, by omega⟩

end Layout

end StructTags
