import StructTags.Tag.Start
import StructTags.Text.Size
import StructTags.Text.Span

/-!
# Finding the tags of a text

* `Group`: a tag together with the byte offset where it stands, and so its span;
* `groupsFrom`: the tags of a text from left to right; after each the search goes on behind its
  closing backtick;
* `scan`: the same tags, found faster (`scan_eq`);
* `msgpackSpans`: the spans of those that carry msgpack;
* `groupsFrom_of_some`, `groupsFrom_of_none`: one step of the search, for later proofs.
-/

namespace StructTags

/-! ## 1. Tags in place -/

/-- A tag and the byte offset of its opening backtick. -/
structure Group where
  start : Nat
  tag : Tag
  deriving DecidableEq, Repr

namespace Group

/-- The bytes of the tag, backticks included. -/
def span (g : Group) : Span := ⟨g.start, g.start + g.tag.size⟩

/-- The same tag, further to the right. -/
def shift (offset : Nat) (g : Group) : Group := ⟨offset + g.start, g.tag⟩

end Group

/-! ## 2. The search -/

/-- The tags of a text that stands at the given byte offset. -/
def groupsFrom (offset : Nat) : List Char → List Group
  | [] => []
  | c :: cs =>
    match Tag.starting? (c :: cs) with
    | none => groupsFrom (offset + c.utf8Size) cs
    | some t =>
      ⟨offset, t⟩ ::
        groupsFrom (offset + Text.byteLength t.text) (cs.drop (t.text.length - 1))
termination_by s => s.length

/-- The stretch behind a backtick that begins no tag in which no other begins one: where a pair was
    begun, all up to the next blank. -/
def barren (s : List Char) : List Char :=
  if Scheme.all.any fun scheme => scheme.lead.isPrefixOf s then s.takeWhile (!Text.isBlank ·)
  else []

/-- The tags of a text that stands at the given byte offset, without a second look at a stretch
    where a tag was begun and failed. -/
def skimFrom (offset : Nat) : List Char → List Group
  | [] => []
  | c :: cs =>
    if c = backtick then
      match Tag.starting? (c :: cs) with
      | none =>
        let skipped := barren cs
        skimFrom (offset + c.utf8Size + Text.byteLength skipped) (cs.drop skipped.length)
      | some t =>
        ⟨offset, t⟩ :: skimFrom (offset + t.size) (cs.drop (t.length - 1))
    else skimFrom (offset + c.utf8Size) cs
termination_by s => s.length

/-- The tags of a text, from left to right and without overlap. -/
def scan (s : List Char) : List Group := skimFrom 0 s

/-- The spans of the tags that carry msgpack. -/
def msgpackSpans (s : List Char) : List Span :=
  ((scan s).filter (·.tag.hasMsgpack)).map Group.span

/-! ## 3. One step -/

@[simp] theorem groupsFrom_nil (offset : Nat) : groupsFrom offset [] = [] := by simp [groupsFrom]

/-- Where no tag starts, the search moves on by one character. -/
theorem groupsFrom_of_none {offset : Nat} {c : Char} {cs : List Char}
    (h : Tag.starting? (c :: cs) = none) :
    groupsFrom offset (c :: cs) = groupsFrom (offset + c.utf8Size) cs := by
  rw [groupsFrom, h]

/-- Where a tag starts, it is listed and the search moves on behind it. -/
theorem groupsFrom_of_some {offset : Nat} {t : Tag} {rest : List Char}
    (h : Tag.starting? (t.text ++ rest) = some t) :
    groupsFrom offset (t.text ++ rest) =
      ⟨offset, t⟩ :: groupsFrom (offset + Text.byteLength t.text) rest := by
  obtain ⟨cs, shape⟩ : ∃ cs, t.text = backtick :: cs := ⟨_, rfl⟩
  rw [shape, List.cons_append] at h ⊢
  rw [groupsFrom, h]
  simp [shape]

/-- What the search moves on to behind a tag is the text that follows it. -/
theorem Tag.drop_length_text {t : Tag} {c : Char} {cs rest : List Char}
    (h : c :: cs = t.text ++ rest) : cs.drop (t.text.length - 1) = rest := by
  have hdrop := congrArg (List.drop t.text.length) h
  rw [List.drop_left] at hdrop
  rw [← hdrop]
  rfl

/-! ## 4. The faster search -/

/-- Over a stretch in which no tag starts, the search moves on as a whole. -/
theorem groupsFrom_append {offset : Nat} {u v : List Char}
    (h : ∀ w w', u = w ++ w' → w' ≠ [] → Tag.starting? (w' ++ v) = none) :
    groupsFrom offset (u ++ v) = groupsFrom (offset + Text.byteLength u) v := by
  induction u generalizing offset with
  | nil => rfl
  | cons c cs ih =>
    have here : Tag.starting? (c :: (cs ++ v)) = none := h [] _ rfl (List.cons_ne_nil _ _)
    rw [List.cons_append, groupsFrom_of_none here,
      ih fun w w' shape => h (c :: w) w' (by rw [shape, List.cons_append]), Text.byteLength_cons,
      Nat.add_assoc]

/-- Where a backtick begins no tag, none starts in the barren stretch behind it. -/
theorem groupsFrom_barren {offset : Nat} {cs : List Char}
    (h : Tag.starting? (backtick :: cs) = none) :
    groupsFrom offset cs =
      groupsFrom (offset + Text.byteLength (barren cs)) (cs.drop (barren cs).length) := by
  unfold barren
  split
  · rename_i begun
    obtain ⟨scheme, -, begun⟩ := List.any_eq_true.mp begun
    rw [List.isPrefixOf_iff_prefix] at begun
    have whole := List.takeWhile_append_dropWhile (p := (!Text.isBlank ·)) (l := cs)
    rw [drop_length_takeWhile, ← groupsFrom_append, whole]
    intro w w' shape _
    have split : cs = w ++ (w' ++ cs.dropWhile (!Text.isBlank ·)) := by
      rw [← List.append_assoc, ← shape, whole]
    have solid : Text.Solid w := fun c hc => by
      have member : c ∈ cs.takeWhile (!Text.isBlank ·) := shape ▸ List.mem_append_left _ hc
      simpa using List.all_eq_true.mp List.all_takeWhile c member
    exact Tag.starting?_eq_none_of_solid (split ▸ begun) solid (split ▸ h)
  · rfl

/-- Both ways to search find the same tags. -/
theorem skimFrom_eq (offset : Nat) (s : List Char) : skimFrom offset s = groupsFrom offset s := by
  fun_induction skimFrom offset s with
  | case1 => simp
  | case2 offset cs skipped h ih =>
    rw [ih, groupsFrom_of_none h]
    exact (groupsFrom_barren h).symm
  | case3 offset cs t h ih => rw [ih, ← t.byteLength_text, ← t.length_text, groupsFrom, h]
  | case4 offset c cs hc ih =>
    have h : Tag.starting? (c :: cs) = none := by rw [Tag.starting?, if_neg hc]
    rw [ih, groupsFrom_of_none h]

/-- The tags of a text are those of the plain search. -/
theorem scan_eq (s : List Char) : scan s = groupsFrom 0 s := skimFrom_eq 0 s

/-- The offset of a text only shifts its tags. -/
theorem groupsFrom_eq_map_shift (offset : Nat) (s : List Char) :
    groupsFrom offset s = (scan s).map (Group.shift offset) := by
  suffices ∀ m n, groupsFrom (m + n) s = (groupsFrom n s).map (Group.shift m) by
    rw [scan_eq]
    exact this offset 0
  intro m n
  fun_induction groupsFrom n s with
  | case1 => simp
  | case2 n c cs h ih => rw [groupsFrom_of_none h, Nat.add_assoc, ih]
  | case3 n c cs t h ih =>
    rw [groupsFrom, h]
    simp only [List.map_cons, Group.shift, List.cons.injEq, true_and]
    rw [Nat.add_assoc, ih]

end StructTags
