import Mathlib.Data.List.Forall2
import Mathlib.Logic.Relation
import StructTags.Proofs.Augment.Plain

/-!
# Augmenting only inserts

Augmenting deletes and moves nothing. This file says what it does instead, one insertion at a time:

* `Inserts`: one text comes of another by putting a segment in directly behind a json pair;
* `insertAfter_induction`: what holds of a text, and is kept by each of these insertions, holds of
  the text with all segments put in;
* `Augmentation.reflTransGen_step`: so a step is a finite sequence of them;
* `forall₂_splitOn`: what is put in has no line break, so each line only grows;
* **`augment_inserts`**: all of augmenting is such a sequence.
-/

namespace StructTags

/-! ## 1. One insertion -/

/-- The second text is the first one with the segment of a value put in once, directly behind a json
    pair of this value. -/
def Inserts (value x y : List Char) : Prop :=
  ∃ front rest, x = front ++ ((Pair.mk .json value).raw ++ rest) ∧
    y = front ++ ((Pair.mk .json value).raw ++ (segment value ++ rest))

theorem Inserts.sublist {value x y : List Char} (h : Inserts value x y) : x.Sublist y := by
  obtain ⟨front, rest, rfl, rfl⟩ := h
  exact ((List.sublist_append_right _ rest).append_left _).append_left front

theorem Inserts.append {value x y : List Char} (h : Inserts value x y) (z : List Char) :
    Inserts value (x ++ z) (y ++ z) := by
  obtain ⟨front, rest, rfl, rfl⟩ := h
  exact ⟨front, rest ++ z, by simp, by simp⟩

/-! ## 2. Insertions one by one -/

/-- Induction along the insertions into a text, from the last site to the first: if behind each site
    a word stands, then at its turn the word is still whole and only what follows it has grown. -/
theorem insertAfter_induction {motive : List Char → Prop} {segment : List Char}
    {sites : List Nat} {s : List Char} {offset : Nat} (word front : List Char)
    (hsites : ∀ u v, s = u ++ v → u ≠ [] → offset + Text.byteLength u ∈ sites →
      word <:+ front ++ u)
    (start : motive (front ++ s))
    (put : ∀ x u v, s = u ++ v → front ++ u = x ++ word → offset + Text.byteLength u ∈ sites →
      motive (x ++ (word ++ insertAfter segment sites (offset + Text.byteLength u) v)) →
      motive (x ++ (word ++
        (segment ++ insertAfter segment sites (offset + Text.byteLength u) v)))) :
    motive (front ++ insertAfter segment sites offset s) := by
  induction s generalizing front offset with
  | nil => exact start
  | cons c cs ih =>
    have hsize (u : List Char) : offset + c.utf8Size + Text.byteLength u =
        offset + Text.byteLength (c :: u) := Nat.add_assoc ..
    have hfront (u : List Char) : front ++ [c] ++ u = front ++ c :: u := List.append_cons .. |>.symm
    have hrest : motive (front ++ [c] ++ insertAfter segment sites (offset + c.utf8Size) cs) := by
      refine ih (front ++ [c]) (fun u v hcs hne hsite => ?_) (hfront cs ▸ start)
        fun x u v hcs hx hsite => ?_
      · rw [hsize] at hsite
        rw [hfront]
        exact hsites (c :: u) v (congrArg (c :: ·) hcs) (List.cons_ne_nil _ _) hsite
      · rw [hsize] at hsite ⊢
        rw [hfront] at hx
        exact put x (c :: u) v (congrArg (c :: ·) hcs) hx hsite
    rw [insertAfter]
    split
    · rename_i hsite
      obtain ⟨x, hx⟩ := hsites [c] cs rfl (List.cons_ne_nil _ _) hsite
      rw [← hx, List.append_assoc] at hrest
      have hput := put x [c] cs rfl hx.symm hsite hrest
      rw [← List.append_assoc, hx, List.append_assoc] at hput
      exact hput
    · rw [hfront] at hrest
      exact hrest

/-- The first pair of a tag without msgpack is a json pair. -/
theorem Tag.first_eq_of_hasMsgpack {t : Tag} (h : t.hasMsgpack = false) :
    t.first = ⟨.json, t.first.value⟩ := by
  rw [← scheme_of_hasMsgpack h]

/-- The segment for a tag without msgpack is put in behind a json pair. -/
theorem Tag.inserts {t : Tag} (h : t.hasMsgpack = false) (front rest : List Char) :
    Inserts t.first.value (front ++ (t.first.raw ++ rest))
      (front ++ (t.first.raw ++ (segment t.first.value ++ rest))) := by
  have hraw : t.first.raw = (Pair.mk .json t.first.value).raw :=
    congrArg Pair.raw (first_eq_of_hasMsgpack h)
  exact ⟨front, rest, by rw [hraw], by rw [hraw]⟩

namespace Augmentation

section

variable {a : Augmentation} {t : Tag}

theorem due_of_mem_sites {e : Nat} (h : e ∈ a.sites t) : a.Due t := by
  by_contra hdue
  rw [sites, if_neg hdue] at h
  exact List.not_mem_nil h

/-- A site is a place between two characters. -/
theorem exists_cut_of_mem_sites {e : Nat} (he : e ∈ a.sites t) :
    ∃ p q, a.text = p ++ q ∧ Text.byteLength p = e := by
  have hdue := due_of_mem_sites he
  rw [sites, if_pos hdue] at he
  obtain ⟨o, ho, rfl⟩ := List.mem_map.mp he
  obtain ⟨hstands, hstop⟩ := standsAt_of_mem_exposed ho
  rw [hstop]
  exact hstands.boundary_stop

/-- In front of each site the first pair of the tag stands. -/
theorem raw_isSuffix_of_mem_sites {u v : List Char} (h : a.text = u ++ v)
    (he : Text.byteLength u ∈ a.sites t) : t.first.raw <:+ u := by
  have hdue := due_of_mem_sites he
  rw [sites, if_pos hdue] at he
  obtain ⟨o, ho, hstop⟩ := List.mem_map.mp he
  obtain ⟨⟨x, y, htext, hx⟩, hsize⟩ := standsAt_of_mem_exposed ho
  have hlen : Text.byteLength (x ++ t.first.raw) = Text.byteLength u := by
    rw [Text.byteLength_append, hx, ← hsize, hstop]
  rw [htext, ← List.append_assoc] at h
  obtain ⟨w, rfl, -⟩ := Text.exists_append_of_byteLength_le h (Nat.le_of_eq hlen)
  rw [Text.byteLength_append _ w] at hlen
  obtain rfl : w = [] := Text.eq_nil_of_byteLength_eq_zero (by omega)
  exact ⟨x, (List.append_nil _).symm⟩

/-- Induction along the insertions of a step: at its turn, what stands in front of a site is as it
    was before the step. -/
theorem step_induction {motive : List Char → Prop} (start : motive a.text)
    (put : ∀ x v, a.text = x ++ (t.first.raw ++ v) → a.Due t →
      Text.byteLength (x ++ t.first.raw) ∈ a.sites t →
      motive (x ++ (t.first.raw ++ insertAfter (segment t.first.value) (a.sites t)
        (Text.byteLength (x ++ t.first.raw)) v)) →
      motive (x ++ (t.first.raw ++ (segment t.first.value ++
        insertAfter (segment t.first.value) (a.sites t)
          (Text.byteLength (x ++ t.first.raw)) v)))) :
    motive (a.step t).text := by
  rw [step_text]
  refine insertAfter_induction t.first.raw [] (fun u v h _ he => ?_) start
    fun x u v h hu he => ?_
  · rw [Nat.zero_add] at he
    exact raw_isSuffix_of_mem_sites h he
  · rw [List.nil_append] at hu
    subst hu
    rw [Nat.zero_add] at he ⊢
    exact put x v (by rw [h, List.append_assoc]) (due_of_mem_sites he) he

/-- What holds once the segment is put in at one site, with all sites behind it filled already, and
    is kept by insertions, holds after the step. -/
theorem step_of_mem_sites {motive : List Char → Prop}
    (keep : ∀ x y, Inserts t.first.value x y → motive x → motive y) {x v : List Char}
    (h : a.text = x ++ (t.first.raw ++ v)) (he : Text.byteLength (x ++ t.first.raw) ∈ a.sites t)
    (hput : motive (x ++ (t.first.raw ++ (segment t.first.value ++
      insertAfter (segment t.first.value) (a.sites t)
        (Text.byteLength (x ++ t.first.raw)) v)))) :
    motive (a.step t).text := by
  -- the closing quote of the pair is what the segment is put in behind
  obtain ⟨p, hp⟩ : ∃ p, x ++ t.first.raw = p ++ [quote] :=
    ⟨x ++ (t.first.scheme.lead ++ t.first.value), by simp [Pair.raw]⟩
  have hsize : Text.byteLength (x ++ t.first.raw) = Text.byteLength p + quote.utf8Size := by
    rw [hp, Text.byteLength_append]
    rfl
  have htext : a.text = p ++ (quote :: v) := by
    rw [h, ← List.append_assoc, hp, List.append_assoc]
    rfl
  rw [hsize] at he hput
  rw [← List.append_assoc, hp, List.append_assoc] at hput
  rw [step_text]
  conv =>
    arg 1
    rw [htext, insertAfter_append, insertAfter, Nat.zero_add, if_pos he]
  refine insertAfter_induction t.first.raw []
    (motive := fun y => motive (y ++ (quote :: (segment t.first.value ++ insertAfter
      (segment t.first.value) (a.sites t) (Text.byteLength p + quote.utf8Size) v))))
    (fun u w hsplit _ hsite => ?_) hput fun y u w _ _ _ hrest => ?_
  · rw [Nat.zero_add] at hsite
    have hcut : a.text = u ++ (w ++ quote :: v) := by rw [htext, hsplit, List.append_assoc]
    exact raw_isSuffix_of_mem_sites hcut hsite
  · exact keep _ _ ((t.inserts (due_of_mem_sites he).1 y _).append _) hrest

/-- **A step puts its segment in, one time after the other.** -/
theorem reflTransGen_step (a : Augmentation) (t : Tag) :
    Relation.ReflTransGen (fun x y => t.hasMsgpack = false ∧ Inserts t.first.value x y)
      a.text (a.step t).text := by
  exact step_induction .refl fun x v _ hdue _ h => h.tail ⟨hdue.1, t.inserts hdue.1 x _⟩

end

/-- All steps together put in segments of the tags without msgpack. -/
theorem reflTransGen_foldl_step (a : Augmentation) (ts : List Tag) :
    Relation.ReflTransGen
      (fun x y => ∃ t ∈ ts, t.hasMsgpack = false ∧ Inserts t.first.value x y)
      a.text (ts.foldl step a).text := by
  induction ts generalizing a with
  | nil => exact .refl
  | cons t ts ih =>
    refine Relation.ReflTransGen.trans (b := (a.step t).text) ?_ ?_
    · exact Relation.ReflTransGen.mono (fun x y h => ⟨t, List.mem_cons_self, h⟩) _ _
        (a.reflTransGen_step t)
    · exact Relation.ReflTransGen.mono (fun x y ⟨u, hu, h⟩ => ⟨u, List.mem_cons_of_mem t hu, h⟩)
        _ _ (ih (a.step t))

end Augmentation

/-! ## 3. Lines -/

section

variable {c : Char}

theorem forall₂_sublist_trans {xs ys zs : List (List Char)} (h : List.Forall₂ List.Sublist xs ys)
    (h' : List.Forall₂ List.Sublist ys zs) : List.Forall₂ List.Sublist xs zs := by
  induction h generalizing zs with
  | nil => exact h'
  | cons hhead _ ih =>
    cases h' with
    | cons hhead' hrest' => exact .cons (hhead.trans hhead') (ih hrest')

/-- A character put in front of both texts, or of the second one only, keeps the pieces in order. -/
theorem forall₂_splitOn_cons {x y : List Char} (d : Char)
    (h : List.Forall₂ List.Sublist (x.splitOn c) (y.splitOn c)) :
    List.Forall₂ List.Sublist ((d :: x).splitOn c) ((d :: y).splitOn c) ∧
      (d ≠ c → List.Forall₂ List.Sublist (x.splitOn c) ((d :: y).splitOn c)) := by
  rw [List.splitOn_cons_eq_if_modifyHead, List.splitOn_cons_eq_if_modifyHead]
  by_cases hd : d = c
  · rw [if_pos (beq_iff_eq.mpr hd), if_pos (beq_iff_eq.mpr hd)]
    exact ⟨.cons (List.Sublist.refl _) h, absurd hd⟩
  · rw [if_neg (by simpa using hd), if_neg (by simpa using hd)]
    generalize x.splitOn c = lines, y.splitOn c = lines' at h
    cases h with
    | nil => exact ⟨.nil, fun _ => .nil⟩
    | cons hhead hrest =>
      exact ⟨.cons (hhead.cons_cons d) hrest, fun _ => .cons (hhead.cons d) hrest⟩

/-- A text put in that does not have the separating character makes pieces longer, and no more of
    them. -/
theorem forall₂_splitOn {w : List Char} (hw : c ∉ w) (u v : List Char) :
    List.Forall₂ List.Sublist ((u ++ v).splitOn c) ((u ++ (w ++ v)).splitOn c) := by
  induction u with
  | nil =>
    induction w with
    | nil => exact List.forall₂_same.mpr fun line _ => List.Sublist.refl line
    | cons d w ih =>
      rw [List.mem_cons, not_or] at hw
      exact (forall₂_splitOn_cons d (ih hw.2)).2 (Ne.symm hw.1)
  | cons d u ih => exact (forall₂_splitOn_cons d ih).1

/-- A segment holds no blank but the one it starts with. -/
theorem notMem_segment {value : List Char} (hvalue : Text.Solid value)
    (hblank : Text.isBlank c = true) (hc : c ≠ ' ') : c ∉ segment value := by
  intro hmem
  have hraw := (List.mem_cons.mp hmem).resolve_left hc
  have hsolid := Pair.solid_raw (a := ⟨.msgpack, value⟩) hvalue c hraw
  exact Bool.false_ne_true (hsolid.symm.trans hblank)

/-- An insertion makes lines longer, and no more of them. -/
theorem Inserts.forall₂_splitOn {value x y : List Char} (h : Inserts value x y)
    (hvalue : Text.Solid value) (hblank : Text.isBlank c = true) (hc : c ≠ ' ') :
    List.Forall₂ List.Sublist (x.splitOn c) (y.splitOn c) := by
  obtain ⟨front, rest, rfl, rfl⟩ := h
  have hgrow := StructTags.forall₂_splitOn (notMem_segment hvalue hblank hc)
    (front ++ (Pair.mk .json value).raw) rest
  rw [List.append_assoc, List.append_assoc] at hgrow
  exact hgrow

end

/-- A text that comes of another by insertions has it as a subsequence, also line by line. -/
theorem grown_of_reflTransGen {r : List Char → List Char → Prop} {x y : List Char}
    (hr : ∀ x y, r x y → ∃ value, Text.Solid value ∧ Inserts value x y)
    (h : Relation.ReflTransGen r x y) :
    x.Sublist y ∧ List.Forall₂ List.Sublist (x.splitOn '\n') (y.splitOn '\n') := by
  induction h with
  | refl =>
    exact ⟨List.Sublist.refl x, List.forall₂_same.mpr fun line _ => List.Sublist.refl line⟩
  | tail _ hstep ih =>
    obtain ⟨value, hvalue, h⟩ := hr _ _ hstep
    have hlines := h.forall₂_splitOn (c := '\n') hvalue (by decide) (by decide)
    exact ⟨ih.1.trans h.sublist, forall₂_sublist_trans ih.2 hlines⟩

/-! ## 4. Augmenting -/

/-- **Augmenting is a finite sequence of insertions**, each of them of the segment for a tag without
    msgpack, directly behind a json pair of its value. So the text as it was given is left as a
    subsequence; there are as many lines as before, and each is a subsequence of the line it
    became. -/
theorem augment_inserts (s : List Char) :
    Relation.ReflTransGen
        (fun x y => ∃ g ∈ scan s, g.tag.hasMsgpack = false ∧ Inserts g.tag.first.value x y)
        s (augment s).text ∧
      s.Sublist (augment s).text ∧
      (s.splitOn '\n').length = ((augment s).text.splitOn '\n').length ∧
      List.Forall₂ List.Sublist (s.splitOn '\n') ((augment s).text.splitOn '\n') := by
  have hrun : Relation.ReflTransGen
      (fun x y => ∃ g ∈ scan s, g.tag.hasMsgpack = false ∧ Inserts g.tag.first.value x y)
      s (augment s).text := by
    refine Relation.ReflTransGen.mono (fun x y ⟨t, ht, h⟩ => ?_) _ _
      (Augmentation.reflTransGen_foldl_step { text := s } ((scan s).map (·.tag)))
    obtain ⟨g, hg, rfl⟩ := List.mem_map.mp ht
    exact ⟨g, hg, h⟩
  obtain ⟨hsub, hlines⟩ := grown_of_reflTransGen
    (fun x y ⟨g, hg, _, h⟩ => ⟨g.tag.first.value, (valid_of_mem_scan hg).1.2, h⟩) hrun
  exact ⟨hrun, hsub, hlines.length_eq, hlines⟩

end StructTags
