import StructTags.Proofs.Augment.Insertion
import StructTags.Proofs.Text.Words

/-!
# A pair and the msgpack pair behind it

What augmenting writes is a pair, a space and a msgpack pair. This file says what an insertion does
to such words, whose values have no quotes:

* `Pair.followedBy`: the pair with a msgpack pair behind it;
* `Pair.suffix_cases`: a pair that ends where another one ends is this other one, or the end of its
  value;
* `Pair.stem_isSuffix_of_overlap`: a pair that starts inside itself has a value that ends in a stem;
* **`Pair.followedBy_of_insert`**: where such a word is new, its first pair is the one that the
  segment was put in behind, or the end of this pair's value, or the msgpack pair of the segment;
* **`Pair.followedBy_insert`**: a word that is there stays, unless the segment is put in between its
  pairs.
-/

namespace StructTags

/-! ## 1. Stems -/

namespace Scheme

/-- What stands in front of the opening quote: the name and a colon. -/
def stem (s : Scheme) : List Char := s.name ++ [':']

theorem lead_eq_stem (s : Scheme) : s.lead = s.stem ++ [quote] := by cases s <;> rfl

theorem quote_notMem_stem (s : Scheme) : quote ∉ s.stem := by cases s <;> decide

/-- Texts that end in the stems of two schemes differ. -/
theorem eq_of_append_stem_eq {s s' : Scheme} {u u' : List Char}
    (h : u ++ s.stem = u' ++ s'.stem) : s = s' := by
  have hlast := congrArg List.reverse h
  cases s <;> cases s' <;> simp [stem, name] at hlast ⊢

end Scheme

theorem blank_notMem {s : List Char} (h : Text.Solid s) : ' ' ∉ s := h.notMem (by decide)

namespace Pair

theorem raw_eq_stem (a : Pair) : a.raw = a.scheme.stem ++ quote :: (a.value ++ [quote]) := by
  simp [raw, Scheme.lead_eq_stem]

theorem blank_notMem_raw {a : Pair} (h : Text.Solid a.value) : ' ' ∉ a.raw :=
  blank_notMem (solid_raw h)

/-! ## 2. Words -/

/-- A pair and, behind a space, the msgpack pair with the given value. -/
def followedBy (a : Pair) (y : List Char) : List Char := a.raw ++ segment y

/-- A pair without further quotes that ends where another pair ends is this pair, or its value ends
    in the first one. -/
theorem suffix_cases {a b : Pair} {front : List Char} (ha : quote ∉ a.value)
    (h : a.raw <:+ front ++ b.raw) : a = b ∨ a.scheme.lead ++ a.value <:+ b.value := by
  obtain ⟨w, hw⟩ := h
  have hcut : (w ++ a.scheme.stem) ++ quote :: a.value =
      (front ++ b.scheme.stem) ++ quote :: b.value := by
    have hquote : (w ++ a.scheme.stem ++ quote :: a.value) ++ [quote] =
        (front ++ b.scheme.stem ++ quote :: b.value) ++ [quote] := by
      rw [raw_eq_stem, raw_eq_stem] at hw
      simpa using hw
    exact List.append_cancel_right hquote
  rcases Text.append_cons_cases_last ha hcut with ⟨hstem, hvalue⟩ | ⟨z, hstem, hvalue⟩
  · exact .inl (congrArg₂ mk (Scheme.eq_of_append_stem_eq hstem).symm hvalue.symm)
  · obtain ⟨y, rfl⟩ := Text.isSuffix_of_notMem a.scheme.quote_notMem_stem ⟨w, hstem⟩
    exact .inr ⟨y, by rw [hvalue, Scheme.lead_eq_stem]; simp⟩

/-- A pair without further quotes that starts inside itself has a value that ends in its stem. -/
theorem stem_isSuffix_of_overlap {a : Pair} {x y : List Char} (ha : quote ∉ a.value)
    (hcut : a.raw = x ++ y) (hx : x ≠ []) (hy : y ≠ []) (hagain : y <+: a.raw) :
    a.scheme.stem <:+ a.value := by
  obtain ⟨w, c, rfl⟩ := (List.eq_nil_or_concat y).resolve_left hy
  have hraw : a.raw = (a.scheme.stem ++ quote :: a.value) ++ [quote] := by simp [raw_eq_stem]
  rw [List.concat_eq_append, ← List.append_assoc, hraw] at hcut
  obtain ⟨hfront, hc⟩ := List.append_inj' hcut rfl
  obtain rfl : quote = c := (List.cons.inj hc).1
  obtain ⟨z, hz⟩ := hagain
  have hword : a.scheme.stem ++ quote :: (a.value ++ [quote]) = w ++ quote :: z := by
    rw [← raw_eq_stem, ← hz]
    simp
  -- the last quote of the part is the first one of the pair, or else the part is the whole pair
  rcases Text.append_cons_cases a.scheme.quote_notMem_stem hword with ⟨rfl, -⟩ | ⟨p, rfl, hp⟩
  · exact Text.isSuffix_of_notMem a.scheme.quote_notMem_stem ⟨x, hfront.symm⟩
  · rcases Text.append_cons_cases ha hp with ⟨rfl, -⟩ | ⟨q, -, hq⟩
    · exact absurd (List.self_eq_append_left.mp hfront) hx
    · exact absurd hq (by simp)

/-- A word at the start of a msgpack pair is this pair, with the segment behind it. -/
theorem followedBy_isPrefix_msgpack {a : Pair} {y v rest : List Char} (ha : quote ∉ a.value)
    (hv : Text.Solid v) (h : a.followedBy y <+: (Pair.mk .msgpack v).raw ++ rest) :
    a = ⟨.msgpack, v⟩ ∧ segment y <+: rest := by
  obtain ⟨scheme, x⟩ := a
  obtain ⟨r, hr⟩ := h
  cases scheme with
  | json => exact absurd (List.cons.inj hr).1 (by decide)
  | msgpack =>
    have hlead : Scheme.msgpack.lead ++ (x ++ quote :: (segment y ++ r)) =
        Scheme.msgpack.lead ++ (v ++ quote :: rest) := by
      simpa [followedBy, raw] using hr
    rcases Text.append_cons_cases ha (List.append_cancel_left hlead) with
      ⟨hvalue, hrest⟩ | ⟨z, hvalue, hrest⟩
    · exact ⟨congrArg (Pair.mk .msgpack) hvalue.symm, r, hrest.symm⟩
    · -- the blank of the segment would stand in the value
      cases z with
      | nil => exact absurd (List.cons.inj hrest).1 (by decide)
      | cons d z =>
        obtain ⟨rfl, -⟩ := List.cons.inj hrest
        refine absurd ?_ (blank_notMem hv)
        rw [hvalue]
        simp

/-- Where a quoted text without blanks stands in a word, it is the first value, or nothing follows
    it. -/
theorem followedBy_eq_cases {a : Pair} {y front v rest : List Char} (ha : quote ∉ a.value)
    (hy : quote ∉ y) (hv : ' ' ∉ v)
    (h : a.followedBy y = front ++ quote :: (v ++ quote :: rest)) :
    (front = a.scheme.stem ∧ v = a.value ∧ rest = segment y) ∨ rest = [] := by
  have hblank (t : List Char) : ' ' :: t ≠ v ++ quote :: rest := fun heq => by
    cases v with
    | nil => exact absurd (List.cons.inj heq).1 (by decide)
    | cons d v =>
      rw [← (List.cons.inj heq).1] at hv
      exact hv List.mem_cons_self
  have hsegment : segment y = (' ' :: Scheme.msgpack.stem) ++ quote :: (y ++ [quote]) := by
    rw [segment, raw_eq_stem]
    rfl
  have hstem : quote ∉ ' ' :: Scheme.msgpack.stem := by decide
  have hword : a.followedBy y =
      a.scheme.stem ++ quote :: (a.value ++ quote :: segment y) := by
    simp [followedBy, raw_eq_stem]
  rw [hword] at h
  -- the text is opened by the first, second, third or fourth quote of the word
  rcases Text.append_cons_cases a.scheme.quote_notMem_stem h with ⟨hfront, h⟩ | ⟨z, -, h⟩
  · rcases Text.append_cons_cases ha h.symm with ⟨hvalue, hrest⟩ | ⟨z, hvalue, hrest⟩
    · exact .inl ⟨hfront, hvalue, hrest⟩
    · cases z with
      | nil => exact absurd (List.cons.inj hrest).1 (by decide)
      | cons d z =>
        rw [hvalue, ← (List.cons.inj hrest).1] at hv
        exact absurd (List.mem_append_right _ (List.mem_cons_of_mem _ List.mem_cons_self)) hv
  · rcases Text.append_cons_cases ha h with ⟨-, h⟩ | ⟨z, -, h⟩
    · exact absurd h.symm (hblank _)
    · rw [hsegment] at h
      rcases Text.append_cons_cases hstem h with ⟨-, h⟩ | ⟨z, -, h⟩
      · rcases Text.append_cons_cases hy h.symm with ⟨-, hrest⟩ | ⟨z, -, hrest⟩
        · exact .inr hrest
        · exact absurd hrest.symm (by simp)
      · rcases Text.append_cons_cases hy h with ⟨-, hrest⟩ | ⟨z, -, hrest⟩
        · exact absurd hrest.symm (by simp)
        · exact absurd hrest (by simp)

/-! ## 3. Insertions -/

section

variable {a : Pair} {y v front rest : List Char}

/-- A word that stands in the msgpack pair of a value or behind it starts there, or stood behind the
    value before. -/
theorem followedBy_isInfix_msgpack (h : a.followedBy y <:+: (Pair.mk .msgpack v).raw ++ rest) :
    a.followedBy y <+: (Pair.mk .msgpack v).raw ++ rest ∨
      a.followedBy y <:+: v ++ quote :: rest := by
  obtain ⟨c, w, hc, hw⟩ : ∃ c w, c ∉ ['s', 'g', 'p', 'a', 'c', 'k', ':', quote] ∧
      a.followedBy y = c :: w := by
    obtain ⟨scheme, value⟩ := a
    cases scheme
    · exact ⟨'j', _, by decide, rfl⟩
    · exact ⟨'m', _, by decide, rfl⟩
  have htext : (Pair.mk .msgpack v).raw ++ rest =
      'm' :: (['s', 'g', 'p', 'a', 'c', 'k', ':', quote] ++ (v ++ quote :: rest)) := by
    simp [raw, Scheme.lead]
  rw [hw, htext] at h ⊢
  exact (List.infix_cons_iff.mp h).imp_right (Text.cons_isInfix_of_notMem hc)

/-- **Where a word comes from.** It was there before; or its first pair is the one that the segment
    is put in behind; or the value of this pair ends in it; or it is the msgpack pair of the
    segment, in front of another segment. -/
theorem followedBy_of_insert (ha : quote ∉ a.value) (hsolid : Text.Solid a.value)
    (hy : Text.Solid y) (hv : Text.Solid v)
    (h : a.followedBy y <:+: front ++ ((Pair.mk .json v).raw ++ (segment v ++ rest))) :
    a.followedBy y <:+: front ++ ((Pair.mk .json v).raw ++ rest) ∨ a = ⟨.json, v⟩ ∨
      a.scheme.lead ++ a.value <:+ v ∨ (a = ⟨.msgpack, v⟩ ∧ segment y <+: rest) := by
  have htext : front ++ ((Pair.mk .json v).raw ++ (segment v ++ rest)) =
      (front ++ (Pair.mk .json v).raw) ++ ' ' :: ((Pair.mk .msgpack v).raw ++ rest) := by
    simp [segment]
  rw [htext] at h
  rcases Text.isInfix_cases (blank_notMem_raw hsolid)
    (blank_notMem_raw (a := ⟨.msgpack, y⟩) hy) h with ⟨hpair, -⟩ | hfront | hback
  · exact .inr ((suffix_cases ha hpair).imp_right .inl)
  · rw [← List.append_assoc]
    exact .inl (hfront.trans (List.prefix_append _ rest).isInfix)
  · rcases followedBy_isInfix_msgpack hback with hstart | hvalue
    · exact .inr (.inr (.inr (followedBy_isPrefix_msgpack ha hv hstart)))
    · refine .inl (hvalue.trans ⟨front ++ Scheme.json.lead, [], ?_⟩)
      simp [raw]

/-- What reaches from the value over its closing quote is there again behind the segment. -/
theorem isInfix_insert_again {x z : List Char} (hx : x <:+ v ++ [quote]) (hz : z <+: rest) :
    x ++ z <:+: front ++ ((Pair.mk .json v).raw ++ (segment v ++ rest)) := by
  obtain ⟨p, hp⟩ := hx
  obtain ⟨r, rfl⟩ := hz
  have hsegment : segment v = (' ' :: Scheme.msgpack.lead) ++ (v ++ [quote]) := by
    simp [segment, raw]
  refine ⟨front ++ ((Pair.mk .json v).raw ++ (' ' :: Scheme.msgpack.lead) ++ p), r, ?_⟩
  rw [hsegment, ← hp]
  simp

/-- Any word that is there stays, unless it reaches over both quotes of the value and beyond. -/
theorem isInfix_insert_or {w : List Char} (h : w <:+: front ++ ((Pair.mk .json v).raw ++ rest)) :
    w <:+: front ++ ((Pair.mk .json v).raw ++ (segment v ++ rest)) ∨
      ∃ x z, w = x ++ quote :: (v ++ quote :: z) ∧ x <:+ front ++ Scheme.json.stem ∧ z ≠ [] := by
  have hinfront (hw : w <:+: front ++ (Pair.mk .json v).raw) :
      w <:+: front ++ ((Pair.mk .json v).raw ++ (segment v ++ rest)) := by
    rw [← List.append_assoc]
    exact hw.trans (List.prefix_append _ _).isInfix
  rw [← List.append_assoc] at h
  rcases List.infix_append_iff.mp h with hfront | hback | ⟨y, z, rfl, hy, hz⟩
  · exact .inl (hinfront hfront)
  · exact .inl (hback.trans ⟨front ++ ((Pair.mk .json v).raw ++ segment v), [], by simp⟩)
  · by_cases hne : z = []
    · rw [hne, List.append_nil] at hinfront ⊢
      exact .inl (hinfront hy.isInfix)
    · have hraw : front ++ (Pair.mk .json v).raw =
          ((front ++ Scheme.json.stem) ++ [quote]) ++ (v ++ [quote]) := by
        rw [raw_eq_stem]
        simp
      rw [hraw] at hy
      rcases List.suffix_or_suffix_of_suffix hy (List.suffix_append _ _) with hshort | ⟨x, rfl⟩
      · exact .inl (isInfix_insert_again hshort hz)
      · -- the word reaches back over the value, so it starts with its opening quote or before
        rcases List.suffix_concat_iff.mp (List.suffix_append_self_iff.mp hy) with
          rfl | ⟨x, rfl, hx⟩
        · exact .inl (isInfix_insert_again (List.suffix_refl _) hz)
        · exact .inr ⟨x, z, by simp, hx, hne⟩

/-- **A word that is there stays**, unless the segment is put in between its pairs. -/
theorem followedBy_insert (ha : quote ∉ a.value) (hy : quote ∉ y) (hv : Text.Solid v)
    (hbetween : a = ⟨.json, v⟩ → y = v)
    (h : a.followedBy y <:+: front ++ ((Pair.mk .json v).raw ++ rest)) :
    a.followedBy y <:+: front ++ ((Pair.mk .json v).raw ++ (segment v ++ rest)) := by
  rcases isInfix_insert_or h with hstays | ⟨x, z, hword, ⟨p, hp⟩, hne⟩
  · exact hstays
  · obtain ⟨rfl, rfl, rfl⟩ :=
      (followedBy_eq_cases ha hy (blank_notMem hv) hword).resolve_right hne
    obtain ⟨scheme, value⟩ := a
    obtain rfl : scheme = .json := Scheme.eq_of_append_stem_eq hp
    rw [hbetween rfl]
    exact ⟨front, rest, by simp [followedBy]⟩

end

end Pair

end StructTags
