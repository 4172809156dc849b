import StructTags.Text.Size
import StructTags.Text.Span

/-!
# Places in a text

Spans count bytes, while texts are lists of characters. This file says what a byte offset means in a
text:

* `StandsAt s i w`: the word `w` stands in `s` at the offset `i`, so `i` and `i + byteLength w` both
  lie between two characters (`Boundary`);
* `extract_encode`: the bytes of the UTF-8 form from one of these offsets to the other are those of
  the word;
* `exists_append_of_byteLength_le`: of two cuts of one text the one with fewer bytes in front is a
  cut of the other's front;
* `slice?`: the word between two offsets, if there is one (`slice?_eq_some_iff`).
-/

namespace StructTags.Text

/-! ## 1. Cuts -/

theorem eq_nil_of_byteLength_eq_zero {s : List Char} (h : byteLength s = 0) : s = [] := by
  have hlen := length_le_byteLength s
  exact List.length_eq_zero_iff.mp (by omega)

/-- Two cuts of one text: the one with fewer bytes in front cuts the front of the other. -/
theorem exists_append_of_byteLength_le {u v u' v' : List Char} (h : u ++ v = u' ++ v')
    (hle : byteLength u ≤ byteLength u') : ∃ w, u' = u ++ w ∧ v = w ++ v' := by
  rcases List.append_eq_append_iff.mp h with ⟨w, hu, hv⟩ | ⟨w, hu, hv⟩
  · exact ⟨w, hu, hv⟩
  · have hw : byteLength w = 0 := by
      have := congrArg byteLength hu
      rw [byteLength_append] at this
      omega
    obtain rfl := eq_nil_of_byteLength_eq_zero hw
    exact ⟨[], by rw [hu, List.append_nil, List.append_nil], hv.symm⟩

/-- Two cuts of one text at the first place of a character are the same. -/
theorem append_cons_inj {c : Char} {u v u' v' : List Char} (hu : c ∉ u) (hu' : c ∉ u')
    (h : u ++ c :: v = u' ++ c :: v') : u = u' ∧ v = v' := by
  rcases List.append_eq_append_iff.mp h with ⟨w, rfl, hw⟩ | ⟨w, rfl, hw⟩
  · cases w with
    | nil => exact ⟨(List.append_nil u).symm, (List.cons.inj hw).2⟩
    | cons d w =>
      rw [(List.cons.inj hw).1] at hu'
      exact absurd (List.mem_append_right _ List.mem_cons_self) hu'
  · cases w with
    | nil => exact ⟨List.append_nil u', (List.cons.inj hw).2.symm⟩
    | cons d w =>
      rw [(List.cons.inj hw).1] at hu
      exact absurd (List.mem_append_right _ List.mem_cons_self) hu

/-! ## 2. Words in place -/

/-- A byte offset lies between two characters of the text, or at one of its ends. -/
def Boundary (s : List Char) (i : Nat) : Prop := ∃ u v, s = u ++ v ∧ byteLength u = i

/-- A word stands in the text at a byte offset. -/
def StandsAt (s : List Char) (i : Nat) (w : List Char) : Prop :=
  ∃ u v, s = u ++ (w ++ v) ∧ byteLength u = i

section

variable {s w : List Char} {i : Nat}

theorem StandsAt.boundary_start (h : StandsAt s i w) : Boundary s i := by
  obtain ⟨u, v, hs, hi⟩ := h
  exact ⟨u, w ++ v, hs, hi⟩

theorem StandsAt.boundary_stop (h : StandsAt s i w) : Boundary s (i + byteLength w) := by
  obtain ⟨u, v, hs, hi⟩ := h
  exact ⟨u ++ w, v, by rw [hs, List.append_assoc], by rw [byteLength_append, hi]⟩

theorem StandsAt.stop_le (h : StandsAt s i w) : i + byteLength w ≤ byteLength s := by
  obtain ⟨u, v, hs, hi⟩ := h
  rw [hs, byteLength_append, byteLength_append]
  omega

/-- What stands in a word stands in the text. -/
theorem StandsAt.trans {x : List Char} {j : Nat} (h : StandsAt s i w) (h' : StandsAt w j x) :
    StandsAt s (i + j) x := by
  obtain ⟨u, v, hs, hi⟩ := h
  obtain ⟨u', v', hw, hj⟩ := h'
  exact ⟨u ++ u', v' ++ v, by rw [hs, hw]; simp, by rw [byteLength_append, hi, hj]⟩

/-- A word that stands within the bytes of another one is a part of it. -/
theorem StandsAt.inner {x : List Char} {j : Nat} (h : StandsAt s i w) (h' : StandsAt s j x)
    (hle : i ≤ j) (hstop : j + byteLength x ≤ i + byteLength w) :
    ∃ u v, w = u ++ (x ++ v) ∧ j = i + byteLength u := by
  obtain ⟨u, v, hs, rfl⟩ := h
  obtain ⟨u', v', hs', rfl⟩ := h'
  obtain ⟨y, rfl, hy⟩ := exists_append_of_byteLength_le (hs.symm.trans hs') hle
  rw [byteLength_append] at hstop ⊢
  rw [← List.append_assoc] at hy
  have hcut : byteLength (y ++ x) ≤ byteLength w := by
    rw [byteLength_append]
    omega
  obtain ⟨z, rfl, -⟩ := exists_append_of_byteLength_le hy.symm hcut
  exact ⟨y, z, List.append_assoc .., rfl⟩

/-- A word without some character does not reach over a place where this character stands. -/
theorem StandsAt.disjoint {c : Char} {j : Nat} (h : StandsAt s i w) (hc : StandsAt s j [c])
    (hnot : c ∉ w) : j + c.utf8Size ≤ i ∨ i + byteLength w ≤ j := by
  obtain ⟨u, v, hs, rfl⟩ := h
  obtain ⟨u', v', hs', rfl⟩ := hc
  by_cases hle : byteLength u ≤ byteLength u'
  · obtain ⟨y, rfl, hy⟩ := exists_append_of_byteLength_le (hs.symm.trans hs') hle
    rw [byteLength_append]
    by_cases hin : byteLength w ≤ byteLength y
    · exact .inr (Nat.add_le_add_left hin _)
    · obtain ⟨z, rfl, hz⟩ := exists_append_of_byteLength_le hy.symm (by omega)
      cases z with
      | nil =>
        rw [List.append_nil] at hin
        exact absurd (Nat.le_refl _) hin
      | cons d z =>
        rw [List.singleton_append, List.cons_append] at hz
        rw [(List.cons.inj hz).1] at hnot
        exact absurd (List.mem_append_right _ List.mem_cons_self) hnot
  · obtain ⟨y, rfl, hy⟩ := exists_append_of_byteLength_le (hs'.symm.trans hs) (by omega)
    cases y with
    | nil =>
      rw [List.append_nil] at hle
      exact absurd (Nat.le_refl _) hle
    | cons d y =>
      rw [List.singleton_append, List.cons_append] at hy
      rw [(List.cons.inj hy).1, byteLength_append, byteLength_cons]
      exact .inl (by omega)

end

/-! ## 3. Bytes -/

theorem encode_append (s t : List Char) : encode (s ++ t) = encode s ++ encode t := by
  simp [encode, String.ofList_append]

theorem size_encode (s : List Char) : (encode s).size = byteLength s := by
  induction s with
  | nil => rfl
  | cons c s ih =>
    rw [← List.singleton_append, encode_append, ByteArray.size_append, ih, byteLength_append]
    simp [encode, List.utf8Encode_singleton]

/-- The bytes from where a word starts up to where it stops are the word's. -/
theorem extract_encode {s w : List Char} {i : Nat} (h : StandsAt s i w) :
    (encode s).extract i (i + byteLength w) = encode w := by
  obtain ⟨u, v, rfl, rfl⟩ := h
  have hin := ByteArray.extract_append_size_add' (a := encode u) (b := encode w ++ encode v)
    (i := 0) (j := byteLength w) (size_encode u).symm
  rw [Nat.add_zero] at hin
  rw [encode_append, encode_append, hin]
  exact ByteArray.extract_append_eq_left (size_encode w).symm

/-! ## 4. Slices -/

/-- The two sides of a byte offset, if it lies between two characters or at one of the ends. -/
def cutAt? : Nat → List Char → Option (List Char × List Char)
  | 0, s => some ([], s)
  | _ + 1, [] => none
  | n + 1, c :: cs =>
    if c.utf8Size ≤ n + 1 then
      (cutAt? (n + 1 - c.utf8Size) cs).map fun cut => (c :: cut.1, cut.2)
    else none

/-- The part of a text from one byte offset up to another. -/
def slice? (s : List Char) (start stop : Nat) : Option (List Char) :=
  (cutAt? stop s).bind fun cut => (cutAt? start cut.1).map Prod.snd

theorem cutAt?_zero_iff {s u v : List Char} :
    cutAt? 0 s = some (u, v) ↔ s = u ++ v ∧ byteLength u = 0 := by
  rw [cutAt?, Option.some.injEq, Prod.mk.injEq]
  constructor
  · intro ⟨hu, hv⟩
    rw [← hu, ← hv]
    exact ⟨rfl, rfl⟩
  · intro ⟨h, hn⟩
    obtain rfl := eq_nil_of_byteLength_eq_zero hn
    exact ⟨rfl, h⟩

theorem cutAt?_eq_some_iff {s u v : List Char} {n : Nat} :
    cutAt? n s = some (u, v) ↔ s = u ++ v ∧ byteLength u = n := by
  induction s generalizing n u with
  | nil =>
    cases n with
    | zero => exact cutAt?_zero_iff
    | succ n =>
      refine iff_of_false (fun h => by cases h) fun ⟨h, hn⟩ => ?_
      rw [(List.append_eq_nil_iff.mp h.symm).1] at hn
      cases hn
  | cons c cs ih =>
    have hpos := c.utf8Size_pos
    cases n with
    | zero => exact cutAt?_zero_iff
    | succ n =>
      rw [cutAt?, Option.ite_none_right_eq_some]
      constructor
      · intro ⟨hle, h⟩
        obtain ⟨⟨u', v'⟩, hcut, heq⟩ := Option.map_eq_some_iff.mp h
        obtain ⟨rfl, rfl⟩ := Prod.mk.inj heq
        obtain ⟨rfl, hn⟩ := ih.mp hcut
        refine ⟨rfl, ?_⟩
        show c.utf8Size + byteLength u' = n + 1
        omega
      · intro ⟨h, hn⟩
        cases u with
        | nil => cases hn
        | cons d u =>
          obtain ⟨rfl, hcs⟩ := List.cons.inj h
          rw [byteLength_cons] at hn
          refine ⟨by omega, ?_⟩
          rw [ih.mpr ⟨hcs, by omega⟩]
          rfl

/-- A slice is the word that stands between its two ends. -/
theorem slice?_eq_some_iff {s w : List Char} {start stop : Nat} :
    slice? s start stop = some w ↔ StandsAt s start w ∧ stop = start + byteLength w := by
  unfold slice?
  constructor
  · intro h
    obtain ⟨⟨front, v⟩, hstop, h⟩ := Option.bind_eq_some_iff.mp h
    obtain ⟨⟨u, w'⟩, hstart, rfl⟩ := Option.map_eq_some_iff.mp h
    obtain ⟨rfl, rfl⟩ := cutAt?_eq_some_iff.mp hstop
    obtain ⟨rfl, rfl⟩ := cutAt?_eq_some_iff.mp hstart
    exact ⟨⟨u, v, List.append_assoc .., rfl⟩, byteLength_append ..⟩
  · intro ⟨⟨u, v, hs, hu⟩, hstop⟩
    have hcut : cutAt? stop s = some (u ++ w, v) := by
      refine cutAt?_eq_some_iff.mpr ⟨by rw [hs, List.append_assoc], ?_⟩
      rw [byteLength_append, hu, hstop]
    rw [hcut, Option.bind_some, cutAt?_eq_some_iff.mpr ⟨rfl, hu⟩]
    rfl

/-! ## 5. Spans one behind the other -/

section

variable {before after : List Span} {o last : Span} {i : Nat}

/-- Spans that stand one behind the other: each stops before the last of them does. -/
theorem stop_le_of_mem_of_getLast? (hpair : before.Pairwise fun a b => a.stop ≤ b.start)
    (hpos : ∀ a ∈ before, a.start < a.stop) (ho : o ∈ before) (hlast : last ∈ before.getLast?) :
    o.stop ≤ last.stop := by
  obtain ⟨init, rfl⟩ := List.getLast?_eq_some_iff.mp hlast
  rcases List.mem_append.mp ho with ho | ho
  · have hbefore := (List.pairwise_append.mp hpair).2.2 o ho last (List.mem_singleton_self _)
    have hlt := hpos last (List.mem_append_right init (List.mem_singleton_self _))
    exact Nat.le_trans hbefore (Nat.le_of_lt hlt)
  · exact Nat.le_of_eq (congrArg Span.stop (List.mem_singleton.mp ho))

/-- Of spans that stand one behind the other, one that reaches over an offset behind the first few
    of them comes next or later. -/
theorem exists_head?_of_mem (hpair : (before ++ after).Pairwise fun a b => a.stop ≤ b.start)
    (hpos : ∀ a ∈ before ++ after, a.start < a.stop) (ho : o ∈ before ++ after) (hle : o.start ≤ i)
    (hlt : i < o.stop) (hbefore : ∀ a ∈ before.getLast?, a.stop ≤ i) :
    ∃ a ∈ after.head?, a.start ≤ i := by
  obtain ⟨hfront, hback, -⟩ := List.pairwise_append.mp hpair
  have hafter : o ∈ after := by
    rcases List.mem_append.mp ho with ho | ho
    · -- a span in front of the last one before `i` stops even earlier
      have hlast := List.getLast?_eq_some_getLast (List.ne_nil_of_mem ho)
      have hstop := stop_le_of_mem_of_getLast? hfront
        (fun a ha => hpos a (List.mem_append_left after ha)) ho hlast
      have := hbefore _ hlast
      omega
    · exact ho
  cases after with
  | nil => exact absurd hafter List.not_mem_nil
  | cons head rest =>
    refine ⟨head, rfl, ?_⟩
    rcases List.mem_cons.mp hafter with rfl | hrest
    · exact hle
    · have hhead := (List.pairwise_cons.mp hback).1 o hrest
      have := hpos head (List.mem_append_right before List.mem_cons_self)
      omega

end

end StructTags.Text
