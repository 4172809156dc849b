import StructTags.Augment.Replace
import StructTags.Proofs.Text.Place

/-!
# Occurrences and insertions

A replacement that keeps the needle and puts a segment behind it only inserts. This file says where:

* `occurrences`: the occurrences of a needle that a replacement finds, from left to right without
  overlap;
* `exposed`: those of them that overlap no tag with msgpack;
* `insertAfter`: a text with a segment put in at some of its byte offsets;
* **`replaceUnprotected_eq_insertAfter`**: the replacement puts the segment behind the exposed
  occurrences, and changes nothing else;
* `exists_occurrence_of_standsAt`: where the needle stands, an occurrence was found that reaches
  there.
-/

namespace StructTags

/-! ## 1. Occurrences -/

/-- The occurrences of a needle in a text at a byte offset; the search goes on behind each. -/
def occurrencesFrom (needle : List Char) (offset : Nat) : List Char → List Span
  | [] => []
  | c :: cs =>
    if beginsWith needle (c :: cs) then
      ⟨offset, offset + Text.byteLength needle⟩ ::
        occurrencesFrom needle (offset + Text.byteLength needle) (cs.drop (needle.length - 1))
    else occurrencesFrom needle (offset + c.utf8Size) cs
termination_by s => s.length

/-- The occurrences of a needle that are found in a text. -/
def occurrences (needle s : List Char) : List Span := occurrencesFrom needle 0 s

/-- The occurrences found that overlap no tag with msgpack. -/
def exposed (needle s : List Char) : List Span :=
  (occurrences needle s).filter fun o => !(msgpackSpans s).any o.overlaps

section

variable {needle : List Char}

theorem occurrencesFrom_nil (offset : Nat) : occurrencesFrom needle offset [] = [] := by
  rw [occurrencesFrom]

theorem occurrencesFrom_of_not_beginsWith {offset : Nat} {c : Char} {cs : List Char}
    (h : beginsWith needle (c :: cs) = false) :
    occurrencesFrom needle offset (c :: cs) = occurrencesFrom needle (offset + c.utf8Size) cs := by
  rw [occurrencesFrom, if_neg (by rw [h]; exact Bool.false_ne_true)]

theorem occurrencesFrom_needle (hne : needle ≠ []) (offset : Nat) (rest : List Char) :
    occurrencesFrom needle offset (needle ++ rest) =
      ⟨offset, offset + Text.byteLength needle⟩ ::
        occurrencesFrom needle (offset + Text.byteLength needle) rest := by
  obtain ⟨c, cs, rfl⟩ := List.exists_cons_of_ne_nil hne
  rw [List.cons_append, occurrencesFrom,
    if_pos (beginsWith_iff.mpr ⟨hne, rest, (List.cons_append ..).symm⟩)]
  simp

/-- Induction along a search: the text is empty, or begins with the needle, or does not. -/
theorem search_induction (needle : List Char) {motive : List Char → Prop} (nil : motive [])
    (found : needle ≠ [] → ∀ rest, motive rest → motive (needle ++ rest))
    (skip : ∀ c cs, beginsWith needle (c :: cs) = false → motive cs → motive (c :: cs)) :
    ∀ s, motive s := by
  intro s
  induction hn : s.length using Nat.strongRecOn generalizing s with
  | ind n ih =>
    cases s with
    | nil => exact nil
    | cons c cs =>
      cases hb : beginsWith needle (c :: cs) with
      | false =>
        refine skip c cs hb (ih cs.length ?_ cs rfl)
        rw [← hn, List.length_cons]
        exact Nat.lt_succ_self _
      | true =>
        obtain ⟨hne, rest, hrest⟩ := beginsWith_iff.mp hb
        rw [hrest]
        refine found hne rest (ih rest.length ?_ rest rfl)
        have hpos := List.length_pos_iff.mpr hne
        rw [← hn, hrest, List.length_append]
        omega

/-- An occurrence found stands in the text. -/
theorem standsAt_of_mem_occurrencesFrom {s : List Char} (u : List Char) {o : Span}
    (h : o ∈ occurrencesFrom needle (Text.byteLength u) s) :
    Text.StandsAt (u ++ s) o.start needle ∧ o.stop = o.start + Text.byteLength needle := by
  induction s using search_induction needle generalizing u with
  | nil => rw [occurrencesFrom_nil] at h; exact absurd h List.not_mem_nil
  | found hne rest ih =>
    rw [occurrencesFrom_needle hne] at h
    rcases List.mem_cons.mp h with rfl | h
    · exact ⟨⟨u, rest, rfl, rfl⟩, rfl⟩
    · rw [← Text.byteLength_append] at h
      have := ih (u ++ needle) h
      rw [List.append_assoc] at this
      exact this
  | skip c cs hb ih =>
    rw [occurrencesFrom_of_not_beginsWith hb] at h
    have hc : Text.byteLength u + c.utf8Size = Text.byteLength (u ++ [c]) := by simp
    rw [hc] at h
    have := ih (u ++ [c]) h
    rw [List.append_assoc] at this
    exact this

theorem byteLength_pos (hne : needle ≠ []) : 0 < Text.byteLength needle := by
  have hlen := Text.length_le_byteLength needle
  have hpos := List.length_pos_iff.mpr hne
  omega

/-- Where the needle stands, an occurrence was found that starts there or reaches there. -/
theorem exists_occurrence_of_standsAt {s : List Char} (hne : needle ≠ []) (offset : Nat) {i : Nat}
    (h : Text.StandsAt s i needle) :
    ∃ o ∈ occurrencesFrom needle offset s, o.start ≤ offset + i ∧ offset + i < o.stop := by
  obtain ⟨u, v, hs, rfl⟩ := h
  have hpos := byteLength_pos hne
  induction s using search_induction needle generalizing u offset with
  | nil =>
    have hnil := (List.append_eq_nil_iff.mp hs.symm).2
    exact absurd (List.append_eq_nil_iff.mp hnil).1 hne
  | found _ rest ih =>
    rw [occurrencesFrom_needle hne]
    by_cases hin : Text.byteLength u < Text.byteLength needle
    · exact ⟨_, List.mem_cons_self, Nat.le_add_right _ _, Nat.add_lt_add_left hin _⟩
    · obtain ⟨w, rfl, hw⟩ := Text.exists_append_of_byteLength_le hs (by omega)
      obtain ⟨o, ho, hle, hlt⟩ := ih (offset + Text.byteLength needle) w hw
      rw [Text.byteLength_append]
      exact ⟨o, List.mem_cons_of_mem _ ho, by omega, by omega⟩
  | skip c cs hb ih =>
    rw [occurrencesFrom_of_not_beginsWith hb]
    cases u with
    | nil =>
      have hbegins : beginsWith needle (c :: cs) = true :=
        beginsWith_iff.mpr ⟨hne, v, hs⟩
      rw [hb] at hbegins
      cases hbegins
    | cons d u =>
      rw [List.cons_append] at hs
      obtain ⟨rfl, hrest⟩ := List.cons.inj hs
      obtain ⟨o, ho, hle, hlt⟩ := ih (offset + c.utf8Size) u hrest
      rw [Text.byteLength_cons]
      exact ⟨o, ho, by omega, by omega⟩

end

/-! ## 2. Insertions -/

/-- A text at a byte offset, with a segment put in at each of the given offsets that lies behind a
    character of it. -/
def insertAfter (segment : List Char) (sites : List Nat) (offset : Nat) : List Char → List Char
  | [] => []
  | c :: cs =>
    c :: ((if offset + c.utf8Size ∈ sites then segment else []) ++
      insertAfter segment sites (offset + c.utf8Size) cs)

section

variable {segment : List Char} {sites : List Nat}

theorem insertAfter_append (offset : Nat) (u v : List Char) :
    insertAfter segment sites offset (u ++ v) = insertAfter segment sites offset u ++
      insertAfter segment sites (offset + Text.byteLength u) v := by
  induction u generalizing offset with
  | nil => rfl
  | cons c u ih =>
    rw [List.cons_append, insertAfter, insertAfter, ih, Text.byteLength_cons, Nat.add_assoc]
    simp

/-- Nothing is put in at the very start. -/
theorem head?_insertAfter (offset : Nat) (s : List Char) :
    (insertAfter segment sites offset s).head? = s.head? := by cases s <;> rfl

/-- A character that is not there before, and not in a segment that is put in, is not there
    afterwards. -/
theorem notMem_insertAfter {c : Char} {offset : Nat} {s : List Char} (hs : c ∉ s)
    (h : ∀ e ∈ sites, e ≤ offset + Text.byteLength s → c ∉ segment) :
    c ∉ insertAfter segment sites offset s := by
  induction s generalizing offset with
  | nil => exact hs
  | cons d s ih =>
    rw [List.mem_cons, not_or] at hs
    rw [Text.byteLength_cons] at h
    have hhere : c ∉ if offset + d.utf8Size ∈ sites then segment else [] := by
      split
      · rename_i hsite
        exact h _ hsite (by omega)
      · exact List.not_mem_nil
    have hrest : c ∉ insertAfter segment sites (offset + d.utf8Size) s :=
      ih hs.2 fun e he hle => h e he (by omega)
    rw [insertAfter, List.mem_cons, List.mem_append]
    exact fun hmem => hmem.elim hs.1 fun hmem => hmem.elim hhere hrest

/-- Without sites nothing is inserted. -/
theorem insertAfter_nil (offset : Nat) (s : List Char) :
    insertAfter segment [] offset s = s := by
  induction s generalizing offset with
  | nil => rfl
  | cons c cs ih => rw [insertAfter, ih, if_neg List.not_mem_nil, List.nil_append]

/-- Only the sites behind the start of the text count. -/
theorem insertAfter_congr {sites' : List Nat} (segment : List Char) (offset : Nat)
    (h : ∀ e, offset < e → (e ∈ sites ↔ e ∈ sites')) (s : List Char) :
    insertAfter segment sites offset s = insertAfter segment sites' offset s := by
  induction s generalizing offset with
  | nil => rfl
  | cons c cs ih =>
    have hpos := c.utf8Size_pos
    rw [insertAfter, insertAfter, ih _ fun e he => h e (by omega)]
    simp only [h (offset + c.utf8Size) (by omega)]

/-- In a word that holds no site inside nothing is inserted, but behind it there may be. -/
theorem insertAfter_of_no_site (segment : List Char) (offset : Nat) {w : List Char} (hne : w ≠ [])
    (h : ∀ e ∈ sites, e ≤ offset ∨ offset + Text.byteLength w ≤ e) :
    insertAfter segment sites offset w =
      w ++ if offset + Text.byteLength w ∈ sites then segment else [] := by
  induction w generalizing offset with
  | nil => exact absurd rfl hne
  | cons c cs ih =>
    have hpos := c.utf8Size_pos
    cases cs with
    | nil =>
      have hsize : Text.byteLength [c] = c.utf8Size := rfl
      rw [hsize, insertAfter, insertAfter, List.append_nil]
      rfl
    | cons d ds =>
      have hd := d.utf8Size_pos
      have hsite : offset + c.utf8Size ∉ sites := fun hmem => by
        have := h _ hmem
        rw [Text.byteLength_cons, Text.byteLength_cons] at this
        omega
      have hrest : ∀ e ∈ sites, e ≤ offset + c.utf8Size ∨
          offset + c.utf8Size + Text.byteLength (d :: ds) ≤ e := fun e he => by
        have := h e he
        rw [Text.byteLength_cons] at this
        by_cases hle : e ≤ offset
        · omega
        · omega
      rw [insertAfter, if_neg hsite, List.nil_append, ih _ (List.cons_ne_nil _ _) hrest,
        Text.byteLength_cons c, Nat.add_assoc]
      rfl

/-- A word with no site inside or right behind it stays as it is. -/
theorem insertAfter_eq_self (segment : List Char) (offset : Nat) {w : List Char}
    (h : ∀ e ∈ sites, e ≤ offset ∨ offset + Text.byteLength w < e) :
    insertAfter segment sites offset w = w := by
  cases w with
  | nil => rfl
  | cons c cs =>
    have hinside : ∀ e ∈ sites, e ≤ offset ∨ offset + Text.byteLength (c :: cs) ≤ e :=
      fun e he => (h e he).imp_right Nat.le_of_lt
    have hbehind : offset + Text.byteLength (c :: cs) ∉ sites := fun he => by
      have := h _ he
      have hpos := c.utf8Size_pos
      rw [Text.byteLength_cons] at this
      omega
    rw [insertAfter_of_no_site segment offset (List.cons_ne_nil c cs) hinside, if_neg hbehind,
      List.append_nil]

end

section

variable {needle : List Char}

theorem ne_nil_of_mem_occurrencesFrom {s : List Char} {offset : Nat} {o : Span}
    (h : o ∈ occurrencesFrom needle offset s) : needle ≠ [] := by
  induction s using search_induction needle generalizing offset with
  | nil => rw [occurrencesFrom_nil] at h; exact absurd h List.not_mem_nil
  | found hne rest ih => exact hne
  | skip c cs hb ih =>
    rw [occurrencesFrom_of_not_beginsWith hb] at h
    exact ih h

/-- An occurrence that is found starts at the offset or behind it, and is as long as the needle. -/
theorem bounds_of_mem_occurrencesFrom {s : List Char} {offset : Nat} {o : Span}
    (h : o ∈ occurrencesFrom needle offset s) :
    offset ≤ o.start ∧ o.stop = o.start + Text.byteLength needle := by
  induction s using search_induction needle generalizing offset with
  | nil => rw [occurrencesFrom_nil] at h; exact absurd h List.not_mem_nil
  | found hne rest ih =>
    rw [occurrencesFrom_needle hne] at h
    rcases List.mem_cons.mp h with rfl | h
    · exact ⟨Nat.le_refl _, rfl⟩
    · obtain ⟨hle, hstop⟩ := ih h
      exact ⟨by omega, hstop⟩
  | skip c cs hb ih =>
    rw [occurrencesFrom_of_not_beginsWith hb] at h
    obtain ⟨hle, hstop⟩ := ih h
    exact ⟨by omega, hstop⟩

/-- An occurrence that is found stops behind the offset by at least the needle. -/
theorem stop_of_mem_occurrencesFrom {s : List Char} {offset : Nat} {o : Span}
    (h : o ∈ occurrencesFrom needle offset s) : offset + Text.byteLength needle ≤ o.stop := by
  obtain ⟨hle, hstop⟩ := bounds_of_mem_occurrencesFrom h
  omega

/-- The occurrences that are found stand one behind the other. -/
theorem pairwise_occurrencesFrom (offset : Nat) (s : List Char) :
    (occurrencesFrom needle offset s).Pairwise fun a b => a.stop ≤ b.start := by
  induction s using search_induction needle generalizing offset with
  | nil => rw [occurrencesFrom_nil]; exact List.Pairwise.nil
  | found hne rest ih =>
    rw [occurrencesFrom_needle hne]
    exact List.pairwise_cons.mpr ⟨fun o ho => (bounds_of_mem_occurrencesFrom ho).1, ih _⟩
  | skip c cs hb ih =>
    rw [occurrencesFrom_of_not_beginsWith hb]
    exact ih _

/-- The offsets behind the occurrences that pass a test. -/
def stopsFrom (needle : List Char) (pass : Span → Bool) (offset : Nat) (s : List Char) : List Nat :=
  ((occurrencesFrom needle offset s).filter pass).map Span.stop

variable {pass : Span → Bool}

theorem lt_of_mem_stopsFrom {s : List Char} {offset e : Nat}
    (h : e ∈ stopsFrom needle pass offset s) : offset < e := by
  obtain ⟨o, ho, rfl⟩ := List.mem_map.mp h
  have ho := (List.mem_filter.mp ho).1
  have hpos := byteLength_pos (ne_nil_of_mem_occurrencesFrom ho)
  have := stop_of_mem_occurrencesFrom ho
  omega

theorem stopsFrom_needle (hne : needle ≠ []) (offset : Nat) (rest : List Char) :
    stopsFrom needle pass offset (needle ++ rest) =
      (if pass ⟨offset, offset + Text.byteLength needle⟩
        then [offset + Text.byteLength needle] else []) ++
      stopsFrom needle pass (offset + Text.byteLength needle) rest := by
  rw [stopsFrom, occurrencesFrom_needle hne, List.filter_cons]
  split <;> rfl

theorem stopsFrom_of_not_beginsWith {offset : Nat} {c : Char} {cs : List Char}
    (h : beginsWith needle (c :: cs) = false) :
    stopsFrom needle pass offset (c :: cs) = stopsFrom needle pass (offset + c.utf8Size) cs := by
  rw [stopsFrom, occurrencesFrom_of_not_beginsWith h]
  rfl

/-- In front of a text that begins with the needle the segment is put in behind it or not. -/
theorem insertAfter_needle {segment : List Char} (hne : needle ≠ []) (offset : Nat)
    (rest w : List Char) :
    insertAfter segment (stopsFrom needle pass offset (needle ++ rest)) offset (needle ++ w) =
      needle ++ ((if pass ⟨offset, offset + Text.byteLength needle⟩ then segment else []) ++
        insertAfter segment (stopsFrom needle pass (offset + Text.byteLength needle) rest)
          (offset + Text.byteLength needle) w) := by
  have hsites (e : Nat) : e ∈ stopsFrom needle pass offset (needle ++ rest) ↔
      (pass ⟨offset, offset + Text.byteLength needle⟩ = true ∧
          e = offset + Text.byteLength needle) ∨
        e ∈ stopsFrom needle pass (offset + Text.byteLength needle) rest := by
    rw [stopsFrom_needle hne, List.mem_append]
    cases pass ⟨offset, offset + Text.byteLength needle⟩ <;> simp
  have hself : offset + Text.byteLength needle ∉
      stopsFrom needle pass (offset + Text.byteLength needle) rest :=
    fun hmem => Nat.lt_irrefl _ (lt_of_mem_stopsFrom hmem)
  have hfront := insertAfter_of_no_site segment offset hne fun e he => by
    rcases (hsites e).mp he with h | h
    · exact .inr (Nat.le_of_eq h.2.symm)
    · exact .inr (Nat.le_of_lt (lt_of_mem_stopsFrom h))
  have hback := insertAfter_congr segment (offset + Text.byteLength needle)
    (fun e he => (hsites e).trans (or_iff_right fun h => Nat.ne_of_gt he h.2)) w
  rw [insertAfter_append, hfront, hback, List.append_assoc]
  simp only [hsites, hself, or_false, and_true]

/-- **A replacement that keeps the needle inserts behind the occurrences that overlap no protected
    span**, and changes nothing else. -/
theorem replaceFrom_eq_insertAfter {protectedSpans : List Span} {segment : List Char}
    (offset : Nat) (s : List Char) :
    replaceFrom protectedSpans needle (needle ++ segment) offset [] s =
      insertAfter segment (stopsFrom needle (!protectedSpans.any ·.overlaps) offset s)
        offset s := by
  induction s using search_induction needle generalizing offset with
  | nil => rw [replaceFrom, insertAfter]; rfl
  | found hne rest ih =>
    rw [replaceFrom_needle hne, ih, insertAfter_needle hne]
    cases protectedSpans.any (Span.mk offset (offset + Text.byteLength needle)).overlaps <;> simp
  | skip c cs hb ih =>
    have hsite : offset + c.utf8Size ∉
        stopsFrom needle (!protectedSpans.any ·.overlaps) (offset + c.utf8Size) cs :=
      fun hmem => Nat.lt_irrefl _ (lt_of_mem_stopsFrom hmem)
    rw [replaceFrom_of_not_beginsWith hb, stopsFrom_of_not_beginsWith hb, ih, insertAfter,
      if_neg hsite, List.nil_append]

/-! ## 3. Sizes -/

/-- A part of the text in front of all sites stays as it is. -/
theorem byteLength_insertAfter_of_lt {pass : Span → Bool} (segment : List Char) {s u : List Char}
    {offset : Nat} (h : ∀ e ∈ stopsFrom needle pass offset s, offset + Text.byteLength u < e) :
    Text.byteLength (insertAfter segment (stopsFrom needle pass offset s) offset u) =
      Text.byteLength u + Text.byteLength segment *
        (stopsFrom needle pass offset s).countP (· ≤ offset + Text.byteLength u) := by
  have hcount : (stopsFrom needle pass offset s).countP (· ≤ offset + Text.byteLength u) = 0 := by
    refine List.countP_eq_zero.mpr fun e he => ?_
    have := h e he
    simp only [decide_eq_true_eq]
    omega
  rw [insertAfter_eq_self segment _ fun e he => .inr (h e he), hcount, Nat.mul_zero, Nat.add_zero]

/-- A part of the text in front grows by one segment for each site that is not behind it. -/
theorem byteLength_insertAfter (needle : List Char) (pass : Span → Bool) (segment : List Char)
    {s u v : List Char} (hs : s = u ++ v) (offset : Nat) :
    Text.byteLength (insertAfter segment (stopsFrom needle pass offset s) offset u) =
      Text.byteLength u + Text.byteLength segment *
        (stopsFrom needle pass offset s).countP (· ≤ offset + Text.byteLength u) := by
  induction s using search_induction needle generalizing offset u with
  | nil =>
    obtain rfl := (List.append_eq_nil_iff.mp hs.symm).1
    exact byteLength_insertAfter_of_lt segment fun e he => lt_of_mem_stopsFrom he
  | found hne rest ih =>
    by_cases hin : Text.byteLength u < Text.byteLength needle
    · refine byteLength_insertAfter_of_lt segment fun e he => ?_
      obtain ⟨o, ho, rfl⟩ := List.mem_map.mp he
      have := stop_of_mem_occurrencesFrom (List.mem_filter.mp ho).1
      omega
    · obtain ⟨w, rfl, hw⟩ := Text.exists_append_of_byteLength_le hs (by omega)
      rw [insertAfter_needle hne, stopsFrom_needle hne, List.countP_append, Text.byteLength_append,
        Text.byteLength_append, Text.byteLength_append, ih hw, Nat.add_assoc offset]
      have hhead : [offset + Text.byteLength needle].countP
          (· ≤ offset + (Text.byteLength needle + Text.byteLength w)) = 1 := by simp
      split
      · rw [hhead, Nat.mul_add, Nat.mul_one]
        omega
      · rw [List.countP_nil, Nat.zero_add, Text.byteLength_nil]
        omega
  | skip c cs hb ih =>
    cases u with
    | nil => exact byteLength_insertAfter_of_lt segment fun e he => lt_of_mem_stopsFrom he
    | cons d u =>
      rw [List.cons_append] at hs
      obtain ⟨rfl, hrest⟩ := List.cons.inj hs
      have hsite : offset + c.utf8Size ∉ stopsFrom needle pass (offset + c.utf8Size) cs :=
        fun hmem => Nat.lt_irrefl _ (lt_of_mem_stopsFrom hmem)
      rw [stopsFrom_of_not_beginsWith hb, insertAfter, if_neg hsite, List.nil_append,
        Text.byteLength_cons, ih hrest, Text.byteLength_cons, Nat.add_assoc, Nat.add_assoc]

end

/-! ## 4. The replacement of a text -/

theorem overlaps_eq_false_iff {a b : Span} :
    a.overlaps b = false ↔ a.stop ≤ b.start ∨ b.stop ≤ a.start := by
  unfold Span.overlaps
  simp only [Bool.and_eq_false_iff, decide_eq_false_iff_not]
  omega

section

variable {needle : List Char}

/-- The offsets behind the exposed occurrences of a needle. -/
theorem stopsFrom_eq_exposed (needle s : List Char) :
    stopsFrom needle (!(msgpackSpans s).any ·.overlaps) 0 s =
      (exposed needle s).map Span.stop := rfl

/-- **A replacement that keeps the needle puts the segment behind its exposed occurrences**, and
    changes nothing else. -/
theorem replaceUnprotected_eq_insertAfter (s needle segment : List Char) :
    replaceUnprotected s needle (needle ++ segment) =
      insertAfter segment ((exposed needle s).map Span.stop) 0 s :=
  replaceFrom_eq_insertAfter 0 s

/-- An occurrence is exposed if it was found and overlaps no tag with msgpack. -/
theorem mem_exposed_iff {s : List Char} {o : Span} :
    o ∈ exposed needle s ↔ o ∈ occurrences needle s ∧
      ∀ g ∈ scan s, g.tag.hasMsgpack = true → o.overlaps g.span = false := by
  rw [exposed, List.mem_filter, Bool.not_eq_true', List.any_eq_false]
  refine and_congr_right fun _ => ⟨fun hfree g hg h => ?_, fun hfree span hspan => ?_⟩
  · have hspan : g.span ∈ msgpackSpans s :=
      List.mem_map_of_mem (List.mem_filter.mpr ⟨hg, h⟩)
    exact Bool.eq_false_iff.mpr (hfree g.span hspan)
  · obtain ⟨g, hg, rfl⟩ := List.mem_map.mp hspan
    obtain ⟨hg, h⟩ := List.mem_filter.mp hg
    exact Bool.eq_false_iff.mp (hfree g hg h)

theorem standsAt_of_mem_exposed {s : List Char} {o : Span} (h : o ∈ exposed needle s) :
    Text.StandsAt s o.start needle ∧ o.stop = o.start + Text.byteLength needle :=
  standsAt_of_mem_occurrencesFrom [] (mem_exposed_iff.mp h).1

/-- The text grows by one segment for each exposed occurrence. -/
theorem byteLength_insertAfter_exposed (s needle segment : List Char) :
    Text.byteLength (insertAfter segment ((exposed needle s).map Span.stop) 0 s) =
      Text.byteLength s + Text.byteLength segment * (exposed needle s).length := by
  have hcount : ((exposed needle s).map Span.stop).countP (· ≤ 0 + Text.byteLength s) =
      (exposed needle s).length := by
    rw [List.countP_eq_length.mpr, List.length_map]
    intro e he
    obtain ⟨o, ho, rfl⟩ := List.mem_map.mp he
    obtain ⟨hstands, hstop⟩ := standsAt_of_mem_exposed ho
    have := hstands.stop_le
    simp only [decide_eq_true_eq]
    omega
  have hsize := byteLength_insertAfter needle (!(msgpackSpans s).any ·.overlaps) segment
    (List.append_nil s).symm 0
  rw [stopsFrom_eq_exposed, hcount] at hsize
  exact hsize

end

end StructTags
