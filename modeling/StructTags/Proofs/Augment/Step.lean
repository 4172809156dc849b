import Mathlib.Data.List.Induction
import StructTags.Augment.Basic
import StructTags.Proofs.Augment.Occurrence
import StructTags.Proofs.Tag.Growth

/-!
# The steps of augmenting

One step of `augment` puts a segment in behind some occurrences of a first pair. This file fixes
where that is and what becomes of everything else:

* `Augmentation.Due`, `Augmentation.sites`: whether a step replaces anything, and at which byte
  offsets it puts its segment in;
* `Augmentation.step_text`: a step inserts at its sites and changes nothing else;
* `Augmentation.carry`, `Augmentation.carried`: where a byte offset is taken by a step and by all of
  them;
* **`Augmentation.standsAt_carry`**: a word with no site inside stands, after the step, where it was
  carried;
* `Augmentation.foldl_step_iff`: what certain steps bring about, over all of them;
* `Augmentation.foldl_step_applied`: what is applied over all steps, and in which order.
-/

namespace StructTags

/-! ## 1. One step -/

/-- The first pair followed by its segment. -/
def Tag.augmented (t : Tag) : List Char := t.first.raw ++ segment t.first.value

theorem Tag.augmentation?_eq (t : Tag) :
    t.augmentation? = if t.hasMsgpack then none else some t.augmented := by
  unfold Tag.augmentation? Tag.augmented segment
  simp

theorem Tag.augmentation?_eq_some_iff {t : Tag} {x : List Char} :
    t.augmentation? = some x ↔ t.hasMsgpack = false ∧ t.augmented = x := by
  rw [t.augmentation?_eq]
  cases t.hasMsgpack <;> simp

namespace Augmentation

/-- The tag has no msgpack, and what it is to get was not applied yet. -/
def Due (a : Augmentation) (t : Tag) : Prop := t.hasMsgpack = false ∧ t.augmented ∉ a.applied

instance (a : Augmentation) (t : Tag) : Decidable (a.Due t) := inferInstanceAs (Decidable (_ ∧ _))

/-- The byte offsets at which a step puts its segment in: behind the exposed occurrences of the
    first pair. -/
def sites (a : Augmentation) (t : Tag) : List Nat :=
  if a.Due t then (exposed t.first.raw a.text).map Span.stop else []

section

variable {a : Augmentation} {t : Tag}

theorem step_of_due (h : a.Due t) :
    (a.step t).text = replaceUnprotected a.text t.first.raw t.augmented ∧
      (a.step t).applied = a.applied ++ [t.augmented] := by
  have haug : t.augmentation? = some t.augmented := Tag.augmentation?_eq_some_iff.mpr ⟨h.1, rfl⟩
  rw [step, haug]
  simp only [if_neg h.2, and_self]

theorem step_of_not_due (h : ¬ a.Due t) :
    (a.step t).text = a.text ∧ (a.step t).applied = a.applied := by
  rw [step, t.augmentation?_eq]
  cases hmsgpack : t.hasMsgpack with
  | true => exact ⟨rfl, rfl⟩
  | false =>
    have hmem : t.augmented ∈ a.applied := Decidable.not_not.mp fun hmem => h ⟨hmsgpack, hmem⟩
    simp [hmem]

/-- **A step inserts at its sites, and changes nothing else.** -/
theorem step_text (a : Augmentation) (t : Tag) :
    (a.step t).text = insertAfter (segment t.first.value) (a.sites t) 0 a.text := by
  unfold sites
  by_cases h : a.Due t
  · rw [if_pos h, (step_of_due h).1]
    exact replaceUnprotected_eq_insertAfter _ _ _
  · rw [if_neg h, (step_of_not_due h).1, insertAfter_nil]

theorem step_applied (a : Augmentation) (t : Tag) :
    (a.step t).applied = a.applied ++ if a.Due t then [t.augmented] else [] := by
  by_cases h : a.Due t
  · rw [if_pos h, (step_of_due h).2]
  · rw [if_neg h, (step_of_not_due h).2, List.append_nil]

end

/-! ## 2. Where offsets are carried -/

/-- Where a step takes a byte offset: further to the right by a segment for each site that is not
    behind it. -/
def carry (a : Augmentation) (t : Tag) (i : Nat) : Nat :=
  i + Text.byteLength (segment t.first.value) * (a.sites t).countP (· ≤ i)

/-- Where a byte offset is taken by the steps for some tags. -/
def carried (a : Augmentation) : List Tag → Nat → Nat
  | [], i => i
  | t :: ts, i => (a.step t).carried ts (a.carry t i)

section

variable {a : Augmentation} {t : Tag}

theorem byteLength_insertAfter_sites {u v : List Char} (h : a.text = u ++ v) :
    Text.byteLength (insertAfter (segment t.first.value) (a.sites t) 0 u) =
      a.carry t (Text.byteLength u) := by
  unfold carry sites
  by_cases hdue : a.Due t
  · rw [if_pos hdue]
    have hsize := byteLength_insertAfter t.first.raw
      (!(msgpackSpans a.text).any ·.overlaps) (segment t.first.value) h 0
    rw [stopsFrom_eq_exposed, Nat.zero_add] at hsize
    exact hsize
  · rw [if_neg hdue, insertAfter_nil]
    rfl

/-- **A word with no site inside stands, after the step, where it was carried.** -/
theorem standsAt_carry {w : List Char} {i : Nat} (hne : w ≠ []) (h : Text.StandsAt a.text i w)
    (hsites : ∀ e ∈ a.sites t, e ≤ i ∨ i + Text.byteLength w ≤ e) :
    Text.StandsAt (a.step t).text (a.carry t i) w := by
  obtain ⟨u, v, htext, rfl⟩ := h
  have hword := insertAfter_of_no_site (segment t.first.value) _ hne hsites
  have hstep : (a.step t).text = _ := a.step_text t
  rw [htext, insertAfter_append, insertAfter_append, Nat.zero_add, hword, List.append_assoc]
    at hstep
  exact ⟨_, _, hstep, byteLength_insertAfter_sites htext⟩

/-- A step never makes a text shorter. -/
theorem byteLength_step (a : Augmentation) (t : Tag) :
    Text.byteLength (a.step t).text =
      Text.byteLength a.text + Text.byteLength (segment t.first.value) * (a.sites t).length := by
  rw [step_text]
  unfold sites
  by_cases h : a.Due t
  · rw [if_pos h, byteLength_insertAfter_exposed, List.length_map]
  · rw [if_neg h, insertAfter_nil]
    rfl

end

/-! ## 3. All steps -/

/-- Some of the steps for the tags is as said, in the text as it is then. -/
def AtSomeStep (r : Augmentation → Tag → Prop) (a : Augmentation) : List Tag → Prop
  | [] => False
  | t :: ts => r a t ∨ (a.step t).AtSomeStep r ts

/-- What comes about by certain steps only, and then stays, holds in the end if it did before or
    there was such a step. -/
theorem foldl_step_iff {p : List Char → Prop} {r : Augmentation → Tag → Prop} {ts : List Tag}
    (hstep : ∀ t ∈ ts, ∀ a : Augmentation, p (a.step t).text ↔ p a.text ∨ r a t)
    (a : Augmentation) : p (ts.foldl step a).text ↔ p a.text ∨ a.AtSomeStep r ts := by
  induction ts generalizing a with
  | nil => exact (or_iff_left id).symm
  | cons t ts ih =>
    obtain ⟨ht, hts⟩ := List.forall_mem_cons.mp hstep
    rw [List.foldl_cons, ih hts, ht, or_assoc]
    rfl

theorem byteLength_le_foldl_step (a : Augmentation) (ts : List Tag) :
    Text.byteLength a.text ≤ Text.byteLength (ts.foldl step a).text := by
  induction ts generalizing a with
  | nil => exact Nat.le_refl _
  | cons t ts ih =>
    refine Nat.le_trans ?_ (ih (a.step t))
    rw [a.byteLength_step t]
    exact Nat.le_add_right _ _

theorem foldl_step_of_hasMsgpack {ts : List Tag} (h : ∀ t ∈ ts, t.hasMsgpack = true)
    (a : Augmentation) :
    (ts.foldl step a).text = a.text ∧ (ts.foldl step a).applied = a.applied := by
  induction ts generalizing a with
  | nil => exact ⟨rfl, rfl⟩
  | cons t ts ih =>
    obtain ⟨ht, hts⟩ := List.forall_mem_cons.mp h
    have hstep : ¬ a.Due t := fun hdue => Bool.false_ne_true (hdue.1.symm.trans ht)
    rw [List.foldl_cons, (ih hts _).1, (ih hts _).2]
    exact step_of_not_due hstep

/-- Each augmentation is applied once, in the order in which the tags come. -/
theorem foldl_step_applied (s : List Char) (ts : List Tag) :
    (ts.foldl step { text := s }).applied = (ts.filterMap Tag.augmentation?).eraseDups := by
  induction ts using List.reverseRecOn with
  | nil => rfl
  | append_singleton ts t ih =>
    rw [List.foldl_append, List.foldl_cons, List.foldl_nil, step_applied, ih,
      List.filterMap_append, List.eraseDups_append]
    congr 1
    cases hmsgpack : t.hasMsgpack with
    | true =>
      have hnone : t.augmentation? = none := by rw [t.augmentation?_eq, hmsgpack, if_pos rfl]
      rw [if_neg fun h => Bool.false_ne_true (h.1.symm.trans hmsgpack),
        List.filterMap_cons_none hnone]
      rfl
    | false =>
      have hsome : t.augmentation? = some t.augmented :=
        Tag.augmentation?_eq_some_iff.mpr ⟨hmsgpack, rfl⟩
      have hdue : (ts.foldl step { text := s }).Due t ↔
          t.augmented ∉ ts.filterMap Tag.augmentation? := by
        unfold Due
        rw [ih, hmsgpack, List.mem_eraseDups]
        exact and_iff_right rfl
      rw [List.filterMap_cons_some hsome, List.filterMap_nil, List.removeAll]
      by_cases hmem : t.augmented ∈ ts.filterMap Tag.augmentation?
      · rw [if_neg fun h => hdue.mp h hmem, List.filter_cons_of_neg (by simpa using hmem)]
        rfl
      · rw [if_pos (hdue.mpr hmem), List.filter_cons_of_pos (by simpa using hmem)]
        rfl

end Augmentation

/-- Of the elements with the same image the first one stays, for any test that tells whether two of
    the elements have the same image. -/
theorem map_eraseDupsBy {α β : Type} [BEq β] (f : α → β) (r : α → α → Bool) (l : List α)
    (h : ∀ a ∈ l, ∀ b ∈ l, r a b = (f a == f b)) :
    (l.eraseDupsBy r).map f = (l.map f).eraseDups := by
  induction hn : l.length using Nat.strongRecOn generalizing l with
  | ind n ih =>
    cases l with
    | nil => rfl
    | cons a l =>
      have hrest : (l.filter fun b => decide (r b a = false)) = l.filter fun b => !f b == f a := by
        refine List.filter_congr fun b hb => ?_
        rw [h b (List.mem_cons_of_mem _ hb) a List.mem_cons_self]
        cases f b == f a <;> rfl
      have hsub {b : α} (hb : b ∈ l.filter fun b => !f b == f a) : b ∈ a :: l :=
        List.mem_cons_of_mem _ (List.mem_filter.mp hb).1
      have hlen := List.length_filter_le (fun b => !f b == f a) l
      rw [List.length_cons] at hn
      rw [List.eraseDupsBy_cons, hrest, List.map_cons, List.map_cons, List.eraseDups_cons,
        List.filter_map, ih _ (by omega) _ (fun b hb c hc => h b (hsub hb) c (hsub hc)) rfl]
      rfl

theorem augment_applied (s : List Char) :
    (augment s).applied = ((scan s).filterMap (·.tag.augmentation?)).eraseDups := by
  rw [augment, Augmentation.foldl_step_applied, List.filterMap_map]
  rfl

/-- What is applied is what the tags without msgpack are to get. -/
theorem mem_augment_applied_iff {s x : List Char} :
    x ∈ (augment s).applied ↔ ∃ g ∈ scan s, g.tag.hasMsgpack = false ∧ g.tag.augmented = x := by
  rw [augment_applied, List.mem_eraseDups, List.mem_filterMap]
  exact exists_congr fun g => and_congr_right fun _ => Tag.augmentation?_eq_some_iff

end StructTags
