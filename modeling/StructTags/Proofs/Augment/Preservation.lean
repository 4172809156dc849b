import StructTags.Proofs.Augment.Plain

/-!
# Tags that keep their bytes

A tag with msgpack is to keep its bytes over all steps of augmenting. What is protected is found
anew in the text before each step, so this depends on the texts in between, and this file says how:

* `Augmentation.Spares`, `Keeps`: no step puts anything into the tag, and in the end it stands where
  it was carried;
* `Augmentation.Guards`: at each step, what was found of the needle in the tag overlaps a tag with
  msgpack that is found in the text as it is then;
* `Augmentation.Finds`: at each step, the tag itself is found where it was carried;
* **`keeps_iff_guards`**: a tag keeps its bytes if and only if it is guarded; one with msgpack that
  is found at each step is; and in a plain text all are found at each step;
* `exists_not_keeps`: a tag with msgpack may be lost on the way, and then be changed.
-/

namespace StructTags

/-! ## 1. Runs over a tag -/

namespace Augmentation

/-- None of the steps for some tags puts anything inside the bytes that start at an offset and are
    carried from step to step. -/
def Spares (size : Nat) (a : Augmentation) : List Tag → Nat → Prop
  | [], _ => True
  | t :: ts, i =>
    (∀ e ∈ a.sites t, e ≤ i ∨ i + size ≤ e) ∧ (a.step t).Spares size ts (a.carry t i)

/-- At each step that replaces, the occurrences found that stop inside these bytes overlap a tag
    with msgpack of the text as it is then. -/
def Guards (size : Nat) (a : Augmentation) : List Tag → Nat → Prop
  | [], _ => True
  | t :: ts, i =>
    (a.Due t → ∀ o ∈ occurrences t.first.raw a.text, i < o.stop → o.stop < i + size →
        ∃ g ∈ scan a.text, g.tag.hasMsgpack = true ∧ o.overlaps g.span = true) ∧
      (a.step t).Guards size ts (a.carry t i)

/-- At each step the tag is found in the text where it was carried. -/
def Finds (u : Tag) (a : Augmentation) : List Tag → Nat → Prop
  | [], _ => True
  | t :: ts, i => ⟨i, u⟩ ∈ scan a.text ∧ (a.step t).Finds u ts (a.carry t i)

end Augmentation

/-- The tag keeps its bytes while the text is augmented: no step puts anything inside, and in the
    end it stands where it was carried. -/
def Keeps (s : List Char) (g : Group) : Prop :=
  Augmentation.Spares g.tag.size { text := s } ((scan s).map (·.tag)) g.start ∧
    Text.StandsAt (augment s).text
      (Augmentation.carried { text := s } ((scan s).map (·.tag)) g.start) g.tag.text

/-! ## 2. One step -/

namespace Augmentation

section

variable {a : Augmentation} {t : Tag} {size i : Nat}

/-- A step spares what it guards. -/
theorem forall_sites_iff : (∀ e ∈ a.sites t, e ≤ i ∨ i + size ≤ e) ↔
    (a.Due t → ∀ o ∈ occurrences t.first.raw a.text, i < o.stop → o.stop < i + size →
      ∃ g ∈ scan a.text, g.tag.hasMsgpack = true ∧ o.overlaps g.span = true) := by
  unfold sites
  by_cases hdue : a.Due t
  · rw [if_pos hdue, forall_prop_of_true hdue]
    constructor
    · intro hsites o ho hlt hlt'
      by_contra hnone
      have hexposed : o ∈ exposed t.first.raw a.text :=
        mem_exposed_iff.mpr ⟨ho, fun g hg h => Bool.eq_false_iff.mpr fun hover =>
          hnone ⟨g, hg, h, hover⟩⟩
      have := hsites o.stop (List.mem_map_of_mem hexposed)
      omega
    · intro hguards e he
      obtain ⟨o, ho, rfl⟩ := List.mem_map.mp he
      obtain ⟨hocc, hfree⟩ := mem_exposed_iff.mp ho
      by_contra hin
      obtain ⟨g, hg, h, hover⟩ := hguards o hocc (by omega) (by omega)
      rw [hfree g hg h] at hover
      cases hover
  · rw [if_neg hdue]
    exact iff_of_true (fun e he => absurd he List.not_mem_nil) (fun h => absurd h hdue)

/-- What was found of a needle and stops inside some bytes overlaps them. -/
theorem overlaps_of_stop {o bytes : Span} (ho : o ∈ occurrences t.first.raw a.text)
    (hlt : bytes.start < o.stop) (hlt' : o.stop < bytes.stop) : o.overlaps bytes = true := by
  have hpos := byteLength_pos t.first.raw_ne_nil
  have hstop := (standsAt_of_mem_occurrencesFrom [] ho).2
  unfold Span.overlaps
  simp only [Bool.and_eq_true, decide_eq_true_eq]
  omega

end

/-! ## 3. All steps -/

theorem spares_iff_guards {size : Nat} {ts : List Tag} {a : Augmentation} {i : Nat} :
    a.Spares size ts i ↔ a.Guards size ts i := by
  induction ts generalizing a i with
  | nil => exact Iff.rfl
  | cons t ts ih => exact and_congr forall_sites_iff ih

/-- What is spared stands in the end where it was carried. -/
theorem Spares.standsAt {w : List Char} (hne : w ≠ []) {ts : List Tag} {a : Augmentation} {i : Nat}
    (h : a.Spares (Text.byteLength w) ts i) (hstands : Text.StandsAt a.text i w) :
    Text.StandsAt (ts.foldl step a).text (a.carried ts i) w := by
  induction ts generalizing a i with
  | nil => exact hstands
  | cons t ts ih => exact ih h.2 (standsAt_carry hne hstands h.1)

theorem Finds.guards {u : Tag} (hu : u.hasMsgpack = true) {ts : List Tag} {a : Augmentation}
    {i : Nat} (h : a.Finds u ts i) : a.Guards u.size ts i := by
  induction ts generalizing a i with
  | nil => trivial
  | cons t ts ih =>
    refine ⟨fun _ o ho hlt hlt' => ⟨_, h.1, hu, ?_⟩, ih h.2⟩
    exact overlaps_of_stop ho hlt hlt'

/-- In a plain text a tag with msgpack is found at each step. -/
theorem finds_of_plain {u : Tag} (hu : u.hasMsgpack = true) {ts : List Tag}
    (hts : ∀ t ∈ ts, t.Plain) {a : Augmentation} (hplain : Plain a.text) {i : Nat}
    (h : ⟨i, u⟩ ∈ scan a.text) :
    a.Finds u ts i := by
  induction ts generalizing a i with
  | nil => trivial
  | cons t ts ih =>
    obtain ⟨ht, hts⟩ := List.forall_mem_cons.mp hts
    refine ⟨h, ih hts (plain_step ht hplain) ?_⟩
    have hsame : a.regrow t u = u := by rw [regrow, Tag.grow_of_hasMsgpack hu, ite_self]
    rw [scan_step ht hplain]
    exact List.mem_map.mpr ⟨_, h, by rw [hsame]⟩

end Augmentation

/-- **A tag keeps its bytes if and only if at each step what would be replaced in it overlaps a tag
    with msgpack that is found in the text as it is then.** For a tag with msgpack it is enough that
    the tag itself is found at each step, and so it is if the text is plain. -/
theorem keeps_iff_guards (s : List Char) :
    (∀ g ∈ scan s, Keeps s g ↔
        Augmentation.Guards g.tag.size { text := s } ((scan s).map (·.tag)) g.start) ∧
      (∀ g ∈ scan s, g.tag.hasMsgpack = true →
        Augmentation.Finds g.tag { text := s } ((scan s).map (·.tag)) g.start → Keeps s g) ∧
      (Plain s → ∀ g ∈ scan s, g.tag.hasMsgpack = true →
        Augmentation.Finds g.tag { text := s } ((scan s).map (·.tag)) g.start) := by
  have hkeeps : ∀ g ∈ scan s, Keeps s g ↔
      Augmentation.Guards g.tag.size { text := s } ((scan s).map (·.tag)) g.start := fun g hg => by
    rw [← Augmentation.spares_iff_guards]
    refine ⟨And.left, fun hspares => ⟨hspares, ?_⟩⟩
    rw [← Tag.byteLength_text] at hspares
    exact hspares.standsAt g.tag.text_ne_nil (standsAt_of_mem_scan hg)
  refine ⟨hkeeps, fun g hg h hfinds => (hkeeps g hg).mpr (hfinds.guards h), fun hplain g hg h => ?_⟩
  exact Augmentation.finds_of_plain h (List.forall_mem_map.mpr hplain) hplain hg

/-- A plain text whose tag with msgpack has the pair that is replaced around it. The tag is found at
    each step, and keeps its bytes. -/
theorem keeps_of_plain :
    Plain "`json:\"a\"` `json:\"a\" msgpack:\"x\"` `json:\"a\"`".toList ∧
      Keeps "`json:\"a\"` `json:\"a\" msgpack:\"x\"` `json:\"a\"`".toList
        ⟨11, ⟨⟨.json, ['a']⟩, some ' ', some ⟨.msgpack, ['x']⟩⟩⟩ := by
  have hplain : Plain "`json:\"a\"` `json:\"a\" msgpack:\"x\"` `json:\"a\"`".toList := by
    decide +kernel
  have hg : (⟨11, ⟨⟨.json, ['a']⟩, some ' ', some ⟨.msgpack, ['x']⟩⟩⟩ : Group) ∈
      scan "`json:\"a\"` `json:\"a\" msgpack:\"x\"` `json:\"a\"`".toList := by decide +kernel
  obtain ⟨-, hkeeps, hfinds⟩ :=
    keeps_iff_guards "`json:\"a\"` `json:\"a\" msgpack:\"x\"` `json:\"a\"`".toList
  exact ⟨hplain, hkeeps _ hg rfl (hfinds hplain _ hg rfl)⟩

/-- The tag `json:"b" msgpack:"y"` is found in this text, but what the first step puts in makes its
    opening backtick close another tag. So the second step does not find it, and puts a segment in;
    in the end its text stands nowhere. -/
theorem exists_not_keeps :
    ∃ g ∈ scan "`json:\"a\" `json:\"b\" `json:\"b\" msgpack:\"y\"` `json:\"b\"`".toList,
      g.tag.hasMsgpack = true ∧ ∀ i, ¬ Text.StandsAt
        (augment
          "`json:\"a\" `json:\"b\" `json:\"b\" msgpack:\"y\"` `json:\"b\"`".toList).text
        i g.tag.text := by
  have hlost : ∃ g ∈
      scan "`json:\"a\" `json:\"b\" `json:\"b\" msgpack:\"y\"` `json:\"b\"`".toList,
      g.tag.hasMsgpack = true ∧ occurrences g.tag.text (augment
        "`json:\"a\" `json:\"b\" `json:\"b\" msgpack:\"y\"` `json:\"b\"`".toList).text = [] := by
    decide +kernel
  obtain ⟨g, hg, h, hnone⟩ := hlost
  refine ⟨g, hg, h, fun i hstands => ?_⟩
  obtain ⟨o, ho, -⟩ := exists_occurrence_of_standsAt g.tag.text_ne_nil 0 hstands
  rw [← occurrences, hnone] at ho
  exact absurd ho List.not_mem_nil

end StructTags
