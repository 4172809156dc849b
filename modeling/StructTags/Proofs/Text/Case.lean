import StructTags.Text.Case

/-!
# Comparing words up to case

A word of a configuration is lowered and then compared. Lowering is a matter of all of Unicode,
where one character may become several and what it becomes may depend on its neighbours; the
comparison is with words of small ASCII letters. This file says that such a comparison is one up to
the case of ASCII letters:

* `SameUpToCase`: two words are the same but for the case of their ASCII letters;
* `LowerCasing`: a way to lower texts, with what Unicode says of the ASCII letters among the
  results;
* `LowerCasing.basic`: the way that is taken here is one;
* **`LowerCasing.lowered_eq_iff`**: whichever is taken, lowering gives a word of small letters,
  without `k`, if and only if the text is this word up to case;
* `SameUpToCase.ascii`: such a text is in ASCII.
-/

namespace StructTags.Text

/-! ## 1. ASCII letters -/

theorem isUpper_iff {c : Char} : c.isUpper = true ↔ 65 ≤ c.toNat ∧ c.toNat ≤ 90 :=
  decide_eq_true_iff

theorem isLower_iff {c : Char} : c.isLower = true ↔ 97 ≤ c.toNat ∧ c.toNat ≤ 122 :=
  Bool.and_eq_true_iff.trans (and_congr decide_eq_true_iff decide_eq_true_iff)

theorem isAlpha_iff {c : Char} :
    c.isAlpha = true ↔ (65 ≤ c.toNat ∧ c.toNat ≤ 90) ∨ (97 ≤ c.toNat ∧ c.toNat ≤ 122) :=
  Bool.or_eq_true_iff.trans (or_congr isUpper_iff isLower_iff)

/-- What is no capital of ASCII is its own lower case. -/
theorem toLower_eq_self {c : Char} (h : c.toNat < 65 ∨ 90 < c.toNat) : c.toLower = c := by
  refine dif_neg fun hupper => ?_
  have hrange := isUpper_iff.mp (decide_eq_true hupper)
  omega

/-- A small letter is its own lower case. -/
theorem toLower_of_isLower {c : Char} (h : c.isLower = true) : c.toLower = c := by
  have hrange := isLower_iff.mp h
  exact toLower_eq_self (.inr (by omega))

/-- Two words that are the same but for the case of their ASCII letters. -/
def SameUpToCase (s w : String) : Prop := s.toList.map Char.toLower = w.toList.map Char.toLower

instance (s w : String) : Decidable (SameUpToCase s w) := inferInstanceAs (Decidable (_ = _))

/-- A word of small ASCII letters. The letter `k` is left out, as it is also the lower case of a
    character outside ASCII. -/
def Small (w : List Char) : Prop := ∀ c ∈ w, c.isLower = true ∧ c ≠ 'k'

instance (w : List Char) : Decidable (Small w) := List.decidableBAll _ w

theorem small_cons {c : Char} {w : List Char} :
    Small (c :: w) ↔ (c.isLower = true ∧ c ≠ 'k') ∧ Small w := List.forall_mem_cons

theorem Small.map_toLower {w : List Char} (h : Small w) : w.map Char.toLower = w := by
  rw [List.map_congr_left fun c hc => toLower_of_isLower (h c hc).1, List.map_id']

/-! ## 2. Ways to lower a text -/

/-- The Kelvin sign. -/
def kelvin : Char := '\u212a'

/-- A way to lower texts. What a character becomes may depend on what stands in front of it, nearest
    first, and on what stands behind it. -/
structure LowerCasing where
  /-- What a character becomes between its neighbours. -/
  image : (before : List Char) → Char → (after : List Char) → List Char
  /-- In ASCII the capitals become small, and nothing else changes. -/
  ascii : ∀ before c after, c.toNat < 128 → image before c after = [c.toLower]
  /-- The Kelvin sign becomes a letter of ASCII. -/
  ofKelvin : ∀ before after, image before kelvin after = ['k']
  /-- No other character outside ASCII becomes letters of ASCII alone. -/
  other : ∀ before c after, 128 ≤ c.toNat → c ≠ kelvin →
    ∃ d ∈ image before c after, d.isAlpha = false

namespace LowerCasing

variable (casing : LowerCasing)

/-- The lower case of a text behind some other. -/
def lowerFrom (before : List Char) : List Char → List Char
  | [] => []
  | c :: cs => casing.image before c cs ++ lowerFrom (c :: before) cs

/-- The lower case of a text as a string. -/
def lowered (s : String) : String := String.ofList (casing.lowerFrom [] s.toList)

variable {casing}

/-- What a character becomes is part of a small word only if it is in ASCII, and then it is the
    letter that it is in lower case. -/
theorem image_append_eq_iff {before after rest w : List Char} {c : Char} (hw : Small w) :
    casing.image before c after ++ rest = w ↔ c.toLower :: rest = w := by
  by_cases hascii : c.toNat < 128
  · rw [casing.ascii before c after hascii]
    rfl
  · rw [Nat.not_lt] at hascii
    have hright : c.toLower :: rest ≠ w := fun heq => by
      rw [toLower_eq_self (.inr (by omega))] at heq
      have hrange := isLower_iff.mp (small_cons.mp (heq ▸ hw)).1.1
      omega
    refine iff_of_false (fun heq => ?_) hright
    by_cases hkelvin : c = kelvin
    · rw [hkelvin, casing.ofKelvin] at heq
      exact (small_cons.mp (heq ▸ hw)).1.2 rfl
    · obtain ⟨d, hd, halpha⟩ := casing.other before c after hascii hkelvin
      have hlower := (hw d (heq ▸ List.mem_append_left rest hd)).1
      have hletter : d.isAlpha = true := isAlpha_iff.mpr (.inr (isLower_iff.mp hlower))
      rw [halpha] at hletter
      cases hletter

theorem lowerFrom_eq_iff {before s w : List Char} (hw : Small w) :
    casing.lowerFrom before s = w ↔ s.map Char.toLower = w := by
  induction s generalizing before w with
  | nil => exact Iff.rfl
  | cons c cs ih =>
    rw [lowerFrom, image_append_eq_iff hw, List.map_cons]
    cases w with
    | nil => exact iff_of_false (List.cons_ne_nil _ _) (List.cons_ne_nil _ _)
    | cons d w =>
      rw [List.cons.injEq, List.cons.injEq, ih (small_cons.mp hw).2]

/-- **Lowering a text gives a small word if and only if the text is this word up to case.** -/
theorem lowered_eq_iff {s w : String} (hw : Small w.toList) :
    casing.lowered s = w ↔ SameUpToCase s w := by
  have hmap : w.toList.map Char.toLower = w.toList := hw.map_toLower
  rw [lowered, SameUpToCase, hmap, ← lowerFrom_eq_iff hw, ← String.toList_inj, String.toList_ofList]

end LowerCasing

/-- A text that is a small word up to case is in ASCII. -/
theorem SameUpToCase.ascii {s w : String} (hw : Small w.toList) (h : SameUpToCase s w) :
    ∀ c ∈ s.toList, c.toNat < 128 := by
  intro c hc
  refine Nat.lt_of_not_le fun hascii => ?_
  have hmem : c.toLower ∈ w.toList := by
    rw [← hw.map_toLower, ← h]
    exact List.mem_map_of_mem hc
  rw [toLower_eq_self (.inr (by omega))] at hmem
  have hrange := isLower_iff.mp (hw c hmem).1
  omega

/-! ## 3. The way that is taken -/

/-- Lowering the characters that matter is a way to lower a text. -/
def LowerCasing.basic : LowerCasing where
  image _ c _ := lowerChar c
  ascii _ c _ h := by
    have hkelvin : c ≠ '\u212a' := fun heq => absurd (heq ▸ h) (by decide)
    have hdotted : c ≠ '\u0130' := fun heq => absurd (heq ▸ h) (by decide)
    rw [lowerChar, if_neg hkelvin, if_neg hdotted]
  ofKelvin _ _ := rfl
  other _ c _ h hkelvin := by
    rw [lowerChar, if_neg (show c ≠ '\u212a' from hkelvin)]
    split
    · exact ⟨'\u0307', by decide, by decide⟩
    · refine ⟨c, ?_, Bool.eq_false_iff.mpr fun halpha => ?_⟩
      · rw [toLower_eq_self (.inr (by omega))]
        exact List.mem_singleton_self c
      · have hrange := isAlpha_iff.mp halpha
        omega

theorem lowerFrom_basic (before s : List Char) :
    LowerCasing.basic.lowerFrom before s = lower s := by
  induction s generalizing before with
  | nil => rfl
  | cons c cs ih => rw [LowerCasing.lowerFrom, ih, lower_cons]; rfl

theorem lowered_basic (s : String) : LowerCasing.basic.lowered s = lowered s :=
  congrArg String.ofList (lowerFrom_basic [] s.toList)

theorem lowered_eq_iff_sameUpToCase {s w : String} (hw : Small w.toList) :
    lowered s = w ↔ SameUpToCase s w := by
  rw [← lowered_basic]
  exact LowerCasing.lowered_eq_iff hw

end StructTags.Text
