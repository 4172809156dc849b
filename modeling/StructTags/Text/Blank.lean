/-!
# White space

Texts are lists of characters. This file fixes which characters separate words:

* `blankRanges` lists the code points with the Unicode property White_Space, as closed ranges;
* `isBlank` is membership in that list (`isBlank_eq_any`), and `Solid` says that a text has no such
  character.
-/

namespace StructTags.Text

/-! ## 1. The table -/

/-- The code points with the property White_Space, as closed ranges in increasing order. -/
def blankRanges : List (Nat × Nat) :=
  [(0x9, 0xD), (0x20, 0x20), (0x85, 0x85), (0xA0, 0xA0), (0x1680, 0x1680), (0x2000, 0x200A),
   (0x2028, 0x2029), (0x202F, 0x202F), (0x205F, 0x205F), (0x3000, 0x3000)]

/-- Whether a character is blank. In ASCII these are the space and the five controls from tab to
    carriage return, which most texts are settled by. -/
def isBlank (c : Char) : Bool :=
  if c.toNat < 0x80 then c.toNat = 0x20 || (0x9 ≤ c.toNat && c.toNat ≤ 0xD)
  else blankRanges.any fun range => range.1 ≤ c.toNat && c.toNat ≤ range.2

/-- A character is blank if its code point lies in one of the ranges. -/
theorem isBlank_eq_any (c : Char) :
    isBlank c = blankRanges.any fun range => range.1 ≤ c.toNat && c.toNat ≤ range.2 := by
  unfold isBlank
  split
  · rw [Bool.eq_iff_iff]
    simp only [blankRanges, List.any_cons, List.any_nil, Bool.or_eq_true, Bool.and_eq_true,
      decide_eq_true_eq, Bool.or_false]
    omega
  · rfl

/-! ## 2. Texts without blanks -/

/-- A text is solid if none of its characters is blank. -/
def Solid (s : List Char) : Prop := ∀ c ∈ s, isBlank c = false

instance (s : List Char) : Decidable (Solid s) := List.decidableBAll _ s

theorem solid_nil : Solid [] := fun _ h => nomatch h

theorem solid_cons {c : Char} {s : List Char} :
    Solid (c :: s) ↔ isBlank c = false ∧ Solid s := List.forall_mem_cons

theorem solid_append {s t : List Char} : Solid (s ++ t) ↔ Solid s ∧ Solid t :=
  List.forall_mem_append

theorem Solid.concat {s : List Char} (h : Solid s) {c : Char} (hc : isBlank c = false) :
    Solid (s ++ [c]) := solid_append.mpr ⟨h, solid_cons.mpr ⟨hc, solid_nil⟩⟩

theorem Solid.notMem {s : List Char} (h : Solid s) {c : Char} (hc : isBlank c = true) : c ∉ s :=
  fun hmem => Bool.false_ne_true ((h c hmem).symm.trans hc)

/-- A text that begins with a solid word does not begin with a blank. -/
theorem isBlank_of_cons_eq_append {c : Char} {s w t : List Char} (hw : Solid w) (hne : w ≠ [])
    (h : c :: s = w ++ t) : isBlank c = false := by
  obtain ⟨d, w, rfl⟩ := List.exists_cons_of_ne_nil hne
  rw [(List.cons.inj h).1]
  exact (solid_cons.mp hw).1

end StructTags.Text
