import StructTags.Text.Blank
import StructTags.Text.Size

/-!
# Pairs of struct tags

A pair names a serialization scheme and a value, written `scheme:"value"`. This file fixes

* the two schemes and their names (`Scheme.name`, `Scheme.ofName?`, each undoing the other);
* the written form of a pair (`Pair.raw`) and how long it is (`Pair.length`, `Pair.size`);
* which pairs can be written at all (`Pair.Valid`): the value is not empty and has no
  blank. Quotes and backticks are allowed in it.
-/

namespace StructTags

/-! ## 1. Delimiters -/

/-- The character that opens and closes a tag. -/
def backtick : Char := '\x60'

/-- The character that opens and closes the value of a pair. -/
def quote : Char := '\x22'

/-! ## 2. Schemes -/

/-- A serialization scheme. -/
inductive Scheme where
  | json
  | msgpack
  deriving DecidableEq, Repr

namespace Scheme

/-- The name of a scheme, as pairs spell it. -/
def name : Scheme → List Char
  | json => ['j', 's', 'o', 'n']
  | msgpack => ['m', 's', 'g', 'p', 'a', 'c', 'k']

/-- All schemes. -/
def all : List Scheme := [json, msgpack]

/-- The scheme of that name, spelled exactly so. -/
def ofName? (text : List Char) : Option Scheme := all.find? (·.name == text)

theorem ofName?_name (s : Scheme) : ofName? s.name = some s := by cases s <;> rfl

theorem mem_all (s : Scheme) : s ∈ all := by cases s <;> decide

/-- What a pair of the scheme starts with: the name, a colon and the opening quote. -/
def lead : Scheme → List Char
  | json => ['j', 's', 'o', 'n', ':', quote]
  | msgpack => ['m', 's', 'g', 'p', 'a', 'c', 'k', ':', quote]

theorem lead_eq (s : Scheme) : s.lead = s.name ++ [':', quote] := by cases s <;> rfl

/-- A lead takes one byte for each character. -/
theorem byteLength_lead (s : Scheme) : Text.byteLength s.lead = s.lead.length := by cases s <;> rfl

theorem solid_lead (s : Scheme) : Text.Solid s.lead := by
  have h : s.lead.all (!Text.isBlank ·) = true := by cases s <;> rfl
  intro c hc
  simpa using List.all_eq_true.mp h c hc

end Scheme

/-! ## 3. Pairs -/

/-- One `scheme:"value"` pair. -/
structure Pair where
  scheme : Scheme
  value : List Char
  deriving DecidableEq, Repr

namespace Pair

/-- The pair as it is written. -/
def raw (a : Pair) : List Char := a.scheme.lead ++ a.value ++ [quote]

/-- The number of characters of the pair as it is written. -/
def length (a : Pair) : Nat := a.scheme.lead.length + a.value.length + 1

theorem length_raw (a : Pair) : a.raw.length = a.length := by simp [raw, length, Nat.add_assoc]

/-- The number of bytes of the pair as it is written. -/
def size (a : Pair) : Nat := a.scheme.lead.length + Text.byteLength a.value + 1

theorem byteLength_raw (a : Pair) : Text.byteLength a.raw = a.size := by
  simp [raw, size, Scheme.byteLength_lead, Nat.add_assoc, show quote.utf8Size = 1 from rfl]

/-- A pair can be written if its value is not empty and holds no blank. -/
def Valid (a : Pair) : Prop := a.value ≠ [] ∧ Text.Solid a.value

instance (a : Pair) : Decidable a.Valid := inferInstanceAs (Decidable (_ ∧ _))

theorem raw_ne_nil (a : Pair) : a.raw ≠ [] := by
  cases a with | mk scheme value => cases scheme <;> simp [raw, Scheme.lead]

end Pair

end StructTags
