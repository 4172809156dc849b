import StructTags.Text.Lossy

/-!
# Names and paths

A name and a path are bytes. What a directory has entries for are names: they are not empty, they
are not the two names that every directory has for itself and its parent, and they have no slash.

* `Fault`: the ways in which a service of the file system fails;
* `Name`: a name that a directory can have an entry for;
* `Path`: a path as it is written, with its last name;
* `Path.join`: the path of a name in a directory;
* `Path.fileName?_join`: its last name is this name, whatever the path of the directory looks like;
* `Path.fault?`: why a path cannot be followed whatever there is in the file system.
-/

namespace StructTags

/-! ## 1. Faults -/

/-- Why a service failed. -/
inductive Fault where
  | notFound
  | denied
  | notDirectory
  | isDirectory
  | nameTooLong
  | tooManyLinks
  | badPath
  | full
  | other (reason : String)
  deriving DecidableEq, Repr

namespace Fault

/-- The reason in words. -/
def message : Fault → String
  | notFound => "no such file or directory"
  | denied => "permission denied"
  | notDirectory => "not a directory"
  | isDirectory => "is a directory"
  | nameTooLong => "file name too long"
  | tooManyLinks => "too many levels of symbolic links"
  | badPath => "file name contains a NUL character"
  | full => "no space left"
  | other reason => reason

end Fault

/-! ## 2. Names -/

/-- The byte between the names of a path. -/
def slash : UInt8 := 0x2F

/-- The byte that alone names the current directory, and twice the parent. -/
def dot : UInt8 := 0x2E

/-- The bytes can name an entry of a directory. -/
def IsName (bytes : List UInt8) : Prop :=
  bytes ≠ [] ∧ bytes ≠ [dot] ∧ bytes ≠ [dot, dot] ∧ slash ∉ bytes

instance (bytes : List UInt8) : Decidable (IsName bytes) :=
  inferInstanceAs (Decidable (_ ∧ _ ∧ _ ∧ _))

/-- A name that a directory can have an entry for. -/
structure Name where
  bytes : List UInt8
  isName : IsName bytes
  deriving DecidableEq, Repr

namespace Name

/-- The name that a text spells. -/
def ofText (s : String) (h : IsName (Text.bytesOf s) := by decide) : Name := ⟨Text.bytesOf s, h⟩

theorem ext_bytes {a b : Name} (h : a.bytes = b.bytes) : a = b := by
  cases a
  cases h
  rfl

theorem lt_of_le_of_ne {a b : Name} (hle : a.bytes ≤ b.bytes) (hne : a ≠ b) : a.bytes < b.bytes := by
  rcases List.le_iff_lt_or_eq.mp hle with hlt | heq
  · exact hlt
  · exact absurd (ext_bytes heq) hne

end Name

/-! ## 3. Paths -/

/-- A path as it is written. -/
structure Path where
  bytes : List UInt8
  deriving DecidableEq, Repr

namespace Path

/-- The path that a text spells. -/
def ofText (s : String) : Path := ⟨Text.bytesOf s⟩

/-- The path as it is shown. -/
def display (p : Path) : String := Text.lossy p.bytes

@[simp] theorem display_ofText (s : String) : (ofText s).display = s := Text.lossy_bytesOf s

/-- Whether the path begins at the root. -/
def isAbsolute (p : Path) : Bool := p.bytes.head? = some slash

/-- The path of a name in the directory at `p`. A slash is put between unless one is there, or there
    is nothing in front of the name. -/
def join (p : Path) (name : Name) : Path :=
  ⟨if p.bytes = [] ∨ p.bytes.getLast? = some slash then p.bytes ++ name.bytes
    else p.bytes ++ slash :: name.bytes⟩

theorem join_inj {dir : Path} {a b : Name} : dir.join a = dir.join b ↔ a = b := by
  constructor
  · intro h
    have hbytes := Path.mk.inj h
    split at hbytes
    · exact Name.ext_bytes (List.append_cancel_left hbytes)
    · exact Name.ext_bytes (List.cons.inj (List.append_cancel_left hbytes)).2
  · intro h
    rw [h]

/-- A path in a directory ends in the name, with a slash in front or nothing. -/
theorem bytes_join (dir : Path) (name : Name) :
    (dir.join name).bytes = name.bytes ∨
      ∃ front, (dir.join name).bytes = front ++ slash :: name.bytes := by
  unfold join
  split
  · rename_i h
    rcases h with hempty | hslash
    · exact .inl (by rw [hempty, List.nil_append])
    · obtain ⟨front, hfront⟩ := List.getLast?_eq_some_iff.mp hslash
      exact .inr ⟨front, by rw [hfront, List.append_assoc, List.singleton_append]⟩
  · exact .inr ⟨dir.bytes, rfl⟩

/-! ## 4. Last names -/

/-- The last name of a path, if there is one and it is not the one of the parent. Empty parts and
    single dots are no names. -/
def fileName? (path : Path) : Option (List UInt8) :=
  match ((path.bytes.splitOn slash).filter fun part => part ≠ [] ∧ part ≠ [dot]).getLast? with
  | none => none
  | some part => if part = [dot, dot] then none else some part

/-- **The last name of a path in a directory is the name**, whatever the path of the directory looks
    like. -/
theorem fileName?_join (dir : Path) (name : Name) : (dir.join name).fileName? = some name.bytes := by
  obtain ⟨hempty, hdot, hdots, hslash⟩ := name.isName
  have hsingle := List.splitOn_eq_singleton hslash
  have hpart : [name.bytes].filter (fun part => part ≠ [] ∧ part ≠ [dot]) = [name.bytes] := by
    simp [hempty, hdot]
  have hlast : (((dir.join name).bytes.splitOn slash).filter fun part =>
      part ≠ [] ∧ part ≠ [dot]).getLast? = some name.bytes := by
    rcases bytes_join dir name with hbytes | ⟨front, hbytes⟩
    · rw [hbytes, hsingle, hpart]
      rfl
    · have hsplit : (front ++ slash :: name.bytes).splitOn slash =
          front.splitOn slash ++ name.bytes.splitOn slash :=
        List.splitOnP_append_cons front name.bytes (by decide)
      rw [hbytes, hsplit, hsingle, List.filter_append, hpart, List.getLast?_append]
      rfl
  rw [fileName?, hlast]
  exact if_neg hdots

/-- The last name of the first path does not come after the one of the second; no name comes
    first. -/
def notAfter (a b : Path) : Bool :=
  match a.fileName?, b.fileName? with
  | none, _ => true
  | some _, none => false
  | some x, some y => x ≤ y

/-! ## 5. Paths that cannot be followed -/

/-- The most bytes a path may have. -/
def limit : Nat := 4095

/-- Why the path cannot be followed, whatever there is in the file system. -/
def fault? (p : Path) : Option Fault :=
  if 0 ∈ p.bytes then some .badPath
  else if p.bytes = [] then some .notFound
  else if limit < p.bytes.length then some .nameTooLong
  else none

end Path

end StructTags
