import StructTags.Proofs.Disk.Reach

/-!
# Trails

What a path leads to is found out step by step, with a limit on the links that are followed. This
file says the same without a limit, as a relation between what is still to be done before and after:

* `Move`: one step that follows no link;
* `Trail`: any number of steps, and how many links were followed on them;
* `Trail.walk`, `Trail.walk_of_lt`: a trail is what the walk does, as long as it has links left;
* `walk_eq_on_iff`: so the walk ends where a trail of no more links does;
* `Trail.exists_of_lap`: a trail that comes back to where it was follows links without end;
* `Regular`, `Dangles`, `Loops`: a path leads to a file, to a free name, or on and on;
* **`isFile_iff_regular`**: a path is taken for one of a file if and only if it leads to one, and so
  not if it dangles, loops or fails.
-/

namespace StructTags

namespace Disk

/-! ## 1. Moves -/

/-- The node is this directory, and it may be searched. -/
def Searchable (disk : Disk) (id : NodeId) (d : Directory) : Prop :=
  (disk.node id).body = .directory d ∧ (disk.node id).bars.search = none

/-- A name can be looked up in this directory, which is the node. -/
def LooksUp (disk : Disk) (id : NodeId) (d : Directory) (name : Name) : Prop :=
  disk.Searchable id d ∧ d.removed = false ∧ name.bytes.length ≤ nameLimit

/-- One step of a path that follows no link: where one is, and the steps that are left. -/
inductive Move (disk : Disk) : NodeId → List Step → NodeId → List Step → Prop where
  | inDirectory {id : NodeId} {rest : List Step} {d : Directory} :
      (disk.node id).body = .directory d → Move disk id (.inDirectory :: rest) id rest
  | here {id : NodeId} {rest : List Step} {d : Directory} :
      disk.Searchable id d → Move disk id (.here :: rest) id rest
  | up {id : NodeId} {rest : List Step} {d : Directory} :
      disk.Searchable id d → Move disk id (.up :: rest) d.parent rest
  | down {id next : NodeId} {rest : List Step} {name : Name} {d : Directory} :
      disk.LooksUp id d name → d.entries.lookup name = some next →
      (∀ target, (disk.node next).body ≠ .link target) →
      Move disk id (.name name :: rest) next rest

/-- Any number of steps of a path, on which this many links are followed. -/
inductive Trail (disk : Disk) : Nat → NodeId → List Step → NodeId → List Step → Prop where
  | done (id : NodeId) (steps : List Step) : Trail disk 0 id steps id steps
  | move {n : Nat} {id id' id'' : NodeId} {steps steps' steps'' : List Step} :
      Move disk id steps id' steps' → Trail disk n id' steps' id'' steps'' →
      Trail disk n id steps id'' steps''
  | link {n : Nat} {id next id' : NodeId} {rest steps' : List Step} {name : Name} {d : Directory}
      {target : Target} :
      disk.LooksUp id d name → d.entries.lookup name = some next →
      (disk.node next).body = .link target →
      Trail disk n (disk.origin id target.path) (steps target.path ++ rest) id' steps' →
      Trail disk (n + 1) id (.name name :: rest) id' steps'

section

variable {disk : Disk} {id id' : NodeId} {todo todo' : List Step} {d : Directory}

theorem enter_of_searchable (h : disk.Searchable id d) (step : Step) :
    disk.enter id step = .ok d := by
  obtain ⟨hbody, hbar⟩ := h
  rw [enter, hbody]
  dsimp only
  rw [hbar]
  exact ite_self _

theorem searchable_of_enter {step : Step} (h : disk.enter id step = .ok d)
    (hne : step ≠ .inDirectory) : disk.Searchable id d := by
  have hbody := directory_of_enter h
  rw [enter, hbody] at h
  dsimp only at h
  rw [if_neg hne] at h
  cases hbar : (disk.node id).bars.search with
  | none => exact ⟨hbody, hbar⟩
  | some fault =>
    rw [hbar] at h
    cases h

/-! ## 2. Trails and walks -/

/-- A step down to a name that can be looked up depends on what is there. -/
theorem walk_name {name : Name} (h : disk.LooksUp id d name) (links : Nat) (rest : List Step) :
    disk.walk false links id (.name name :: rest) =
      match d.entries.lookup name with
      | none => if rest = [] then .ok (.vacant id name) else .error .notFound
      | some next =>
        match (disk.node next).body with
        | .link target =>
          match links with
          | 0 => .error .tooManyLinks
          | links + 1 =>
            disk.walk false links (disk.origin id target.path) (steps target.path ++ rest)
        | _ => disk.walk false links next rest := by
  obtain ⟨hsearch, hremoved, hlong⟩ := h
  rw [walk, enter_of_searchable hsearch]
  dsimp only
  rewrite [if_neg (by simp), if_neg (by simp [hremoved]), if_neg (Nat.not_lt.mpr hlong)]
  rfl

theorem Move.walk (h : Move disk id todo id' todo') (links : Nat) :
    disk.walk false links id todo = disk.walk false links id' todo' := by
  cases h with
  | inDirectory hbody =>
    rw [Disk.walk, enter, hbody]
    rfl
  | here hsearch => rw [Disk.walk, enter_of_searchable hsearch]
  | up hsearch => rw [Disk.walk, enter_of_searchable hsearch]
  | down hname hnext hlink =>
    rw [walk_name hname, hnext]
    dsimp only
    cases hbody : (disk.node id').body with
    | link target => exact absurd hbody (hlink target)
    | _ => rfl

/-- **A trail is what the walk does**, which uses up the links that are followed on it. -/
theorem Trail.walk {n : Nat} (h : Trail disk n id todo id' todo') (links : Nat) :
    disk.walk false (links + n) id todo = disk.walk false links id' todo' := by
  induction h with
  | done id todo => rfl
  | move hmove _ ih => rw [hmove.walk, ih]
  | link hname hnext hbody _ ih =>
    rw [← Nat.add_assoc, walk_name hname, hnext]
    dsimp only
    rw [hbody]
    exact ih

/-- The walk fails if there are more links on a trail than it may follow. -/
theorem Trail.walk_of_lt {n links : Nat} (h : Trail disk n id todo id' todo')
    (hlt : links < n) : disk.walk false links id todo = .error .tooManyLinks := by
  induction h generalizing links with
  | done id todo => exact absurd hlt (Nat.not_lt_zero _)
  | move hmove _ ih => rw [hmove.walk, ih hlt]
  | link hname hnext hbody _ ih =>
    rw [walk_name hname, hnext]
    dsimp only
    rw [hbody]
    cases links with
    | zero => rfl
    | succ links => exact ih (Nat.lt_of_succ_lt_succ hlt)

/-- Where the walk ends, a trail leads there on which no more links are followed than the walk
    may. -/
theorem exists_trail_of_walk {links : Nat}
    (h : disk.walk false links id todo = .ok (.on id')) :
    ∃ n, n ≤ links ∧ Trail disk n id todo id' [] := by
  -- the walk goes on, or ends, in the cases that are named; in all others it fails
  fun_induction Disk.walk disk false links id todo with
  | case1 links id =>
    obtain rfl := Landing.on.inj (Except.ok.inj h)
    exact ⟨0, Nat.zero_le _, .done id []⟩
  | case3 links id rest d henter ih =>
    obtain ⟨n, hn, htrail⟩ := ih h
    exact ⟨n, hn, .move (.inDirectory (directory_of_enter henter)) htrail⟩
  | case4 links id rest d henter ih =>
    obtain ⟨n, hn, htrail⟩ := ih h
    exact ⟨n, hn, .move (.here (searchable_of_enter henter (by decide))) htrail⟩
  | case5 links id rest d henter ih =>
    obtain ⟨n, hn, htrail⟩ := ih h
    exact ⟨n, hn, .move (.up (searchable_of_enter henter (by decide))) htrail⟩
  | case12 id rest d name _ hremoved hlong next hnext target hbody links henter ih =>
    have hname : disk.LooksUp id d name :=
      ⟨searchable_of_enter henter (by simp), by simpa using hremoved, Nat.not_lt.mp hlong⟩
    obtain ⟨n, hn, htrail⟩ := ih h
    exact ⟨n + 1, Nat.succ_le_succ hn, .link hname hnext hbody htrail⟩
  | case13 links id rest d name _ hremoved hlong next hnext hlink henter ih =>
    have hname : disk.LooksUp id d name :=
      ⟨searchable_of_enter henter (by simp), by simpa using hremoved, Nat.not_lt.mp hlong⟩
    obtain ⟨n, hn, htrail⟩ := ih h
    exact ⟨n, hn, .move (.down hname hnext hlink) htrail⟩
  | _ => cases h

/-- **The walk ends where a trail does**, if it may follow all the links on it. -/
theorem walk_eq_on_iff {links : Nat} : disk.walk false links id todo = .ok (.on id') ↔
    ∃ n, n ≤ links ∧ Trail disk n id todo id' [] := by
  constructor
  · exact exists_trail_of_walk
  · intro ⟨n, hn, htrail⟩
    rw [← Nat.sub_add_cancel hn, htrail.walk, walk]

/-! ## 3. Laps -/

theorem Move.append (h : Move disk id todo id' todo') (more : List Step) :
    Move disk id (todo ++ more) id' (todo' ++ more) := by
  cases h with
  | inDirectory hbody => exact .inDirectory hbody
  | here hsearch => exact .here hsearch
  | up hsearch => exact .up hsearch
  | down hname hnext hlink => exact .down hname hnext hlink

/-- What is to be done later does not matter to a trail. -/
theorem Trail.append {n : Nat} (h : Trail disk n id todo id' todo') (more : List Step) :
    Trail disk n id (todo ++ more) id' (todo' ++ more) := by
  induction h with
  | done id todo => exact .done id (todo ++ more)
  | move hmove _ ih => exact .move (hmove.append more) ih
  | link hname hnext hbody _ ih =>
    rw [List.append_assoc] at ih
    exact .link hname hnext hbody ih

theorem Trail.trans {m n : Nat} {id'' : NodeId} {todo'' : List Step}
    (h : Trail disk m id todo id' todo') (h' : Trail disk n id' todo' id'' todo'') :
    Trail disk (m + n) id todo id'' todo'' := by
  induction h with
  | done id todo => rwa [Nat.zero_add]
  | move hmove _ ih => exact .move hmove (ih h')
  | link hname hnext hbody _ ih =>
    rw [Nat.succ_add]
    exact .link hname hnext hbody (ih h')

/-- **A trail that comes back to where it was, over a link and with no less to do, goes on without
    end.** -/
theorem Trail.exists_of_lap {n : Nat} {more : List Step}
    (h : Trail disk (n + 1) id todo id (todo ++ more)) (k : Nat) :
    ∃ m, k ≤ m ∧ ∃ todo', Trail disk m id todo id todo' := by
  induction k generalizing todo with
  | zero => exact ⟨0, Nat.le_refl 0, todo, .done id todo⟩
  | succ k ih =>
    obtain ⟨m, hm, todo', hrest⟩ := ih (h.append more)
    exact ⟨n + 1 + m, by omega, todo', h.trans hrest⟩

end

/-! ## 4. Where paths lead -/

/-- A trail of the whole path, from the root if it begins with a slash, and else from the directory of
    the process. -/
def Follows (disk : Disk) (n : Nat) (path : Path) (id : NodeId) (todo : List Step) : Prop :=
  path.fault? = none ∧ disk.Trail n (disk.origin disk.here path) (steps path) id todo

/-- Through links or not, the path leads to a regular file. -/
def Regular (disk : Disk) (path : Path) : Prop :=
  ∃ n id content, n ≤ linkLimit ∧ disk.Follows n path id [] ∧
    (disk.node id).body = .file content

/-- Through links or not, the path leads to a name that is free. -/
def Dangles (disk : Disk) (path : Path) : Prop :=
  ∃ n id d name rest, n ≤ linkLimit ∧ disk.Follows n path id (.name name :: rest) ∧
    disk.LooksUp id d name ∧ d.entries.lookup name = none

/-- On the path there is always one more link to follow. -/
def Loops (disk : Disk) (path : Path) : Prop :=
  ∀ k, ∃ n, k ≤ n ∧ ∃ id todo, disk.Follows n path id todo

section

variable {disk : Disk} {path : Path} {id : NodeId}

theorem Follows.trans {m n : Nat} {id' : NodeId} {todo todo' : List Step}
    (h : disk.Follows m path id todo) (h' : disk.Trail n id todo id' todo') :
    disk.Follows (m + n) path id' todo' :=
  ⟨h.1, h.2.trans h'⟩

/-- A path whose trail comes back to where it was loops. -/
theorem loops_of_lap {m n : Nat} {todo more : List Step} (hstart : disk.Follows m path id todo)
    (hlap : disk.Trail (n + 1) id todo id (todo ++ more)) : disk.Loops path := by
  intro k
  obtain ⟨l, hl, todo', hrest⟩ := hlap.exists_of_lap k
  exact ⟨m + l, by omega, id, todo', hstart.trans hrest⟩

theorem locate_of_fault (h : path.fault? = none) (creating : Bool) :
    disk.locate creating path =
      disk.walk creating linkLimit (disk.origin disk.here path) (steps path) := by
  rw [locate, h]

/-- A path leads where it is followed to its end. -/
theorem leadsTo_iff : disk.LeadsTo path id ↔ ∃ n, n ≤ linkLimit ∧ disk.Follows n path id [] := by
  rw [leadsTo_iff_locate]
  cases h : path.fault? with
  | some fault =>
    constructor
    · intro hlocate
      rw [locate, h] at hlocate
      cases hlocate
    · intro hfollows
      obtain ⟨n, hn, hsound, htrail⟩ := hfollows
      rw [h] at hsound
      cases hsound
  | none =>
    rw [locate_of_fault h, walk_eq_on_iff]
    simp only [Follows, h, true_and]

/-- **A path is taken for one of a regular file if and only if it leads to one.** -/
theorem isFile_iff_regular : disk.isFile path = true ↔ disk.Regular path := by
  rw [isFile_eq_true_iff]
  constructor
  · intro ⟨id, hleads, hfile⟩
    obtain ⟨n, hn, hfollows⟩ := leadsTo_iff.mp hleads
    obtain ⟨content, hbody⟩ := Inode.exists_of_isFile hfile
    exact ⟨n, id, content, hn, hfollows, hbody⟩
  · intro ⟨n, id, content, hn, hfollows, hbody⟩
    exact ⟨id, leadsTo_iff.mpr ⟨n, hn, hfollows⟩, by rw [Inode.isFile, hbody]⟩

/-- A path that dangles leads nowhere. -/
theorem find_of_dangles (h : disk.Dangles path) : disk.find path = .error .notFound := by
  obtain ⟨n, id, d, name, rest, hn, ⟨hsound, htrail⟩, hname, hfree⟩ := h
  rw [find, locate_of_fault hsound, ← Nat.sub_add_cancel hn, htrail.walk, walk_name hname, hfree]
  cases rest <;> rfl

/-- A path with too many links fails, wherever they lead. -/
theorem find_of_linkLimit_lt {n : Nat} {todo : List Step} (h : disk.Follows n path id todo)
    (hlt : linkLimit < n) : disk.find path = .error .tooManyLinks := by
  rw [find, locate_of_fault h.1, h.2.walk_of_lt hlt]

/-- A path that loops has too many links. -/
theorem find_of_loops (h : disk.Loops path) : disk.find path = .error .tooManyLinks := by
  obtain ⟨n, hn, id, todo, hfollows⟩ := h (linkLimit + 1)
  exact find_of_linkLimit_lt hfollows hn

/-- What cannot be found is no file. -/
theorem not_regular_of_error {fault : Fault} (h : disk.find path = .error fault) :
    ¬ disk.Regular path := by
  rw [← isFile_iff_regular, isFile, h]
  exact Bool.false_ne_true

/-- What is something else is no file. -/
theorem not_regular_of_leadsTo (h : disk.LeadsTo path id)
    (hnot : ∀ content, (disk.node id).body ≠ .file content) : ¬ disk.Regular path := by
  intro ⟨n, id', content, hn, hfollows, hbody⟩
  obtain rfl := h.unique (leadsTo_iff.mpr ⟨n, hn, hfollows⟩)
  exact hnot content hbody

end

end Disk

end StructTags
