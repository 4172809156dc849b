import Mathlib
import StructTags.Proofs.Disk.Trail
import StructTags.Proofs.Pass.Course

/-!
# Lists of files

A directory hands out its entries in any order, and the files among them are listed in the order of
their names. This file says that the list does not depend on the first order:

* `Path.notAfter_join`: paths in one directory are sorted by the bytes of their names, whatever the
  path of the directory looks like;
* `Disk.sortedNames`, `Disk.sortedFiles_eq`: so the names may be sorted before they are made paths;
* `Disk.sortedNames_perm`, `Disk.pairwise_sortedNames`: the sorted names are the same for all orders,
  and strictly increasing if no name comes twice;
* **`listFiles_canonical`**: whatever the order, the list holds each regular file once, in the order
  of its name, and nothing else;
* `listFiles_of_fault`: a directory that fails to deliver an entry is not listed at all.
-/

namespace StructTags

/-! ## 1. Names -/

/-- Paths in one directory are in the order of their names. -/
theorem Path.notAfter_join (dir : Path) (a b : Name) :
    Path.notAfter (dir.join a) (dir.join b) = decide (a.bytes ≤ b.bytes) := by
  rw [Path.notAfter, Path.fileName?_join, Path.fileName?_join]

namespace Disk

variable {disk : Disk} {dir : Path}

/-- The names in a directory that are those of files, in byte order. -/
def sortedNames (disk : Disk) (dir : Path) (names : List Name) : List Name :=
  (names.filter fun name => disk.isFile (dir.join name)).mergeSort fun a b => a.bytes ≤ b.bytes

/-- **Whether names or whole paths are sorted does not matter.** -/
theorem sortedFiles_eq (names : List Name) :
    disk.sortedFiles dir names = (disk.sortedNames dir names).map dir.join := by
  rw [sortedFiles, sortedNames, List.filter_map, ← List.map_mergeSort]
  · rfl
  · intro a _ b _
    exact (Path.notAfter_join dir a b).symm

theorem mem_sortedNames {names : List Name} {name : Name} :
    name ∈ disk.sortedNames dir names ↔ name ∈ names ∧ disk.isFile (dir.join name) = true := by
  rw [sortedNames, (List.mergeSort_perm _ _).mem_iff, List.mem_filter]

theorem pairwise_le_sortedNames (names : List Name) :
    (disk.sortedNames dir names).Pairwise fun a b => a.bytes ≤ b.bytes := by
  have h := @List.pairwise_mergeSort _ (fun a b : Name => decide (a.bytes ≤ b.bytes))
    (fun a b c hab hbc =>
      decide_eq_true (List.le_trans (of_decide_eq_true hab) (of_decide_eq_true hbc)))
    (fun a b => by rcases List.le_total a.bytes b.bytes with h | h <;> simp [h])
    (names.filter fun name => disk.isFile (dir.join name))
  exact h.imp of_decide_eq_true

/-- **The sorted names do not depend on the order of the entries.** -/
theorem sortedNames_perm {names names' : List Name} (h : names.Perm names') :
    disk.sortedNames dir names = disk.sortedNames dir names' := by
  have hperm : (disk.sortedNames dir names).Perm (disk.sortedNames dir names') :=
    (List.mergeSort_perm _ _).trans ((h.filter _).trans (List.mergeSort_perm _ _).symm)
  refine List.Perm.eq_of_pairwise (fun a b _ _ hab hba => ?_) (pairwise_le_sortedNames names)
    (pairwise_le_sortedNames names') hperm
  exact Name.ext_bytes (List.le_antisymm hab hba)

theorem nodup_sortedNames {names : List Name} (h : names.Nodup) :
    (disk.sortedNames dir names).Nodup := by
  rw [sortedNames, (List.mergeSort_perm _ _).nodup_iff]
  exact h.sublist List.filter_sublist

theorem pairwise_sortedNames {names : List Name} (h : names.Nodup) :
    (disk.sortedNames dir names).Pairwise fun a b => a.bytes < b.bytes :=
  ((pairwise_le_sortedNames names).and (nodup_sortedNames h)).imp fun hab =>
    Name.lt_of_le_of_ne hab.1 hab.2

/-- What is listed are the paths of the names that lead to a regular file. -/
theorem mem_map_sortedNames {names : List Name} {path : Path} :
    path ∈ (disk.sortedNames dir names).map dir.join ↔
      ∃ name ∈ names, path = dir.join name ∧ disk.Regular path := by
  rw [List.mem_map]
  constructor
  · rintro ⟨name, hname, rfl⟩
    obtain ⟨hmem, hfile⟩ := mem_sortedNames.mp hname
    exact ⟨name, hmem, rfl, isFile_iff_regular.mp hfile⟩
  · rintro ⟨name, hmem, rfl, hregular⟩
    exact ⟨name, mem_sortedNames.mpr ⟨hmem, isFile_iff_regular.mpr hregular⟩, rfl⟩

end Disk

/-! ## 2. Lists -/

section

variable {host : Host (StateM World)} {dir : Path} {w : World}

/-- What becomes of the entries that a directory delivers. -/
theorem listFiles_of_entries {delivered : List (Except Fault Name)}
    (hentries : host.entries dir w = (.ok delivered, w))
    (hfile : ∀ path, host.isFile path w = (w.disk.isFile path, w)) :
    listFiles host dir w =
      (match w.disk.filesAmong dir delivered with
        | .error e => .error e
        | .ok paths => .ok (paths.mergeSort Path.notAfter), w) := by
  rw [listFiles, bind_state, hentries]
  dsimp only
  rw [bind_state, filesAmong_of_isFile hfile]
  cases w.disk.filesAmong dir delivered <;> rfl

theorem listFiles_of_names {names : List Name}
    (hentries : host.entries dir w = (.ok (names.map .ok), w))
    (hfile : ∀ path, host.isFile path w = (w.disk.isFile path, w)) :
    listFiles host dir w = (.ok ((w.disk.sortedNames dir names).map dir.join), w) := by
  rw [listFiles_of_entries hentries hfile, Disk.filesAmong_map_ok, ← Disk.sortedFiles_eq]
  rfl

/-- **A directory that fails to deliver an entry is not listed at all**, whatever comes before and
    behind it. -/
theorem listFiles_of_fault {names : List Name} {fault : Fault} {rest : List (Except Fault Name)}
    (hentries : host.entries dir w = (.ok (names.map .ok ++ .error fault :: rest), w))
    (hfile : ∀ path, host.isFile path w = (w.disk.isFile path, w)) :
    listFiles host dir w = (.error (entryError dir fault), w) := by
  rw [listFiles_of_entries hentries hfile, Disk.filesAmong_of_fault]

end

/-- **The list of the files of a directory does not depend on the order of its entries.** Let the
    directory be listed with the given names. Some of them are such that the list is that of the
    directory joined with each of these, in whatever order the entries are delivered. They are
    strictly increasing in their bytes, and the list holds the path of each name that leads to a
    regular file, through links or not, once, and nothing else. So what dangles, what loops, what
    cannot be looked at and what is no file is left out. -/
theorem listFiles_canonical {w : World} {dir : Path} {names : List Name}
    (h : w.disk.Lists dir names) :
    ∃ files : List Name,
      (∀ (host : Host (StateM World)) (names' : List Name), names'.Perm names →
        host.entries dir w = (.ok (names'.map .ok), w) →
        (∀ path, host.isFile path w = (w.disk.isFile path, w)) →
          listFiles host dir w = (.ok (files.map dir.join), w)) ∧
      listFiles World.host dir w = (.ok (files.map dir.join), w) ∧
      files.Pairwise (fun a b => a.bytes < b.bytes) ∧
      (files.map dir.join).Nodup ∧
      (∀ path, path ∈ files.map dir.join ↔
        ∃ name ∈ names, path = dir.join name ∧ w.disk.Regular path) ∧
      ∀ name ∈ names, (w.disk.Dangles (dir.join name) ∨ w.disk.Loops (dir.join name) ∨
          (∃ fault, w.disk.find (dir.join name) = .error fault) ∨
          ∃ id, w.disk.LeadsTo (dir.join name) id ∧
            ∀ content, (w.disk.node id).body ≠ .file content) →
        dir.join name ∉ files.map dir.join := by
  refine ⟨w.disk.sortedNames dir names, fun host names' hperm hentries hfile => ?_, ?_,
    Disk.pairwise_sortedNames h.nodup, ?_, fun path => Disk.mem_map_sortedNames,
    fun name hname hnone hlisted => ?_⟩
  · rw [listFiles_of_names hentries hfile, Disk.sortedNames_perm hperm]
  · rw [listFiles_host, h.files, Disk.sortedFiles_eq]
  · exact List.pairwise_map.mpr ((Disk.nodup_sortedNames h.nodup).imp fun hne heq =>
      hne (Path.join_inj.mp heq))
  · obtain ⟨-, -, -, hregular⟩ := Disk.mem_map_sortedNames.mp hlisted
    rcases hnone with hdangles | hloops | ⟨fault, hfault⟩ | ⟨id, hleads, hnot⟩
    · exact Disk.not_regular_of_error (Disk.find_of_dangles hdangles) hregular
    · exact Disk.not_regular_of_error (Disk.find_of_loops hloops) hregular
    · exact Disk.not_regular_of_error hfault hregular
    · exact Disk.not_regular_of_leadsTo hleads hnot hregular

/-- A disk with a directory w, in which the process runs: a subdirectory, a file that has a second
    name which is no text, a link to itself, a link that leads nowhere from the root, and one that
    leads from the root to the file by way of the subdirectory. -/
def mixedDisk : Disk where
  nodes := [
    sampleRoot,
    { body := .directory
        { entries := [(⟨[0xFF], by decide⟩, 3), (.ofText "sub", 2), (.fileB, 3),
            (.ofText "loop", 4), (.ofText "gone", 5), (.fileA, 6)]
          parent := 0 }
      mode := .newDirectory },
    .newDirectory 1,
    .newFile .empty,
    { body := .link ⟨.ofText "loop", by decide⟩, mode := { permissions := 0o777 } },
    { body := .link ⟨.ofText "/w/nowhere", by decide⟩, mode := { permissions := 0o777 } },
    { body := .link ⟨.ofText "/w/sub/../b.go", by decide⟩, mode := { permissions := 0o777 } }]
  here := 1

/-- The names in its directory. -/
def mixedNames : List Name :=
  [⟨[0xFF], by decide⟩, .ofText "sub", .fileB, .ofText "loop", .ofText "gone", .fileA]

theorem lists_mixedDisk : mixedDisk.Lists (.ofText ".") mixedNames :=
  ⟨1, _, by cbv, rfl, rfl, rfl, rfl⟩

theorem mixedDisk_loops : mixedDisk.Loops (.ofText "./loop") := by
  have hsteps : steps (.ofText "./loop") = [.here, .name (.ofText "loop")] := by decide
  have htarget : steps (.ofText "loop") ++ [] = [.name (.ofText "loop")] := by decide
  have hstart : mixedDisk.Follows 0 (.ofText "./loop") 1 [.name (.ofText "loop")] := by
    refine ⟨by decide, ?_⟩
    rw [hsteps]
    exact .move (.here ⟨rfl, rfl⟩) (.done _ _)
  have hlap : mixedDisk.Trail (0 + 1) 1 [.name (.ofText "loop")] 1
      ([.name (.ofText "loop")] ++ []) := by
    have hbody : (mixedDisk.node 4).body = .link ⟨.ofText "loop", by decide⟩ := rfl
    refine .link ⟨⟨rfl, rfl⟩, rfl, by decide⟩ (by decide) hbody ?_
    rw [htarget]
    exact .done _ _
  exact Disk.loops_of_lap hstart hlap

theorem mixedDisk_dangles : mixedDisk.Dangles (.ofText "./gone") := by
  have hsteps : steps (.ofText "./gone") = [.here, .name (.ofText "gone")] := by decide
  have htarget : steps (.ofText "/w/nowhere") ++ [] =
      [.name .w, .name (.ofText "nowhere")] := by decide
  refine ⟨1, 1, _, .ofText "nowhere", [], by decide, ⟨by decide, ?_⟩,
    ⟨⟨rfl, rfl⟩, rfl, by decide⟩, by decide⟩
  have hbody : (mixedDisk.node 5).body = .link ⟨.ofText "/w/nowhere", by decide⟩ := rfl
  have hdirectory : ∀ target, (mixedDisk.node 1).body ≠ .link target := fun _ h => nomatch h
  rw [hsteps]
  refine .move (.here ⟨rfl, rfl⟩) (.link ⟨⟨rfl, rfl⟩, rfl, by decide⟩ (by decide) hbody ?_)
  rw [htarget]
  exact .move (.down ⟨⟨rfl, rfl⟩, rfl, by decide⟩ (by decide) hdirectory) (.done _ _)

/-- The entries of the directory are delivered in the order in which they were made, or the other
    way round. Three of them lead to the file, one from the root and one by a name that is no
    text. -/
theorem listFiles_canonical_mixed :
    mixedDisk.Lists (.ofText ".") mixedNames ∧
      mixedDisk.Loops (.ofText "./loop") ∧ mixedDisk.Dangles (.ofText "./gone") ∧
      listFiles World.host (.ofText ".") { disk := mixedDisk } =
        (.ok [.ofText "./a.go", .ofText "./b.go", ⟨[0x2E, 0x2F, 0xFF]⟩], { disk := mixedDisk }) ∧
      listFiles { World.host with entries := fun _ w => (.ok (mixedNames.reverse.map .ok), w) }
          (.ofText ".") { disk := mixedDisk } =
        (.ok [.ofText "./a.go", .ofText "./b.go", ⟨[0x2E, 0x2F, 0xFF]⟩], { disk := mixedDisk }) := by
  obtain ⟨files, hlist, hhost, -⟩ :=
    listFiles_canonical (w := { disk := mixedDisk }) lists_mixedDisk
  have hfiles : files.map (Path.join (.ofText ".")) =
      [.ofText "./a.go", .ofText "./b.go", ⟨[0x2E, 0x2F, 0xFF]⟩] := by
    have hsorted : mixedDisk.sortedFiles (.ofText ".") mixedNames =
        [.ofText "./a.go", .ofText "./b.go", ⟨[0x2E, 0x2F, 0xFF]⟩] := by cbv
    rw [listFiles_host, lists_mixedDisk.files, hsorted] at hhost
    exact (Except.ok.inj (Prod.mk.inj hhost).1).symm
  refine ⟨lists_mixedDisk, mixedDisk_loops, mixedDisk_dangles, ?_, ?_⟩
  · rw [hhost, hfiles]
  · rw [hlist _ mixedNames.reverse (List.reverse_perm _) rfl fun _ => rfl, hfiles]

end StructTags
