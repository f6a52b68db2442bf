import TableScan.Files.Disk
import TableScan.Proofs.Files.Trees

/-!
# Sound disks

On a sound disk every file has bytes of its own and one name (`Disk.IsSound`). The disk without
files is sound, and making directories, opening files and writing to them keep it so.

Main statements: a file that was opened under the path of a name is found there afterwards, and
nothing else has changed (`openFile_spec`); what is written to it leaves the other files of its
directory as they are (`Writes.keeps`). Making directories leaves all that was there in its place
(`FileTree.extends_makeDirs`).
-/

namespace TableScan

namespace FileTree

/-- All files of the second tree are in the first one, in their places. -/
def KeepsFiles (tree tree' : FileTree) : Prop :=
  ∀ place number, tree'.at? place = some (.file number) → tree.at? place = some (.file number)

theorem KeepsFiles.refl (tree : FileTree) : KeepsFiles tree tree := fun _ _ h => h

theorem KeepsFiles.trans {tree tree' tree'' : FileTree} (h : KeepsFiles tree tree')
    (h' : KeepsFiles tree' tree'') : KeepsFiles tree tree'' :=
  fun place number hat => h place number (h' place number hat)

/-- An empty directory brings no file. -/
theorem keepsFiles_put_empty (tree : FileTree) (names : List String) :
    KeepsFiles tree (tree.put (some empty) names) := by
  intro place number h
  rcases at?_of_at?_put h with hold | ⟨rest, -, hrest⟩
  · exact hold
  · cases rest with
    | nil => cases hrest
    | cons name rest => cases hrest

/-- Making a directory makes no file. -/
theorem keepsFiles_of_makeDir {tree made : FileTree} {path : String}
    (h : tree.makeDir path = .ok made) : KeepsFiles tree made := by
  unfold makeDir at h
  split at h
  · cases h
  · split at h
    · cases h
    · unfold putAt at h
      split at h
      · next names _ =>
        obtain rfl := Except.ok.inj h
        exact keepsFiles_put_empty tree names
      · cases h

/-- A directory is made where nothing was. -/
theorem extends_of_makeDir {tree made : FileTree} {path : String}
    (h : tree.makeDir path = .ok made) : Extends tree made := by
  unfold makeDir at h
  split at h
  · cases h
  · next entries last hspot =>
    obtain ⟨-, above, hcut, hfollow, -⟩ := spot_eq_ok hspot
    split at h
    · cases h
    · next hnew =>
      rw [Bool.or_eq_true, not_or] at hnew
      unfold putAt at h
      rw [Path.namesOf_of_cut hcut hnew.1] at h
      cases hnames : above.foldlM Path.stepInto [] with
      | none =>
        rw [hnames] at h
        cases h
      | some names =>
        rw [hnames] at h
        obtain rfl := Except.ok.inj h
        -- there is no entry of the name, so there is nothing at the place
        refine extends_put ?_
        rw [at?_append, at?_of_follow hfollow hnames, Option.bind_some, at?_singleton]
        exact Option.not_isSome_iff_eq_none.1 hnew.2

/-- What holds between a tree and the tree with one more directory holds between it and the tree
with all the directories of a path. -/
theorem makeDirs_of_makeDir {R : FileTree → FileTree → Prop} (hrefl : ∀ tree, R tree tree)
    (htrans : ∀ a b c, R a b → R b c → R a c)
    (hdir : ∀ tree made path, makeDir tree path = .ok made → R tree made)
    (tree : FileTree) (path : String) : R tree (tree.makeDirs path).2 := by
  have hall : ∀ paths tree, R tree (makeAll paths tree).2 := by
    intro paths
    induction paths with
    | nil => exact fun tree => hrefl tree
    | cons path parents ih =>
      intro tree
      unfold makeAll
      split
      · next made hmade => exact hdir _ _ _ hmade
      -- the parents first, and then the directory again
      · have hparents := ih tree
        split
        · next e made heq =>
          rw [heq] at hparents
          exact hparents
        · next made heq =>
          rw [heq] at hparents
          split
          · next last hlast => exact htrans _ _ _ hparents (hdir _ _ _ hlast)
          · exact hparents
      · exact hrefl tree
  unfold makeDirs
  split
  · exact hrefl tree
  · exact hall _ tree

/-- Making directories makes no file. -/
theorem keepsFiles_makeDirs (tree : FileTree) (path : String) :
    KeepsFiles tree (tree.makeDirs path).2 :=
  makeDirs_of_makeDir .refl (fun _ _ _ => .trans) (fun _ _ _ => keepsFiles_of_makeDir) tree path

/-- It leaves all that was there in its place. -/
theorem extends_makeDirs (tree : FileTree) (path : String) : Extends tree (tree.makeDirs path).2 :=
  makeDirs_of_makeDir .refl (fun _ _ _ => .trans) (fun _ _ _ => extends_of_makeDir) tree path

end FileTree

namespace Disk

open FileTree (Extends KeepsFiles)

/-- Holds of disks on which every file has bytes of its own, and one name. -/
structure IsSound (disk : Disk) : Prop where
  bounded : ∀ place number, disk.root.at? place = some (.file number) →
    number < disk.contents.length
  separate : ∀ place place' number, disk.root.at? place = some (.file number) →
    disk.root.at? place' = some (.file number) → place = place'

variable {disk disk' : Disk} {path : String} {number : Nat}

/-- A text is not found just when there is nothing at its path. -/
theorem readText_eq_notFound_iff :
    disk.readText path = .error .notFound ↔ disk.root.find path = .error .notFound := by
  unfold readText readBytes
  cases disk.root.find path with
  | error cause => simp
  | ok node =>
    cases node with
    | dir entries => simp
    | file number =>
      simp only
      split <;> simp

/-- The disk without files is sound. -/
theorem isSound_empty : empty.IsSound := by
  have hno : ∀ place number, ¬ empty.root.at? place = some (.file number) := by
    intro place number h
    cases place with
    | nil => cases h
    | cons name rest => cases h
  exact ⟨fun place number h => absurd h (hno place number),
    fun place _ number h _ => absurd h (hno place number)⟩

/-- Other bytes in a file are still its own. -/
theorem IsSound.setBytes (h : disk.IsSound) (number : Nat) (bytes : List UInt8) :
    (disk.setBytes number bytes).IsSound := by
  refine ⟨fun place other hat => ?_, h.separate⟩
  have hlt := h.bounded place other hat
  rwa [Disk.setBytes, List.length_set]

/-- New directories have no files. -/
theorem IsSound.makeDirs (h : disk.IsSound) (path : String) : (disk.makeDirs path).2.IsSound := by
  have hkeeps : KeepsFiles disk.root (disk.makeDirs path).2.root :=
    FileTree.keepsFiles_makeDirs disk.root path
  exact ⟨fun place number hat => h.bounded place number (hkeeps place number hat),
    fun place place' number hat hat' =>
      h.separate place place' number (hkeeps place number hat) (hkeeps place' number hat')⟩

/-- A file of which the number was never given before comes into a sound disk. -/
theorem IsSound.put_file (h : disk.IsSound) (names : List String) :
    IsSound ⟨disk.root.put (some (.file disk.contents.length)) names, disk.contents ++ [[]]⟩ := by
  -- the files are those from before, and the new one at its place
  have hplaces : ∀ place number,
      (disk.root.put (some (.file disk.contents.length)) names).at? place = some (.file number) →
        disk.root.at? place = some (.file number)
          ∨ place = names ∧ number = disk.contents.length := by
    intro place number hat
    rcases FileTree.at?_of_at?_put hat with hold | ⟨rest, rfl, hrest⟩
    · exact .inl hold
    · cases rest with
      | nil =>
        obtain rfl := FileTree.file.inj (Option.some.inj hrest)
        exact .inr ⟨List.append_nil names, rfl⟩
      | cons name rest => cases hrest
  constructor
  · intro place number hat
    rw [List.length_append]
    rcases hplaces place number hat with hold | ⟨-, rfl⟩
    · exact Nat.lt_add_right 1 (h.bounded place number hold)
    · exact Nat.lt_succ_self _
  -- the new number is none of those from before
  · intro place place' number hat hat'
    rcases hplaces place number hat with hold | ⟨rfl, rfl⟩
    · rcases hplaces place' number hat' with hold' | ⟨-, rfl⟩
      · exact h.separate place place' number hold hold'
      · exact absurd (h.bounded place _ hold) (Nat.lt_irrefl _)
    · rcases hplaces place' _ hat' with hold' | ⟨rfl, -⟩
      · exact absurd (h.bounded place' _ hold') (Nat.lt_irrefl _)
      · rfl

/-- What opening the file at a path makes of a disk. -/
structure Opens (disk : Disk) (path : String) (number : Nat) (disk' : Disk) : Prop where
  sound : disk'.IsSound
  found : disk'.root.find path = .ok (.file number)
  /-- All that was there stays in its place. -/
  extends_root : Extends disk.root disk'.root
  length_le : disk.contents.length ≤ disk'.contents.length
  bytesOf_eq : ∀ other, other < disk.contents.length → disk'.bytesOf other = disk.bytesOf other

theorem Opens.lt (h : disk.Opens path number disk') : number < disk'.contents.length := by
  obtain ⟨place, -, hplace⟩ := FileTree.at?_of_find h.found
  exact h.sound.bounded place number hplace

/-- The file at the path of a name is opened where it is, or made there. -/
theorem openFile_spec {above : List String} {name : String} (hsound : disk.IsSound)
    (hname : Path.IsName name) (hpath : Path.segments path = above ++ [name])
    (h : disk.openFile path = .ok (number, disk')) : disk.Opens path number disk' := by
  unfold openFile at h
  split at h
  · cases h
  · next entries last hspot =>
    obtain ⟨hcheck, hfollow, rfl, hshort⟩ := FileTree.follow_of_spot hname.ne_empty hpath hspot
    -- the path is followed to the last segment, in any tree
    have hfind : ∀ root : FileTree, root.find path = FileTree.follow [] root (above ++ [last]) := by
      intro root
      rw [FileTree.find_eq_follow hcheck, hpath]
    split at h
    · cases h
    · split at h
      · cases h
      -- the file is there
      · next old hentry =>
        obtain ⟨rfl, rfl⟩ := Prod.mk.inj (Except.ok.inj h)
        refine ⟨hsound, ?_, .refl _, Nat.le_refl _, fun _ _ => rfl⟩
        rw [hfind, FileTree.follow_append_name hname, hfollow]
        simp only [hentry, hshort]
        rfl
      -- it is made
      · next hentry =>
        unfold FileTree.putAt at h
        rw [Path.namesOf_of_segments hname hpath] at h
        cases hnames : above.foldlM Path.stepInto [] with
        | none =>
          rw [hnames] at h
          cases h
        | some names =>
          rw [hnames] at h
          obtain ⟨rfl, rfl⟩ := Prod.mk.inj (Except.ok.inj h)
          obtain ⟨hnone, hfound⟩ := FileTree.follow_put (t := .file disk.contents.length) hname
            hshort hfollow hnames hentry
          refine ⟨hsound.put_file _, (hfind _).trans hfound, FileTree.extends_put hnone, ?_, ?_⟩
          · rw [List.length_append]
            exact Nat.le_add_right _ _
          · intro other hother
            unfold bytesOf
            rw [List.getElem?_append_left hother]

/-! ## Writing -/

/-- What writing bytes to the file at a path makes of a disk. -/
structure Writes (disk : Disk) (path : String) (number : Nat) (bytes : List UInt8) (disk' : Disk) :
    Prop where
  sound : disk'.IsSound
  found : disk'.root.find path = .ok (.file number)
  extends_root : Extends disk.root disk'.root
  bytesOf_self : disk'.bytesOf number = bytes
  bytesOf_of_ne : ∀ other, other ≠ number → other < disk.contents.length →
    disk'.bytesOf other = disk.bytesOf other

theorem Opens.setBytes (h : disk.Opens path number disk') (bytes : List UInt8) :
    disk.Writes path number bytes (disk'.setBytes number bytes) where
  sound := h.sound.setBytes number bytes
  found := h.found
  extends_root := h.extends_root
  bytesOf_self := bytesOf_setBytes_self h.lt bytes
  bytesOf_of_ne other hne hlt := by
    rw [bytesOf_setBytes_of_ne (Ne.symm hne), h.bytesOf_eq other hlt]

/-- Writing text to the path of a name is a write to one file. -/
theorem writes_of_writeText {dir name text : String} (hsound : disk.IsSound)
    (hname : Path.IsName name) (h : disk.writeText (Path.join dir name) text = .ok disk') :
    ∃ number, disk.Writes (Path.join dir name) number (Text.utf8Bytes text) disk' := by
  obtain ⟨above, hsegments⟩ := Path.exists_segments_join dir
  unfold writeText write revise at h
  split at h
  · cases h
  · next number opened hopen =>
    obtain rfl := Except.ok.inj h
    have hopens := openFile_spec hsound hname (hsegments name hname.segment) hopen
    exact ⟨number, hopens.setBytes _⟩

/-- Two names of one directory are two files. -/
theorem IsSound.ne_of_find_join {dir name other : String} {number number' : Nat}
    (h : disk.IsSound) (hname : Path.IsName name) (hother : Path.IsName other) (hne : name ≠ other)
    (hfind : disk.root.find (Path.join dir name) = .ok (.file number))
    (hfind' : disk.root.find (Path.join dir other) = .ok (.file number')) : number ≠ number' := by
  rintro rfl
  obtain ⟨place, hplace, hat⟩ := FileTree.at?_of_find hfind
  obtain ⟨place', hplace', hat'⟩ := FileTree.at?_of_find hfind'
  -- one file has one place, and two names have two
  obtain rfl := h.separate _ _ _ hat hat'
  exact Path.namesOf_join_ne hname hother hne hplace' hplace

/-- Writing to a file leaves the other files of its directory as they are. -/
theorem Writes.keeps {dir name other : String} {number number' : Nat} {bytes : List UInt8}
    (h : disk.Writes (Path.join dir name) number bytes disk') (hsound : disk.IsSound)
    (hname : Path.IsName name) (hother : Path.IsName other) (hne : name ≠ other)
    (hfind : disk.root.find (Path.join dir other) = .ok (.file number')) :
    disk'.root.find (Path.join dir other) = .ok (.file number')
      ∧ disk'.bytesOf number' = disk.bytesOf number' ∧ number' ≠ number := by
  have hfind' := h.extends_root.find_eq hfind
  have hnumber : number' ≠ number :=
    Ne.symm (h.sound.ne_of_find_join hname hother hne h.found hfind')
  obtain ⟨place, -, hplace⟩ := FileTree.at?_of_find hfind
  exact ⟨hfind', h.bytesOf_of_ne number' hnumber (hsound.bounded place number' hplace), hnumber⟩

end Disk

end TableScan
