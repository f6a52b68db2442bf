import TableScan.Proofs.Files.Disks

/-!
# What files hold

The bytes of the file at a place, whatever its number (`Disk.fileAt?`), and of the file at a path
(`Disk.fileOf?`). Making directories leaves all of them as they are (`Disk.fileAt?_makeDirs`), and
writing to a path changes the file there alone (`Disk.files_of_writeText`).

Where a path leads to a file the directories on its way are there. Making them again changes nothing
(`FileTree.makeDirs_of_find`), and the file is written where it is (`Disk.writeText_of_find`).
-/

namespace TableScan

namespace Path

theorem not_endsOpen_of_segments {path name : String} {above : List String} (hname : name ≠ "")
    (h : segments path = above ++ [name]) : ¬ endsOpen path = true := by
  intro hopen
  obtain ⟨before, hpath⟩ := List.getLast?_eq_some_iff.1 (beq_iff_eq.1 hopen)
  have hblank : segments path = segments (String.ofList before) ++ [""] :=
    segments_append_separator (by rw [hpath, String.toList_ofList]; rfl) (by decide)
  rw [hblank] at h
  exact hname (List.cons.inj (List.append_inj_right' h rfl)).1.symm

/-- A path below a directory is longer than the path of the directory. -/
theorem exists_join_eq_append (dir name : String) : ∃ more, join dir name = dir ++ more := by
  unfold join
  split
  · next hnone =>
    have hempty : dir = "" := String.toList_eq_nil_iff.1 (List.getLast?_eq_none_iff.1 hnone)
    exact ⟨name, by rw [hempty, String.empty_append]⟩
  · exact ⟨name, rfl⟩
  · exact ⟨"/" ++ name, String.append_assoc⟩

/-- What is wrong with the path of a directory is wrong with the paths below it. -/
theorem check_of_check_join {dir name : String} (hdir : dir ≠ "")
    (h : check (join dir name) = .ok ()) : check dir = .ok () := by
  obtain ⟨more, hjoin⟩ := exists_join_eq_append dir name
  obtain ⟨c, cs, hchars⟩ := List.exists_cons_of_ne_nil (mt String.toList_eq_nil_iff.1 hdir)
  rw [hjoin] at h
  unfold check at h ⊢
  rw [String.toList_append, String.utf8ByteSize_append, hchars] at h
  rw [hchars]
  split at h
  · cases h
  · next hzero =>
    rw [if_neg fun hmem => hzero (List.contains_iff_mem.2
      (List.mem_append_left _ (List.contains_iff_mem.1 hmem)))]
    split at h
    · cases h
    · next hlong =>
      rw [if_neg fun hle => hlong (Nat.le_trans hle (Nat.le_add_right _ _))]
      split at h
      · cases h
      · next hstart =>
        have hempty : dir.isEmpty = false := String.isEmpty_eq_false_iff.2 hdir
        rw [Bool.or_eq_true, not_or] at hstart
        have hfirst : ¬ ((c :: cs).head? == some '/') = true := hstart.2
        rw [hempty, Bool.false_or, if_neg hfirst]

/-- A path of a name goes on where the path of its directory ends, up to a blank segment. -/
theorem exists_segments_join_dir {dir name : String} (hdir : dir ≠ "") (hname : '/' ∉ name.toList) :
    ∃ above, segments (join dir name) = above ++ [name]
      ∧ (segments dir = above ∨ segments dir = above ++ [""]) := by
  unfold join
  split
  · next hnone => exact absurd (String.toList_eq_nil_iff.1 (List.getLast?_eq_none_iff.1 hnone)) hdir
  · next hslash =>
    obtain ⟨before, hchars⟩ := List.getLast?_eq_some_iff.1 hslash
    refine ⟨segments (String.ofList before), segments_append_separator ?_ hname, .inr ?_⟩
    · rw [String.toList_append, hchars, String.toList_ofList, List.append_assoc]
      rfl
    · exact segments_append_separator (by rw [hchars, String.toList_ofList]; rfl) (by decide)
  · refine ⟨segments dir, segments_append_separator ?_ hname, .inl rfl⟩
    rw [String.toList_append, String.toList_append, List.append_assoc]
    rfl

/-- A path is cut behind its last segment that is not blank, or has no such segment. -/
theorem segments_of_cut {path last : String} {above : List String} (h : cut path = (above, last)) :
    (∃ more, segments path = above ++ last :: more) ∨ above = [] ∧ last = "" := by
  by_cases hlast : last = ""
  · unfold cut at h
    split at h
    · obtain ⟨rfl, rfl⟩ := Prod.mk.inj h
      exact .inr ⟨rfl, rfl⟩
    · next own before hdrop =>
      obtain ⟨rfl, rfl⟩ := Prod.mk.inj h
      have hhead := List.head?_dropWhile_not String.isEmpty (segments path).reverse
      rw [hdrop, hlast] at hhead
      cases hhead
  · obtain ⟨blanks, hsegments, -⟩ := exists_segments_of_cut h hlast
    exact .inl ⟨blanks, hsegments⟩

end Path

namespace FileTree

variable {tree here t : FileTree} {above : List FileTree} {number : Nat}

/-- A path that leads somewhere leads through directories that are there. -/
theorem exists_of_follow_append {segments more : List String} {segment : String}
    (h : follow above here (segments ++ segment :: more) = .ok t) :
    ∃ entries, follow above here segments = .ok (.dir entries)
      ∧ (¬ Path.isStep segment = true → (Keyed.find? segment entries).isSome = true) := by
  rcases follow_append_cases above here segments with ⟨e, hfail⟩ | ⟨above', here', hmore⟩
  · cases (hfail _).symm.trans h
  · have hbefore := hmore []
    rw [List.append_nil] at hbefore
    rw [hmore] at h
    cases here' with
    | file n => cases h
    | dir entries =>
      refine ⟨entries, hbefore, fun hstep => ?_⟩
      rw [follow_dir_cons, if_neg (Path.not_parent_of_not_isStep hstep), if_neg hstep] at h
      split at h
      · cases h
      · split at h
        · next u hentry => exact Option.isSome_iff_exists.2 ⟨u, hentry⟩
        · cases h

/-- A blank segment behind a directory leads to the directory. -/
theorem follow_append_blank {segments : List String} {entries : List (String × FileTree)}
    (h : follow above here segments = .ok (.dir entries)) :
    follow above here (segments ++ [""]) = .ok (.dir entries) := by
  rcases follow_append_cases above here segments with ⟨e, hfail⟩ | ⟨above', here', hmore⟩
  · have hbefore := hfail []
    rw [List.append_nil] at hbefore
    cases hbefore.symm.trans h
  · have hbefore := hmore []
    rw [List.append_nil] at hbefore
    obtain rfl := Except.ok.inj (hbefore.symm.trans h)
    rw [hmore]
    rfl

/-! ## Directories that are there -/

/-- The directory in which a file is found, and what is found under the name there. -/
theorem follow_of_find_join {dir name : String} (hname : Path.IsName name)
    (h : tree.find (Path.join dir name) = .ok t) :
    Path.check (Path.join dir name) = .ok () ∧ Path.isLong name = false
      ∧ ∀ above, Path.segments (Path.join dir name) = above ++ [name] →
        ∃ entries, follow [] tree above = .ok (.dir entries)
          ∧ Keyed.find? name entries = some t := by
  unfold find at h
  split at h
  · cases h
  · next hcheck =>
    obtain ⟨above, hsegments⟩ := Path.exists_segments_join dir
    have hown := hsegments name hname.segment
    rw [hown, follow_append_name hname] at h
    split at h
    · cases h
    · cases h
    · next entries hfollow =>
      split at h
      · cases h
      · next hshort =>
        refine ⟨hcheck, Bool.eq_false_iff.2 hshort, fun above' habove' => ?_⟩
        -- the segments before the name are the same ones
        obtain rfl := List.append_inj_left' (hown.symm.trans habove') rfl
        split at h
        · next u hentry => exact ⟨entries, hfollow, hentry.trans (congrArg some (Except.ok.inj h))⟩
        · cases h

/-- The directory around something that is found is found. -/
theorem find_of_find_join {dir name : String} (hdir : dir ≠ "") (hname : Path.IsName name)
    (h : tree.find (Path.join dir name) = .ok t) :
    ∃ entries, tree.find dir = .ok (.dir entries) := by
  obtain ⟨hcheck, -, hfollow⟩ := follow_of_find_join hname h
  obtain ⟨above, hsegments, hdirs⟩ := Path.exists_segments_join_dir hdir hname.segment
  obtain ⟨entries, hentries, -⟩ := hfollow above hsegments
  refine ⟨entries, ?_⟩
  rw [find_eq_follow (Path.check_of_check_join hdir hcheck)]
  -- the path of the directory may end with a separator, which adds a blank segment
  rcases hdirs with hsame | hblank
  · rw [hsame]
    exact hentries
  · rw [hblank]
    exact follow_append_blank hentries

/-- A directory that is there is not made. -/
theorem makeDir_of_find {path : String} {entries : List (String × FileTree)}
    (h : tree.find path = .ok (.dir entries)) :
    ∃ e, tree.makeDir path = .error e ∧ e ≠ .notFound := by
  unfold find at h
  split at h
  · cases h
  · next hcheck =>
    rcases hcut : Path.cut path with ⟨above, last⟩
    -- the segments up to the last one lead to a directory, which has the last one
    have hbefore : ∃ around, follow [] tree above = .ok (.dir around)
        ∧ (¬ Path.isStep last = true → (Keyed.find? last around).isSome = true) := by
      rcases Path.segments_of_cut hcut with ⟨more, hsegments⟩ | ⟨rfl, rfl⟩
      · rw [hsegments] at h
        exact exists_of_follow_append h
      · obtain ⟨segment, rest, hsegments⟩ := List.exists_cons_of_ne_nil
          (mt List.map_eq_nil_iff.1 (Text.splitChars_ne_nil '/' path.toList))
        have hpath : Path.segments path = [] ++ segment :: rest := hsegments
        rw [hpath] at h
        obtain ⟨around, haround, -⟩ := exists_of_follow_append h
        exact ⟨around, haround, fun hstep => absurd rfl hstep⟩
    obtain ⟨around, haround, hentry⟩ := hbefore
    unfold makeDir spot
    rw [hcheck]
    simp only [hcut, haround]
    by_cases hlong : Path.isLong last = true
    · rw [if_pos hlong]
      exact ⟨.nameTooLong, rfl, nofun⟩
    · rw [if_neg hlong]
      refine ⟨.exists, if_pos ?_, nofun⟩
      by_cases hstep : Path.isStep last = true
      · rw [hstep, Bool.true_or]
      · rw [hentry hstep, Bool.or_true]

/-- The directories around something that is found are there, so none is made. -/
theorem makeDirs_of_find_join {dir name : String} (hname : Path.IsName name)
    (h : tree.find (Path.join dir name) = .ok t) : tree.makeDirs dir = (.ok (), tree) := by
  unfold makeDirs
  split
  · rfl
  · next hdir =>
    obtain ⟨entries, hentries⟩ :=
      find_of_find_join (fun hempty => hdir (String.isEmpty_iff.2 hempty)) hname h
    obtain ⟨e, hmake, hfound⟩ := makeDir_of_find hentries
    -- making it fails, and it is there: that is enough
    have hthere : tree.isDirAt dir = true := by
      unfold isDirAt
      rw [hentries]
      rfl
    unfold Path.withParents makeAll
    rw [hmake]
    cases e with
    | notFound => exact absurd rfl hfound
    | _ => simp only [hthere, if_true]

end FileTree

/-- The number of a file. -/
def FileTree.number? : FileTree → Option Nat
  | .file number => some number
  | .dir _ => none

namespace Disk

variable {disk disk' : Disk} {path : String} {place : List String} {number : Nat}
  {bytes : List UInt8}

/-! ## The bytes at places -/

/-- What the file at a place holds; none where no file is. -/
def fileAt? (disk : Disk) (place : List String) : Option (List UInt8) :=
  (disk.root.at? place).bind fun t => t.number?.map disk.bytesOf

/-- What the file holds at the place that a path means. -/
def fileOf? (disk : Disk) (path : String) : Option (List UInt8) :=
  (Path.namesOf path).bind disk.fileAt?

/-- A file is there, and holds these bytes. -/
theorem fileAt?_eq_some_iff :
    disk.fileAt? place = some bytes
      ↔ ∃ number, disk.root.at? place = some (.file number) ∧ disk.bytesOf number = bytes := by
  unfold fileAt?
  rw [Option.bind_eq_some_iff]
  constructor
  · rintro ⟨t, ht, h⟩
    obtain ⟨number, hnumber, hbytes⟩ := Option.map_eq_some_iff.1 h
    cases t with
    | file n =>
      obtain rfl := Option.some.inj hnumber
      exact ⟨n, ht, hbytes⟩
    | dir entries => cases hnumber
  · rintro ⟨number, hat, rfl⟩
    exact ⟨.file number, hat, rfl⟩

/-- Files that stay in their places with their bytes hold what they held. -/
theorem fileAt?_congr
    (hroot : ∀ number, disk'.root.at? place = some (.file number)
      ↔ disk.root.at? place = some (.file number))
    (hbytes : ∀ number, disk.root.at? place = some (.file number) →
      disk'.bytesOf number = disk.bytesOf number) : disk'.fileAt? place = disk.fileAt? place := by
  refine Option.ext fun bytes => ?_
  rw [fileAt?_eq_some_iff, fileAt?_eq_some_iff]
  constructor
  · rintro ⟨number, hat, rfl⟩
    have hold := (hroot number).1 hat
    exact ⟨number, hold, (hbytes number hold).symm⟩
  · rintro ⟨number, hat, rfl⟩
    exact ⟨number, (hroot number).2 hat, hbytes number hat⟩

/-- Making directories changes no file. -/
theorem fileAt?_makeDirs (disk : Disk) (dir : String) (place : List String) :
    (disk.makeDirs dir).2.fileAt? place = disk.fileAt? place := by
  refine fileAt?_congr (fun number => ⟨?_, fun hat => ?_⟩) fun _ _ => rfl
  · exact FileTree.keepsFiles_makeDirs disk.root dir place number
  · obtain ⟨_, hat', hstays⟩ := FileTree.extends_makeDirs disk.root dir place _ hat
    exact hat'.trans (congrArg some hstays)

/-- Nor does it change what paths mean. -/
theorem fileOf?_makeDirs (disk : Disk) (dir path : String) :
    (disk.makeDirs dir).2.fileOf? path = disk.fileOf? path := by
  unfold fileOf?
  rw [funext (fileAt?_makeDirs disk dir)]

/-- Opening a file makes no other one. -/
theorem at?_of_openFile {other : Nat} (h : disk.openFile path = .ok (number, disk'))
    (hat : disk'.root.at? place = some (.file other)) :
    disk.root.at? place = some (.file other) ∨ Path.namesOf path = some place := by
  unfold openFile at h
  split at h
  · cases h
  · split at h
    · cases h
    · split at h
      · cases h
      · obtain ⟨-, rfl⟩ := Prod.mk.inj (Except.ok.inj h)
        exact .inl hat
      · unfold FileTree.putAt at h
        cases hnames : Path.namesOf path with
        | none =>
          rw [hnames] at h
          cases h
        | some names =>
          rw [hnames] at h
          obtain ⟨-, rfl⟩ := Prod.mk.inj (Except.ok.inj h)
          -- a new file is one from before, or the one that was put there
          rcases FileTree.at?_of_at?_put hat with hold | ⟨rest, rfl, hrest⟩
          · exact .inl hold
          · cases rest with
            | nil => exact .inr (by rw [List.append_nil])
            | cons name rest => cases hrest

theorem Writes.fileOf?_self (h : disk.Writes path number bytes disk') :
    disk'.fileOf? path = some bytes := by
  obtain ⟨place, hplace, hat⟩ := FileTree.at?_of_find h.found
  rw [fileOf?, hplace]
  exact fileAt?_eq_some_iff.2 ⟨number, hat, h.bytesOf_self⟩

/-- Writing text to the path of a name changes the file there, and no other one. -/
theorem files_of_writeText {dir name text : String} (hsound : disk.IsSound)
    (hname : Path.IsName name) (h : disk.writeText (Path.join dir name) text = .ok disk') :
    disk'.fileOf? (Path.join dir name) = some (Text.utf8Bytes text)
      ∧ ∀ place, Path.namesOf (Path.join dir name) ≠ some place →
        disk'.fileAt? place = disk.fileAt? place := by
  obtain ⟨above, hsegments⟩ := Path.exists_segments_join dir
  unfold writeText write revise at h
  split at h
  · cases h
  · next number opened hopen =>
    obtain rfl := Except.ok.inj h
    have hopens := openFile_spec hsound hname (hsegments name hname.segment) hopen
    have hwrites := hopens.setBytes (Text.utf8Bytes text)
    refine ⟨hwrites.fileOf?_self, fun place hne =>
      fileAt?_congr (fun other => ⟨fun hat => ?_, ?_⟩) ?_⟩
    · exact (at?_of_openFile hopen hat).resolve_right hne
    · intro hat
      obtain ⟨_, hat', hstays⟩ := hopens.extends_root place _ hat
      exact hat'.trans (congrArg some hstays)
    · intro other hat
      -- the file that was opened is at another place, so it is another one
      have hother : other ≠ number := by
        rintro rfl
        obtain ⟨own, hown, hatOwn⟩ := FileTree.at?_of_find hopens.found
        obtain ⟨_, hat', hstays⟩ := hopens.extends_root place _ hat
        obtain rfl := hopens.sound.separate own place other hatOwn
          (hat'.trans (congrArg some hstays))
        exact hne hown
      exact hwrites.bytesOf_of_ne other hother (hsound.bounded place other hat)

/-- The other files of a directory hold what they held. -/
theorem fileOf?_join_of_ne {dir name other : String} (hname : Path.IsName name)
    (hother : Path.IsName other) (hne : name ≠ other)
    (h : ∀ place, Path.namesOf (Path.join dir name) ≠ some place →
      disk'.fileAt? place = disk.fileAt? place) :
    disk'.fileOf? (Path.join dir other) = disk.fileOf? (Path.join dir other) := by
  unfold fileOf?
  cases hplace : Path.namesOf (Path.join dir other) with
  | none => rfl
  | some place => exact h place (Path.namesOf_join_ne hname hother hne hplace)

/-! ## Files that are there -/

theorem openFile_of_find_join {dir name : String} (hname : Path.IsName name)
    (h : disk.root.find (Path.join dir name) = .ok (.file number)) :
    disk.openFile (Path.join dir name) = .ok (number, disk) := by
  obtain ⟨above, hsegments⟩ := Path.exists_segments_join dir
  have hown := hsegments name hname.segment
  obtain ⟨hcheck, hshort, hfollow⟩ := FileTree.follow_of_find_join hname h
  obtain ⟨entries, hentries, hentry⟩ := hfollow above hown
  have hspot : disk.root.spot (Path.join dir name) = .ok (entries, name) := by
    unfold FileTree.spot
    rw [hcheck]
    simp only [Path.cut_of_segments hname.ne_empty hown, hentries]
    exact if_neg (Bool.eq_false_iff.1 hshort)
  have hclosed : ¬ (Path.isStep name || Path.endsOpen (Path.join dir name)) = true := by
    rw [Bool.or_eq_true, not_or]
    exact ⟨hname.not_isStep, Path.not_endsOpen_of_segments hname.ne_empty hown⟩
  unfold openFile
  rw [hspot]
  simp only [if_neg hclosed, hentry]

/-- A file that is there is written where it is. -/
theorem writeText_of_find_join {dir name text : String} (hname : Path.IsName name)
    (h : disk.root.find (Path.join dir name) = .ok (.file number)) :
    disk.writeText (Path.join dir name) text
      = .ok (disk.setBytes number (Text.utf8Bytes text)) := by
  unfold writeText write revise
  rw [openFile_of_find_join hname h]

theorem find_of_readText {text : String} (h : disk.readText path = .ok text) :
    ∃ number, disk.root.find path = .ok (.file number) := by
  unfold readText readBytes at h
  split at h
  · cases h
  · next hread =>
    split at hread
    · cases hread
    · cases hread
    · next number hfind => exact ⟨number, hfind⟩

/-- Other bytes in a file are not seen under the other names of its directory. -/
theorem readText_setBytes_of_ne {dir name other : String} (hsound : disk.IsSound)
    (hname : Path.IsName name) (hother : Path.IsName other) (hne : name ≠ other)
    (h : disk.root.find (Path.join dir name) = .ok (.file number)) (bytes : List UInt8) :
    (disk.setBytes number bytes).readText (Path.join dir other)
      = disk.readText (Path.join dir other) := by
  have hread : (disk.setBytes number bytes).readBytes (Path.join dir other)
      = disk.readBytes (Path.join dir other) := by
    have hroot : (disk.setBytes number bytes).root = disk.root := rfl
    unfold readBytes
    rw [hroot]
    cases hfind : disk.root.find (Path.join dir other) with
    | error cause => rfl
    | ok t =>
      cases t with
      | dir entries => rfl
      | file number' =>
        exact congrArg Except.ok
          (bytesOf_setBytes_of_ne (hsound.ne_of_find_join hname hother hne h hfind) bytes)
  unfold readText
  rw [hread]

end Disk

end TableScan
