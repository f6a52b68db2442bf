import TableScan.Files.Tree

/-!
# Files: disks

A disk is a tree of names with the bytes of its files. Files are numbered in the order in which they
were made, and no number is given twice: who has opened a file holds its number, and finds the
bytes that it has now, whatever became of its name.

* `readBytes`, `readText` look at the file at a path,
* `openFile` gives the number of the file to be written at a path, `revise` and `write` change it,
* `writeAt` changes a file that is open.

Main statements: changing the bytes of a file shows (`bytesOf_setBytes_self`) and leaves all other
files alone (`bytesOf_setBytes_of_ne`).
-/

namespace TableScan

/-- The names of files and their bytes, by number. -/
structure Disk where
  root : FileTree
  contents : List (List UInt8)
  deriving Repr

namespace Disk

def empty : Disk := ⟨.empty, []⟩

def bytesOf (disk : Disk) (number : Nat) : List UInt8 := disk.contents[number]?.getD []

/-- The disk with other bytes in a file. -/
def setBytes (disk : Disk) (number : Nat) (bytes : List UInt8) : Disk :=
  { disk with contents := disk.contents.set number bytes }

theorem bytesOf_setBytes_self {disk : Disk} {number : Nat} (h : number < disk.contents.length)
    (bytes : List UInt8) : (disk.setBytes number bytes).bytesOf number = bytes := by
  simp [bytesOf, setBytes, h]

theorem bytesOf_setBytes_of_ne {disk : Disk} {number other : Nat} (h : number ≠ other)
    (bytes : List UInt8) : (disk.setBytes number bytes).bytesOf other = disk.bytesOf other := by
  simp [bytesOf, setBytes, h]

/-! ## Reading -/

def readBytes (disk : Disk) (path : String) : Except FileFault (List UInt8) :=
  match disk.root.find path with
  | .error e => .error e
  | .ok (.dir _) => .error .isDirectory
  | .ok (.file number) => .ok (disk.bytesOf number)

def readText (disk : Disk) (path : String) : Except FileFault String :=
  match disk.readBytes path with
  | .error e => .error e
  | .ok bytes => match Text.ofUtf8Bytes? bytes with
    | some text => .ok text
    | none => .error .notText

theorem readText_of_bytesOf {disk : Disk} {path text : String} {number : Nat}
    (hfile : disk.root.find path = .ok (.file number))
    (hbytes : disk.bytesOf number = Text.utf8Bytes text) : disk.readText path = .ok text := by
  unfold readText readBytes
  rw [hfile]
  simp only [hbytes, Text.ofUtf8Bytes?_utf8Bytes]

/-! ## Writing -/

/-- Makes the directory at a path with all directories on the way; those that were made before a
refusal stay. -/
def makeDirs (disk : Disk) (path : String) : Except FileFault Unit × Disk :=
  let (result, root) := disk.root.makeDirs path
  (result, { disk with root := root })

/-- The number of the file at a path, for writing to it. A file that is not there is made. -/
def openFile (disk : Disk) (path : String) : Except FileFault (Nat × Disk) :=
  match disk.root.spot path with
  | .error e => .error e
  | .ok (entries, last) =>
    if Path.isStep last || Path.endsOpen path then .error .isDirectory
    else match Keyed.find? last entries with
      | some (.dir _) => .error .isDirectory
      | some (.file number) => .ok (number, disk)
      | none =>
        let number := disk.contents.length
        match disk.root.putAt path (some (.file number)) with
        | .error e => .error e
        | .ok root => .ok (number, ⟨root, disk.contents ++ [[]]⟩)

/-- Writes the file at a path, its new bytes computed from the old ones. -/
def revise (disk : Disk) (path : String) (change : List UInt8 → List UInt8) :
    Except FileFault Disk :=
  match disk.openFile path with
  | .error e => .error e
  | .ok (number, disk) => .ok (disk.setBytes number (change (disk.bytesOf number)))

def write (disk : Disk) (path : String) (bytes : List UInt8) : Except FileFault Disk :=
  disk.revise path fun _ => bytes

def writeText (disk : Disk) (path text : String) : Except FileFault Disk :=
  disk.write path (Text.utf8Bytes text)

/-- Some bytes with others written over them from a position on. A gap before them is filled with
zeros. -/
def overlay (old : List UInt8) (position : Nat) (new : List UInt8) : List UInt8 :=
  old.take position ++ List.replicate (position - old.length) 0 ++ new
    ++ old.drop (position + new.length)

/-- Writes bytes into an open file from a position on. -/
def writeAt (disk : Disk) (number position : Nat) (bytes : List UInt8) : Disk :=
  if bytes.isEmpty then disk
  else disk.setBytes number (overlay (disk.bytesOf number) position bytes)

theorem overlay_nil (old : List UInt8) {position : Nat} (h : position ≤ old.length) :
    overlay old position [] = old := by
  simp [overlay, Nat.sub_eq_zero_of_le h]

/-- Bytes written inside a file or at its end stand behind those before them. -/
theorem take_overlay {old : List UInt8} {position : Nat} (h : position ≤ old.length)
    (new : List UInt8) :
    (overlay old position new).take (position + new.length) = old.take position ++ new := by
  have hlen : (old.take position ++ new).length = position + new.length := by simp [h]
  simp only [overlay, Nat.sub_eq_zero_of_le h, List.replicate_zero, List.append_nil]
  rw [← hlen, List.take_left]

theorem bytesOf_writeAt_self {disk : Disk} {number position : Nat}
    (h : number < disk.contents.length) (hp : position ≤ (disk.bytesOf number).length)
    (bytes : List UInt8) :
    (disk.writeAt number position bytes).bytesOf number
      = overlay (disk.bytesOf number) position bytes := by
  unfold writeAt
  split
  · next hb => rw [List.isEmpty_iff.1 hb, overlay_nil _ hp]
  · exact bytesOf_setBytes_self h _

@[simp] theorem length_contents_writeAt (disk : Disk) (number position : Nat)
    (bytes : List UInt8) :
    (disk.writeAt number position bytes).contents.length = disk.contents.length := by
  unfold writeAt setBytes
  split <;> simp

/-- Takes away what is at a path, a directory with all below it. -/
def remove (disk : Disk) (path : String) : Except FileFault Disk :=
  match disk.root.spot path with
  | .error e => .error e
  | .ok (entries, last) =>
    if (Keyed.find? last entries).isSome then
      (disk.root.putAt path none).map fun root => { disk with root := root }
    else .error .notFound

end Disk

end TableScan
