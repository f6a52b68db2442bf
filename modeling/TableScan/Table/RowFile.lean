import TableScan.Files.Disk
import TableScan.Step
import TableScan.Table.Frame

/-!
# Row files

Reading a row file frame by frame. A file that ends between two frames ends the scan; one that
ends inside a frame, and a frame that does not check, are errors.

Bytes are fetched from the file in blocks and read from what was fetched, so a file that changes
while it is being read shows its new bytes from the next block on. The end of a file is no state:
where more bytes have come since, the next call reads them.

The offset moves only past frames that were read, but bytes that were taken from the file stay
taken: an error in a length costs the four bytes of it, an error in a frame the whole frame, and a
frame cut short by the end of the file all that is left. The next call goes on from there.
-/

namespace TableScan

/-- An open row file: its number, or nothing if a directory stands in its place; how many bytes
were fetched from it; and those of them that were not read yet. -/
structure RowFile where
  path : String
  number : Option Nat
  fetched : Nat
  ahead : List UInt8
  offset : Nat
  deriving DecidableEq, Repr

namespace RowFile

/-- The bytes that are fetched at once, unless more are wanted. -/
def blockSize : Nat := 8192

def openAt (disk : Disk) (path : String) : LoadResult RowFile :=
  match disk.root.find path with
  | .error cause => .error (.io (.rowsUnopened path cause))
  | .ok (.dir _) => .ok ⟨path, none, 0, [], 0⟩
  | .ok (.file number) => .ok ⟨path, some number, 0, [], 0⟩

/-- Reads some bytes, fewer only if the file, which holds `bytes` now, has no more. -/
def take (count : Nat) (bytes : List UInt8) (file : RowFile) : List UInt8 × RowFile :=
  let missing := count - file.ahead.length
  if missing = 0 then (file.ahead.take count, { file with ahead := file.ahead.drop count })
  else
    -- what is wanted beyond a block is read without reading further ahead
    let block := (bytes.drop file.fetched).take (max missing blockSize)
    (file.ahead ++ block.take missing,
      { file with fetched := file.fetched + block.length, ahead := block.drop missing })

/-- The number of bytes not read yet. -/
def pendingOf (bytes : List UInt8) (file : RowFile) : Nat :=
  file.ahead.length + (bytes.length - file.fetched)

/-- The number of bytes not read yet of the file as it is on a disk. -/
def pending (disk : Disk) (file : RowFile) : Nat :=
  file.pendingOf ((file.number.map disk.bytesOf).getD [])

def failed (fault : IoFault) (file : RowFile) : Outcome RowFile (Option Json) :=
  ⟨.error (.io fault), file, []⟩

/-- Reads the next frame from the bytes of the file. -/
def readFrame (bytes : List UInt8) (file : RowFile) : Outcome RowFile (Option Json) :=
  match file.take 4 bytes with
  | ([], file) => ⟨.ok none, file, []⟩
  | (header, file) =>
    -- a frame that fails is consumed all the same; only a good one moves the offset
    let declared := Table.Frame.declaredLength header
    if header.length < 4 then failed (.headerUnreadable file.path file.offset .endOfFile) file
    else if declared < Table.Frame.overhead then
      failed (.frameLength declared file.path file.offset) file
    else
      let (body, file) := file.take (declared - 4) bytes
      if body.length < declared - 4 then
        failed (.frameUnreadable file.path file.offset .endOfFile) file
      else match Table.Frame.read (header ++ body) with
        | .error fault => failed (.frame fault file.path file.offset) file
        | .ok (payload, used) =>
          ⟨.ok (some payload), { file with offset := file.offset + used }, []⟩

/-- Reads the payload of the next frame; nothing at the end of the file. -/
def next (disk : Disk) : Step RowFile (Option Json) := fun file =>
  match file.number with
  | none => failed (.headerUnreadable file.path file.offset .isDirectory) file
  | some number => file.readFrame (disk.bytesOf number)

/-- What is read is no longer pending. -/
theorem length_take_add_pendingOf (count : Nat) (bytes : List UInt8) (file : RowFile) :
    (file.take count bytes).1.length + (file.take count bytes).2.pendingOf bytes
      = file.pendingOf bytes := by
  unfold take
  simp only
  split
  · simp only [pendingOf, List.length_take, List.length_drop]
    omega
  · simp only [pendingOf, List.length_append, List.length_take, List.length_drop]
    omega

@[simp] theorem number_take (count : Nat) (bytes : List UInt8) (file : RowFile) :
    (file.take count bytes).2.number = file.number := by
  unfold take
  simp only
  split <;> rfl

/-- A frame that was read is no longer pending. -/
theorem pendingOf_readFrame_lt {bytes : List UInt8} {file file' : RowFile} {payload : Json}
    {log : List Log.Entry} (h : file.readFrame bytes = ⟨.ok (some payload), file', log⟩) :
    file'.pendingOf bytes < file.pendingOf bytes ∧ file'.number = file.number := by
  have hhead := length_take_add_pendingOf 4 bytes file
  have hnumber := number_take 4 bytes file
  unfold readFrame at h
  split at h
  · simp at h
  · next header file1 hne heq =>
    rw [heq] at hhead hnumber
    simp only at h hhead hnumber
    split at h
    · simp [failed] at h
    · split at h
      · simp [failed] at h
      · have hbody := length_take_add_pendingOf (Table.Frame.declaredLength header - 4) bytes file1
        have hnumber' := number_take (Table.Frame.declaredLength header - 4) bytes file1
        split at h
        · simp [failed] at h
        · split at h
          · simp [failed] at h
          · simp only [Outcome.mk.injEq] at h
            obtain ⟨_, rfl, _⟩ := h
            simp only [pendingOf] at hhead hbody ⊢
            constructor
            · omega
            · simp [hnumber]

/-- A frame that was read was taken from the file. -/
theorem pending_next_lt {disk : Disk} {file file' : RowFile} {payload : Json}
    {log : List Log.Entry} (h : next disk file = ⟨.ok (some payload), file', log⟩) :
    file'.pending disk < file.pending disk := by
  unfold next at h
  split at h
  · simp [failed] at h
  · next number hn =>
    obtain ⟨hlt, hnumber⟩ := pendingOf_readFrame_lt h
    simpa [pending, hnumber, hn] using hlt

end RowFile

end TableScan
