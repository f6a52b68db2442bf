import TableScan.Table.RowFile

/-!
# The frames of a row file

A row file is read in blocks, but what its reader hands out only depends on the bytes that were not
read yet (`RowFile.remaining`): reading takes them from the front (`take_eq`, `remaining_take`).

`Frames` says which payloads some bytes hold: the bytes are one good frame after another, with
nothing between them and nothing behind. Main statements: a frame reads back the payload that it was
made around (`read_around`), and where the bytes to come are good frames, the reader hands out their
payloads one by one (`readFrame_of_frame`) and then ends (`readFrame_of_nil`).
-/

namespace TableScan

namespace Table.Frame

/-- `Frames bytes payloads`: the bytes are one good frame for each payload, in order, and nothing
else. -/
inductive Frames : List UInt8 → List Json → Prop where
  | nil : Frames [] []
  | cons {frame rest : List UInt8} {payload : Json} {payloads : List Json}
      (head : read frame = .ok (payload, frame.length)) (tail : Frames rest payloads) :
      Frames (frame ++ rest) (payload :: payloads)

/-- A frame that reads well has the length that it declares, which covers at least the numbers
around the payload. -/
theorem length_of_read {frame : List UInt8} {payload : Json} {used : Nat}
    (h : read frame = .ok (payload, used)) :
    used = declaredLength frame ∧ overhead ≤ used ∧ used ≤ frame.length := by
  unfold read at h
  simp only at h
  split at h
  · cases h
  · split at h
    · cases h
    · split at h
      · cases h
      · split at h
        · split at h
          · cases h
            exact ⟨rfl, by omega, by omega⟩
          · cases h
        · cases h

/-! ## Frames around payloads -/

/-- A number is written in as many bytes as are asked for. -/
@[simp] theorem length_littleEndian (width n : Nat) : (littleEndian width n).length = width := by
  induction width generalizing n with
  | zero => rfl
  | succ width ih =>
    show (littleEndian width (n / 256)).length + 1 = width + 1
    rw [ih]

/-- A number that fits its bytes is read back from them. -/
theorem ofLittleEndian_littleEndian {width n : Nat} (h : n < 256 ^ width) :
    ofLittleEndian (littleEndian width n) = n := by
  induction width generalizing n with
  | zero =>
    have hn : n = 0 := by simpa using h
    rw [hn]
    rfl
  | succ width ih =>
    -- the bytes behind the first one spell the number without its low byte
    have hdiv : n / 256 < 256 ^ width := by
      rw [Nat.div_lt_iff_lt_mul (by decide), ← Nat.pow_succ]
      exact h
    show (UInt8.ofNat n).toNat + 256 * ofLittleEndian (littleEndian width (n / 256)) = n
    rw [ih hdiv, UInt8.toNat_ofNat']
    omega

/-- A frame is its payload with four bytes on each side. -/
theorem length_around (payload : List UInt8) :
    (around payload).length = overhead + payload.length := by
  unfold around
  simp only [List.length_append, length_littleEndian]
  show 4 + payload.length + 4 = 8 + payload.length
  omega

/-- A frame declares its own length, unless this is too great for four bytes. -/
theorem declaredLength_around {payload : List UInt8}
    (hlen : overhead + payload.length < 256 ^ 4) :
    declaredLength (around payload) = overhead + payload.length := by
  unfold declaredLength around
  simp only
  rw [List.append_assoc, List.take_left' (length_littleEndian 4 _),
    ofLittleEndian_littleEndian hlen]

/-- A frame passes all checks but that of its payload. -/
theorem read_around {payload : List UInt8} (hlen : overhead + payload.length < 256 ^ 4) :
    read (around payload) =
      match Json.parseBytes? payload with
      | some j => .ok (j, (around payload).length)
      | none => .error .invalidPayload := by
  have hlength := length_around payload
  have hdeclared := declaredLength_around hlen
  unfold around at hlength hdeclared ⊢
  simp only at hlength hdeclared ⊢
  generalize hbody : littleEndian 4 (overhead + payload.length) ++ payload = body
    at hlength hdeclared ⊢
  -- `body` is what the checksum is taken of: the length in front and the payload
  have hblen : body.length = overhead + payload.length - 4 := by
    rw [← hbody, List.length_append, length_littleEndian]
    show _ = 8 + payload.length - 4
    omega
  have hpayload : body.drop 4 = payload := by
    rw [← hbody]
    exact List.drop_left' (length_littleEndian 4 (overhead + payload.length))
  have hstored : ((body ++ littleEndian 4 (checksum body).toNat).drop body.length).take 4
      = littleEndian 4 (checksum body).toNat := by
    rw [List.drop_left]
    exact List.take_of_length_le (by simp)
  have hchecksum : UInt32.ofNat (ofLittleEndian (littleEndian 4 (checksum body).toNat))
      = checksum body := by
    rw [ofLittleEndian_littleEndian (checksum body).toNat_lt, UInt32.ofNat_toNat]
  -- the reader's checks pass one by one: long enough, the declared length, the checksum
  unfold read
  simp only [hdeclared, hlength, ← hblen]
  rw [if_neg (by omega), if_neg (by omega), if_neg (by omega), List.take_left, hstored, hchecksum,
    hpayload]
  exact if_pos rfl

/-- The frame around JSON text reads as the value of the text. -/
theorem read_around_utf8Bytes {text : String} {j : Json}
    (hlen : overhead + text.utf8ByteSize < 256 ^ 4) (h : Json.parse? text = some j) :
    read (around (Text.utf8Bytes text)) = .ok (j, (around (Text.utf8Bytes text)).length) := by
  rw [← Text.length_utf8Bytes] at hlen
  rw [read_around hlen, Json.parseBytes?, Text.ofUtf8Bytes?_utf8Bytes, Option.bind_some, h]

end Table.Frame

namespace RowFile

open Table.Frame (Frames length_of_read)

/-- The bytes of the file that were not read yet, fetched or not. -/
def remaining (bytes : List UInt8) (file : RowFile) : List UInt8 :=
  file.ahead ++ bytes.drop file.fetched

/-- Reading hands out the first of the bytes to come, whether they were fetched before or are
now. -/
theorem take_eq (count : Nat) (bytes : List UInt8) (file : RowFile) :
    (file.take count bytes).1 = (file.remaining bytes).take count := by
  unfold take remaining
  simp only
  split
  · next h =>
    rw [List.take_append_of_le_length (by omega)]
  · next h =>
    rw [List.take_append, List.take_take, Nat.min_eq_left (Nat.le_max_left _ _),
      List.take_of_length_le (show file.ahead.length ≤ count by omega)]

/-- What is handed out is gone from the bytes to come, and nothing else is. -/
theorem remaining_take (count : Nat) (bytes : List UInt8) (file : RowFile) :
    (file.take count bytes).2.remaining bytes = (file.remaining bytes).drop count := by
  unfold take remaining
  simp only
  split
  · next h =>
    rw [List.drop_append_of_le_length (by omega)]
  -- a block is fetched, and of it only what `count` asks for beyond `ahead` is handed out
  · next h =>
    have hle := Nat.le_max_left (count - file.ahead.length) blockSize
    generalize max (count - file.ahead.length) blockSize = width at hle ⊢
    rw [List.drop_append, List.drop_of_length_le (show file.ahead.length ≤ count by omega),
      List.nil_append, List.length_take, ← List.drop_drop]
    generalize bytes.drop file.fetched = unfetched
    have hfetched : unfetched.drop (min width unfetched.length) = unfetched.drop width := by
      rcases Nat.le_total width unfetched.length with h | h
      · rw [Nat.min_eq_left h]
      · rw [Nat.min_eq_right h, List.drop_length, List.drop_of_length_le h]
    -- what is kept of the block and what was left in the file stand next to each other
    have hjoin : unfetched.drop width
        = (unfetched.drop (count - file.ahead.length)).drop
          (width - (count - file.ahead.length)) := by
      rw [List.drop_drop, Nat.add_sub_cancel' hle]
    rw [hfetched, hjoin, List.drop_take, List.take_append_drop]

/-- Reading frames changes what was fetched and the offset alone. -/
def SameFile (file other : RowFile) : Prop :=
  other.path = file.path ∧ other.number = file.number

/-- Reading bytes stays in the same file. -/
theorem sameFile_take (count : Nat) (bytes : List UInt8) (file : RowFile) :
    SameFile file (file.take count bytes).2 := by
  refine ⟨?_, number_take count bytes file⟩
  unfold take
  simp only
  split <;> rfl

/-- The offset is not moved by bytes, only by whole frames. -/
@[simp] theorem offset_take (count : Nat) (bytes : List UInt8) (file : RowFile) :
    (file.take count bytes).2.offset = file.offset := by
  unfold take
  simp only
  split <;> rfl

/-- At the end of the bytes there is no further frame. -/
theorem readFrame_of_nil {bytes : List UInt8} {file : RowFile} (h : file.remaining bytes = []) :
    ∃ file', file.readFrame bytes = ⟨.ok none, file', []⟩ ∧ file'.remaining bytes = []
      ∧ SameFile file file' := by
  have htake := take_eq 4 bytes file
  have hrest := remaining_take 4 bytes file
  have hsame := sameFile_take 4 bytes file
  rw [h] at htake hrest
  unfold readFrame
  generalize file.take 4 bytes = r at htake hrest hsame
  obtain ⟨header, file'⟩ := r
  obtain rfl : header = [] := htake
  exact ⟨file', rfl, hrest, hsame⟩

/-- Where the bytes to come start with a frame of the length that it declares, this frame is read,
and what is behind it stays. -/
theorem readFrame_of_declared {bytes frame rest : List UInt8} {file : RowFile}
    (hdeclared : Table.Frame.declaredLength frame = frame.length)
    (hoverhead : Table.Frame.overhead ≤ frame.length) (h : file.remaining bytes = frame ++ rest) :
    ∃ file', file'.remaining bytes = rest ∧ SameFile file file' ∧ file'.offset = file.offset
      ∧ file.readFrame bytes =
        match Table.Frame.read frame with
        | .error fault => failed (.frame fault file'.path file'.offset) file'
        | .ok (payload, used) =>
          ⟨.ok (some payload), { file' with offset := file'.offset + used }, []⟩ := by
  have hlen : 8 ≤ frame.length := hoverhead
  have htake := take_eq 4 bytes file
  have hrest := remaining_take 4 bytes file
  have hsame := sameFile_take 4 bytes file
  have hoffset := offset_take 4 bytes file
  rw [h, List.take_append_of_le_length (by omega)] at htake
  rw [h, List.drop_append_of_le_length (by omega)] at hrest
  unfold readFrame
  generalize file.take 4 bytes = r at htake hrest hsame hoffset
  obtain ⟨header, opened⟩ := r
  simp only at htake hrest hsame hoffset
  have hheader : header.length = 4 := by
    rw [htake, List.length_take]
    omega
  -- the header alone declares what the frame declares
  have hdecl : Table.Frame.declaredLength header = frame.length := by
    rw [← hdeclared, Table.Frame.declaredLength, Table.Frame.declaredLength, htake, List.take_take]
    rfl
  -- so the second read takes the rest of the frame, and leaves what stands behind it
  have hbody := take_eq (frame.length - 4) bytes opened
  have hleft := remaining_take (frame.length - 4) bytes opened
  have hsame' := sameFile_take (frame.length - 4) bytes opened
  have hoffset' := offset_take (frame.length - 4) bytes opened
  have hdrop : (frame.drop 4).length = frame.length - 4 := List.length_drop
  rw [hrest, ← hdrop, List.take_left] at hbody
  rw [hrest, ← hdrop, List.drop_left] at hleft
  rw [hdrop] at hbody hleft
  have hwhole : header ++ frame.drop 4 = frame := by
    rw [htake, List.take_append_drop]
  obtain ⟨b, bs, rfl⟩ := List.exists_cons_of_length_eq_add_one hheader
  simp only [hdecl, hheader, show ¬ (4 : Nat) < 4 by omega, if_false,
    show ¬ frame.length < Table.Frame.overhead by omega]
  generalize opened.take (frame.length - 4) bytes = r at hbody hleft hsame' hoffset'
  obtain ⟨body, closed⟩ := r
  simp only at hbody hleft hsame' hoffset'
  refine ⟨closed, hleft, ⟨hsame'.1.trans hsame.1, hsame'.2.trans hsame.2⟩,
    hoffset'.trans hoffset, ?_⟩
  simp only [hbody, hdrop, Nat.lt_irrefl, if_false]
  generalize b :: bs ++ frame.drop 4 = whole at hwhole ⊢
  subst hwhole
  rfl

/-- A good frame in front is read, and what stands behind it is still to come. -/
theorem readFrame_of_frame {bytes frame rest : List UInt8} {payload : Json} {file : RowFile}
    (hread : Table.Frame.read frame = .ok (payload, frame.length))
    (h : file.remaining bytes = frame ++ rest) :
    ∃ file', file.readFrame bytes = ⟨.ok (some payload), file', []⟩
      ∧ file'.remaining bytes = rest ∧ SameFile file file' := by
  obtain ⟨hdeclared, hoverhead, -⟩ := length_of_read hread
  obtain ⟨file', hrest, hsame, -, hframe⟩ := readFrame_of_declared hdeclared.symm hoverhead h
  rw [hread] at hframe
  exact ⟨_, hframe, hrest, hsame⟩

end RowFile

end TableScan
