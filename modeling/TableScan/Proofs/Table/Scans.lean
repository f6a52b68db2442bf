import Mathlib
import TableScan.Proofs.Table.Frames

/-!
# Scans of row files

A row file is read frame by frame up to the first call that gives no row. The bytes of the file may
be any: `Table.Frame.IsFrame` says of some bytes that they are a good frame, and
`Table.Frame.Splits` cuts all bytes of a file into good frames as far as there are any. Where that
ends is decided by the bytes, as a frame tells its own length (`IsFrame.of_append_eq`).

`RowFile.Taking` lists what can come of one call, and `RowFile.scan` puts the calls together.

Main statements: a call takes the frame in front, or the file has ended, or nothing good stands in
front and the call fails (`taking_readFrame`); so a scan gives the frames that a file can be cut
into, one after another (`scan_reads`), and of frames that are cut short those in front of the cut
(`scan_openAt`).
-/

namespace TableScan

namespace Table.Frame

/-- The bytes are one good frame: they declare their own length, the checksum of what is in front
of it stands at their end, and the text between the two numbers is that of the payload. -/
structure IsFrame (frame : List UInt8) (payload : Json) : Prop where
  covers : overhead ≤ frame.length
  declares : ofLittleEndian (frame.take 4) = frame.length
  checks : ofLittleEndian (frame.drop (frame.length - 4))
    = (checksum (frame.take (frame.length - 4))).toNat
  spells : Json.parseBytes? ((frame.take (frame.length - 4)).drop 4) = some payload

theorem ofLittleEndian_lt (bytes : List UInt8) : ofLittleEndian bytes < 256 ^ bytes.length := by
  induction bytes with
  | nil => exact Nat.one_pos
  | cons b rest ih =>
    have hb := b.toNat_lt
    show b.toNat + 256 * ofLittleEndian rest < 256 ^ (rest.length + 1)
    rw [Nat.pow_succ]
    omega

/-- The reader accepts the good frames and nothing else. -/
theorem read_eq_ok_iff {frame : List UInt8} {payload : Json} :
    read frame = .ok (payload, frame.length) ↔ IsFrame frame payload := by
  have hfour : overhead ≤ frame.length → (frame.drop (frame.length - 4)).length = 4 := by
    intro hcovers
    have hcovers : 8 ≤ frame.length := hcovers
    rw [List.length_drop]
    omega
  constructor
  · intro h
    obtain ⟨hdeclares, hcovers, -⟩ := length_of_read h
    -- the stored checksum is four bytes wide, so nothing is lost when it is read as a word
    have hstored := hfour hcovers
    have hlt := ofLittleEndian_lt (frame.drop (frame.length - 4))
    rw [hstored] at hlt
    unfold read at h
    simp only [← hdeclares, List.take_of_length_le (Nat.le_of_eq hstored)] at h
    rw [if_neg (Nat.not_lt.2 hcovers), if_neg (Nat.not_lt.2 hcovers), if_neg (Nat.lt_irrefl _)] at h
    split at h
    · next hchecks =>
      split at h
      · next hspells =>
        obtain ⟨rfl, -⟩ := Prod.mk.inj (Except.ok.inj h)
        refine ⟨hcovers, hdeclares.symm, ?_, hspells⟩
        rw [hchecks, UInt32.toNat_ofNat_of_lt' hlt]
      · cases h
    · cases h
  · intro h
    have hdeclares : declaredLength frame = frame.length := h.declares
    unfold read
    simp only [hdeclares, List.take_of_length_le (Nat.le_of_eq (hfour h.covers))]
    rw [if_neg (Nat.not_lt.2 h.covers), if_neg (Nat.not_lt.2 h.covers), if_neg (Nat.lt_irrefl _),
      h.checks, UInt32.ofNat_toNat, if_pos rfl, h.spells]

/-- How many bytes a call takes of those to come, if there are as many: where the length in front
cannot be right only its own four. -/
def span (bytes : List UInt8) : Nat :=
  if declaredLength bytes < overhead then 4 else declaredLength bytes

/-- What a call takes of the bytes to come. -/
def front (bytes : List UInt8) : List UInt8 := bytes.take (span bytes)

/-- What a call leaves of the bytes to come. -/
def behind (bytes : List UInt8) : List UInt8 := bytes.drop (span bytes)

theorem front_append_behind (bytes : List UInt8) : front bytes ++ behind bytes = bytes :=
  List.take_append_drop (span bytes) bytes

theorem four_le_span (bytes : List UInt8) : 4 ≤ span bytes := by
  unfold span
  split
  · exact Nat.le_refl 4
  · next h => exact Nat.le_trans (by decide) (Nat.not_lt.1 h)

theorem declaredLength_take {bytes : List UInt8} {count : Nat} (h : 4 ≤ count) :
    declaredLength (bytes.take count) = declaredLength bytes := by
  unfold declaredLength
  rw [List.take_take, Nat.min_eq_left h]

theorem declaredLength_front (bytes : List UInt8) :
    declaredLength (front bytes) = declaredLength bytes :=
  declaredLength_take (four_le_span bytes)

theorem IsFrame.span_eq {frame : List UInt8} {payload : Json} (h : IsFrame frame payload)
    (rest : List UInt8) : span (frame ++ rest) = frame.length := by
  have hcovers : 8 ≤ frame.length := h.covers
  have hdeclares : declaredLength (frame ++ rest) = frame.length := by
    rw [← h.declares, declaredLength, List.take_append_of_le_length (by omega)]
  unfold span
  rw [hdeclares, if_neg (Nat.not_lt.2 h.covers)]

theorem IsFrame.front_eq {frame : List UInt8} {payload : Json} (h : IsFrame frame payload)
    (rest : List UInt8) : front (frame ++ rest) = frame := by
  rw [front, h.span_eq, List.take_left]

theorem IsFrame.behind_eq {frame : List UInt8} {payload : Json} (h : IsFrame frame payload)
    (rest : List UInt8) : behind (frame ++ rest) = rest := by
  rw [behind, h.span_eq, List.drop_left]

/-- A frame tells its own length, so bytes start with one frame at most. -/
theorem IsFrame.of_append_eq {frame frame' rest rest' : List UInt8} {payload payload' : Json}
    (h : IsFrame frame payload) (h' : IsFrame frame' payload')
    (heq : frame ++ rest = frame' ++ rest') :
    frame = frame' ∧ payload = payload' ∧ rest = rest' := by
  have hfront := h.front_eq rest
  have hbehind := h.behind_eq rest
  rw [heq, h'.front_eq] at hfront
  rw [heq, h'.behind_eq] at hbehind
  subst hfront hbehind
  exact ⟨rfl, Option.some.inj (h.spells.symm.trans h'.spells), rfl⟩

/-- Some bytes start with a good frame. -/
def Leads (bytes : List UInt8) : Prop :=
  ∃ frame payload rest, IsFrame frame payload ∧ bytes = frame ++ rest

theorem isFrame_of_read_front {bytes : List UInt8} {payload : Json} {used : Nat}
    (h : read (front bytes) = .ok (payload, used)) :
    used = (front bytes).length ∧ IsFrame (front bytes) payload := by
  obtain ⟨hused, hcovers, hle⟩ := length_of_read h
  rw [declaredLength_front] at hused
  -- no more was declared than is in front, so all of it is read
  have hlength : (front bytes).length ≤ used := by
    rw [hused, front, span, if_neg (Nat.not_lt.2 (hused ▸ hcovers))]
    exact List.length_take_le _ _
  obtain rfl := Nat.le_antisymm hle hlength
  exact ⟨rfl, read_eq_ok_iff.1 h⟩

/-- What a call takes is the frame in front, if there is one. -/
theorem leads_iff {bytes : List UInt8} :
    Leads bytes ↔ ∃ payload, IsFrame (front bytes) payload := by
  constructor
  · rintro ⟨frame, payload, rest, hframe, rfl⟩
    rw [hframe.front_eq]
    exact ⟨payload, hframe⟩
  · rintro ⟨payload, hframe⟩
    exact ⟨_, payload, _, hframe, (front_append_behind bytes).symm⟩

theorem not_leads_nil : ¬ Leads [] := by
  rintro ⟨frame, payload, rest, hframe, heq⟩
  have hcovers : 8 ≤ frame.length := hframe.covers
  rw [(List.append_eq_nil_iff.1 heq.symm).1] at hcovers
  cases hcovers

/-- Where bytes end before the length that they declare, or declare too small a one, there is no
frame in front. -/
theorem not_leads_of_cut {bytes : List UInt8}
    (hcut : declaredLength bytes < overhead ∨ bytes.length < declaredLength bytes) :
    ¬ Leads bytes := by
  rw [leads_iff]
  rintro ⟨payload, hframe⟩
  have hdeclares : declaredLength (front bytes) = (front bytes).length := hframe.declares
  have hcovers := hframe.covers
  rw [← hdeclares, declaredLength_front] at hcovers
  rw [declaredLength_front] at hdeclares
  -- what a call takes is no more than there is
  have hle : (front bytes).length ≤ bytes.length := List.length_take_le' (span bytes) bytes
  rcases hcut with hsmall | hshort
  · exact absurd hcovers (Nat.not_le.2 hsmall)
  · rw [hdeclares] at hshort
    exact absurd hle (Nat.not_le.2 hshort)

/-- The bytes cut into good frames, as far as there are any. -/
structure Splits (bytes : List UInt8) (frames : List (List UInt8)) (payloads : List Json)
    (rest : List UInt8) : Prop where
  whole : bytes = frames.flatten ++ rest
  good : List.Forall₂ IsFrame frames payloads
  stops : ¬ Leads rest

namespace Splits

variable {bytes rest : List UInt8} {frames : List (List UInt8)} {payloads : List Json}

theorem nil (h : ¬ Leads rest) : Splits rest [] [] rest := ⟨rfl, .nil, h⟩

theorem cons {frame : List UInt8} {payload : Json} (h : IsFrame frame payload)
    (hrest : Splits bytes frames payloads rest) :
    Splits (frame ++ bytes) (frame :: frames) (payload :: payloads) rest where
  whole := by rw [List.flatten_cons, List.append_assoc, hrest.whole]
  good := .cons h hrest.good
  stops := hrest.stops

/-- There is one way to cut bytes into frames. -/
theorem unique {rest' : List UInt8} {frames' : List (List UInt8)} {payloads' : List Json}
    (h : Splits bytes frames payloads rest) (h' : Splits bytes frames' payloads' rest') :
    frames = frames' ∧ payloads = payloads' ∧ rest = rest' := by
  obtain ⟨rfl, hgood, hstops⟩ := h
  obtain ⟨hwhole, hgood', hstops'⟩ := h'
  induction hgood generalizing frames' payloads' with
  | nil =>
    -- either list can only end where the other one does: what stops it is no frame
    cases hgood' with
    | nil => exact ⟨rfl, rfl, hwhole⟩
    | cons hframe' _ => exact absurd ⟨_, _, _, hframe', by simpa using hwhole⟩ hstops
  | cons hframe _ ih =>
    cases hgood' with
    | nil => exact absurd ⟨_, _, _, hframe, by simpa using hwhole.symm⟩ hstops'
    | cons hframe' hgood' =>
      rw [List.flatten_cons, List.flatten_cons, List.append_assoc, List.append_assoc] at hwhole
      obtain ⟨rfl, rfl, hwhole⟩ := hframe.of_append_eq hframe' hwhole
      obtain ⟨rfl, rfl, rfl⟩ := ih hwhole hgood'
      exact ⟨rfl, rfl, rfl⟩

/-- A frame that is cut short is no frame, nor is there one in it. -/
theorem not_leads_take {frame : List UInt8} {payload : Json} {n : Nat} (h : IsFrame frame payload)
    (hn : n < frame.length) : ¬ Leads (frame.take n) := by
  rintro ⟨shorter, payload', rest', hshorter, heq⟩
  -- such a frame and the one that was cut begin the same bytes, so they are the same
  have hwhole : shorter ++ (rest' ++ frame.drop n) = frame ++ [] := by
    rw [← List.append_assoc, ← heq, List.take_append_drop, List.append_nil]
  obtain ⟨rfl, -, -⟩ := hshorter.of_append_eq h hwhole
  have hle := List.length_take_le n shorter
  rw [heq, List.length_append] at hle
  omega

/-- Frames in a row that are cut inside one of them. -/
theorem of_cut (hgood : List.Forall₂ IsFrame frames payloads) {j n : Nat}
    (hlow : (frames.take j).flatten.length < n)
    (hhigh : n < (frames.take (j + 1)).flatten.length) :
    ∃ rest, rest ≠ [] ∧ Splits (frames.flatten.take n) (frames.take j) (payloads.take j) rest := by
  induction hgood generalizing j n with
  | nil => exact absurd hhigh (Nat.not_lt_zero n)
  | @cons frame payload frames payloads hframe hgood ih =>
    -- the cut is in the first frame, or behind it and then in one of the others
    cases j with
    | zero =>
      have hshort : n < frame.length := by simpa using hhigh
      rw [List.flatten_cons, List.take_append_of_le_length (Nat.le_of_lt hshort)]
      refine ⟨frame.take n, ?_, .nil (not_leads_take hframe hshort)⟩
      rw [Ne, List.take_eq_nil_iff]
      rintro (rfl | rfl)
      · cases hlow
      · cases hshort
    | succ j =>
      rw [List.take_succ_cons, List.flatten_cons, List.length_append] at hlow hhigh
      obtain ⟨rest, hrest, hsplits⟩ :=
        ih (Nat.lt_sub_of_add_lt (Nat.add_comm .. ▸ hlow))
          (Nat.sub_lt_left_of_lt_add (by omega) hhigh)
      refine ⟨rest, hrest, ?_⟩
      rw [List.flatten_cons, List.take_append, List.take_of_length_le (by omega : frame.length ≤ n)]
      exact hsplits.cons hframe

end Splits

end Table.Frame

namespace RowFile

open Table.Frame (IsFrame Leads Splits declaredLength front behind overhead span)

/-! ## One call -/

/-- What can come of reading a frame from the bytes of a file: the end, the frame in front, or a
failure where none is in front. The bytes that were taken are taken in any case. -/
inductive Taking (bytes : List UInt8) (file : RowFile) :
    Outcome RowFile (Option Json) → Prop where
  | ended {file' : RowFile} (hrest : file.remaining bytes = [])
      (hleft : file'.remaining bytes = []) (hsame : SameFile file file') :
    Taking bytes file ⟨.ok none, file', []⟩
  | row {file' : RowFile} {frame rest : List UInt8} {payload : Json}
      (hframe : IsFrame frame payload) (hrest : file.remaining bytes = frame ++ rest)
      (hleft : file'.remaining bytes = rest) (hsame : SameFile file file')
      (hoffset : file'.offset = file.offset + frame.length) :
    Taking bytes file ⟨.ok (some payload), file', []⟩
  | failed {file' : RowFile} {fault : IoFault} (hrest : file.remaining bytes ≠ [])
      (hnone : ¬ Leads (file.remaining bytes))
      (hleft : file'.remaining bytes = behind (file.remaining bytes))
      (hsame : SameFile file file') :
    Taking bytes file ⟨.error (.io fault), file', []⟩

/-- Bytes that end too early, and bytes that declare too small a length, make the call fail. -/
theorem readFrame_of_cut {bytes : List UInt8} {file : RowFile}
    (hrest : file.remaining bytes ≠ [])
    (hcut : declaredLength (file.remaining bytes) < overhead
      ∨ (file.remaining bytes).length < declaredLength (file.remaining bytes)) :
    ∃ fault file', file.readFrame bytes = ⟨.error (.io fault), file', []⟩
      ∧ file'.remaining bytes = behind (file.remaining bytes)
      ∧ SameFile file file' := by
  have htake := take_eq 4 bytes file
  have hopened := remaining_take 4 bytes file
  have hsame := sameFile_take 4 bytes file
  generalize file.remaining bytes = rest at hrest hcut htake hopened ⊢
  unfold readFrame
  generalize file.take 4 bytes = r at htake hopened hsame
  obtain ⟨header, opened⟩ := r
  simp only at htake hopened hsame
  -- the length that is read is the one declared
  have hdecl : declaredLength header = declaredLength rest := by
    rw [htake, Table.Frame.declaredLength_take (Nat.le_refl 4)]
  obtain ⟨b, bs, hcons⟩ : ∃ b bs, header = b :: bs := by
    refine List.exists_cons_of_ne_nil fun hnil => hrest ?_
    rw [hnil, eq_comm, List.take_eq_nil_iff] at htake
    exact htake.resolve_left (by decide)
  rw [hcons] at htake hdecl ⊢
  simp only [hdecl]
  by_cases hheader : (b :: bs).length < 4
  -- the file ends inside the length
  · rw [if_pos hheader]
    refine ⟨_, opened, rfl, ?_, hsame⟩
    rw [htake, List.length_take] at hheader
    have hspan := Table.Frame.four_le_span rest
    rw [hopened, behind, List.drop_of_length_le (by omega), List.drop_of_length_le (by omega)]
  rw [if_neg hheader]
  by_cases hsmall : declaredLength rest < overhead
  · rw [if_pos hsmall]
    refine ⟨_, opened, rfl, ?_, hsame⟩
    rw [hopened, behind, span, if_pos hsmall]
  · rw [if_neg hsmall]
    have hbody := take_eq (declaredLength rest - 4) bytes opened
    have hleft := remaining_take (declaredLength rest - 4) bytes opened
    have hsame' := sameFile_take (declaredLength rest - 4) bytes opened
    generalize opened.take (declaredLength rest - 4) bytes = r at hbody hleft hsame'
    obtain ⟨body, closed⟩ := r
    simp only at hbody hleft hsame' ⊢
    have hcovers : 8 ≤ declaredLength rest := Nat.not_lt.1 hsmall
    -- the bytes behind the length are too few
    have hshort : body.length < declaredLength rest - 4 := by
      rw [hbody, hopened, List.length_take, List.length_drop]
      omega
    rw [if_pos hshort]
    refine ⟨_, closed, rfl, ?_, hsame'.1.trans hsame.1, hsame'.2.trans hsame.2⟩
    rw [hleft, hopened, List.drop_drop, behind, span, if_neg hsmall, Nat.add_sub_cancel' (by omega)]

/-- One call, whatever the bytes are. -/
theorem taking_readFrame (bytes : List UInt8) (file : RowFile) :
    Taking bytes file (file.readFrame bytes) := by
  by_cases hnil : file.remaining bytes = []
  · obtain ⟨file', hread, hleft, hsame⟩ := readFrame_of_nil hnil
    rw [hread]
    exact .ended hnil hleft hsame
  by_cases hcut : declaredLength (file.remaining bytes) < overhead
      ∨ (file.remaining bytes).length < declaredLength (file.remaining bytes)
  · obtain ⟨fault, file', hread, hleft, hsame⟩ := readFrame_of_cut hnil hcut
    rw [hread]
    exact .failed hnil (Table.Frame.not_leads_of_cut hcut) hleft hsame
  -- the bytes are there, and their checksum and the text between decide
  obtain ⟨hcovers, hthere⟩ := not_or.1 hcut
  have hlength : (front (file.remaining bytes)).length = declaredLength (file.remaining bytes) := by
    rw [front, span, if_neg hcovers, List.length_take, Nat.min_eq_left (Nat.not_lt.1 hthere)]
  have hdeclares := Table.Frame.declaredLength_front (file.remaining bytes)
  have hwhole := (Table.Frame.front_append_behind (file.remaining bytes)).symm
  have hcovered : overhead ≤ (front (file.remaining bytes)).length := by
    rw [hlength]
    exact Nat.not_lt.1 hcovers
  obtain ⟨file', hleft, hsame, hoffset, hread⟩ :=
    readFrame_of_declared (hdeclares.trans hlength.symm) hcovered hwhole
  rw [hread]
  cases hframe : Table.Frame.read (front (file.remaining bytes)) with
  | error fault =>
    refine .failed hnil (fun hleads => ?_) hleft hsame
    obtain ⟨payload, hgood⟩ := Table.Frame.leads_iff.1 hleads
    cases hframe.symm.trans (Table.Frame.read_eq_ok_iff.2 hgood)
  | ok r =>
    obtain ⟨payload, used⟩ := r
    obtain ⟨rfl, hgood⟩ := Table.Frame.isFrame_of_read_front hframe
    exact .row hgood hwhole hleft hsame (congrArg (· + _) hoffset)

/-! ## Whole scans -/

/-- What calls gave up to the first one that gave no row: the payloads, each with the offset behind
it, and the answer of that last call. -/
structure Scan where
  rows : List (Json × Nat)
  last : LoadResult (Option Json)

def Scan.payloads (s : Scan) : List Json := s.rows.map Prod.fst

/-- The calls on an open file up to the first one that gives no row. -/
def scan (disk : Disk) (file : RowFile) : Scan :=
  match _h : next disk file with
  | ⟨.error e, _, _⟩ => ⟨[], .error e⟩
  | ⟨.ok none, _, _⟩ => ⟨[], .ok none⟩
  | ⟨.ok (some payload), file', _⟩ =>
    let s := scan disk file'
    ⟨(payload, file'.offset) :: s.rows, s.last⟩
termination_by file.pending disk
decreasing_by exact pending_next_lt _h

/-- A scan that starts at an offset reads some bytes as exactly their frames: it gives the payload
of each and the offset behind it, and ends well just where nothing is left behind the frames. -/
structure Scan.Reads (bytes : List UInt8) (start : Nat) (frames : List (List UInt8))
    (rest : List UInt8) (s : Scan) : Prop where
  splits : Splits bytes frames s.payloads rest
  offsets : ∀ i row, s.rows[i]? = some row → row.2 = start + (frames.take (i + 1)).flatten.length
  ends : rest = [] → s.last = .ok none
  fails : rest ≠ [] → ∃ fault, s.last = .error (.io fault)

namespace Scan.Reads

variable {bytes rest : List UInt8} {start : Nat} {frames : List (List UInt8)} {s : Scan}

theorem of_ended (start : Nat) : Reads [] start [] [] ⟨[], .ok none⟩ where
  splits := .nil Table.Frame.not_leads_nil
  offsets := by
    intro i row hrow
    cases hrow
  ends := fun _ => rfl
  fails := fun hne => absurd rfl hne

theorem of_failed {fault : IoFault} (hrest : rest ≠ []) (hnone : ¬ Leads rest) :
    Reads rest start [] rest ⟨[], .error (.io fault)⟩ where
  splits := .nil hnone
  offsets := by
    intro i row hrow
    cases hrow
  ends := fun hnil => absurd hnil hrest
  fails := fun _ => ⟨fault, rfl⟩

theorem cons {frame : List UInt8} {payload : Json} (hframe : IsFrame frame payload)
    (h : s.Reads bytes (start + frame.length) frames rest) :
    Reads (frame ++ bytes) start (frame :: frames) rest
      ⟨(payload, start + frame.length) :: s.rows, s.last⟩ where
  splits := h.splits.cons hframe
  offsets := by
    intro i row hrow
    cases i with
    | zero =>
      obtain rfl := Option.some.inj hrow
      rw [List.take_succ_cons, List.take_zero, List.flatten_singleton]
    | succ i =>
      rw [h.offsets i row hrow, List.take_succ_cons, List.flatten_cons, List.length_append,
        Nat.add_assoc]
  ends := h.ends
  fails := h.fails

end Scan.Reads

theorem next_eq_readFrame {disk : Disk} {file : RowFile} {number : Nat}
    (hnumber : file.number = some number) :
    next disk file = file.readFrame (disk.bytesOf number) := by
  unfold next
  rw [hnumber]

/-- A scan goes on from the offset of its file and reads the frames that the bytes to come can be
cut into. -/
theorem scan_reads {disk : Disk} {file : RowFile} {number : Nat}
    (hnumber : file.number = some number) :
    ∃ frames rest,
      (scan disk file).Reads (file.remaining (disk.bytesOf number)) file.offset frames rest := by
  have htaking := taking_readFrame (disk.bytesOf number) file
  rw [← next_eq_readFrame hnumber] at htaking
  fun_induction scan disk file with
  | case1 file e file' log h =>
    rw [h] at htaking
    cases htaking with
    | failed hrest hnone =>
      exact ⟨[], _, .of_failed hrest hnone⟩
  | case2 file file' log h =>
    rw [h] at htaking
    cases htaking with
    | ended hrest =>
      rw [hrest]
      exact ⟨[], [], .of_ended _⟩
  | case3 file payload file' log h s ih =>
    rw [h] at htaking
    cases htaking with
    | row hframe hrest hleft hsame hoffset =>
      -- the call stays with its file, and the next one starts where it ended
      have hnumber' := hsame.2.trans hnumber
      have htaking' := taking_readFrame (disk.bytesOf number) file'
      rw [← next_eq_readFrame hnumber'] at htaking'
      obtain ⟨frames, rest, hreads⟩ := ih hnumber' htaking'
      rw [hleft, hoffset] at hreads
      rw [hrest, hoffset]
      exact ⟨_, rest, hreads.cons hframe⟩

/-- A row file is read as exactly its frames, whatever its bytes are. So of frames that are cut
inside one of them those in front of that one are read, and then the scan fails. -/
theorem scan_openAt {disk : Disk} {path : String} {number : Nat}
    (hfile : disk.root.find path = .ok (.file number)) :
    ∃ file, openAt disk path = .ok file
      ∧ (∃ frames rest, (scan disk file).Reads (disk.bytesOf number) 0 frames rest)
      ∧ ∀ frames payloads j n, List.Forall₂ IsFrame frames payloads →
        disk.bytesOf number = frames.flatten.take n → (frames.take j).flatten.length < n →
        n < (frames.take (j + 1)).flatten.length →
          (scan disk file).payloads = payloads.take j
            ∧ ∃ fault, (scan disk file).last = .error (.io fault) := by
  let file : RowFile := ⟨path, some number, 0, [], 0⟩
  have hopen : openAt disk path = .ok file := by
    unfold openAt
    rw [hfile]
  have hscan : ∃ frames rest, (scan disk file).Reads (disk.bytesOf number) 0 frames rest :=
    scan_reads (show file.number = some number from rfl)
  refine ⟨file, hopen, hscan, fun frames payloads j n hgood hbytes hlow hhigh => ?_⟩
  obtain ⟨frames', rest', hreads⟩ := hscan
  obtain ⟨rest, hrest, hsplits⟩ := Splits.of_cut hgood hlow hhigh
  rw [← hbytes] at hsplits
  -- the frames in front of the cut are one way to split the bytes, and there is no other
  obtain ⟨-, hpayloads, rfl⟩ := hreads.splits.unique hsplits
  exact ⟨hpayloads, hreads.fails hrest⟩

/-- The frames of two rows, of the second one only the first bytes. -/
def cutRows : Disk where
  root := .dir [("records.dat", .file 0)]
  contents := [[Table.Frame.around (Text.utf8Bytes "[1]"),
    Table.Frame.around (Text.utf8Bytes "[2]")].flatten.take 17]

theorem scan_openAt_cutRows :
    cutRows.root.find "records.dat" = .ok (.file 0)
      ∧ ∃ file, openAt cutRows "records.dat" = .ok file
        ∧ (scan cutRows file).payloads = [.array [.number (.int 1)]]
        ∧ ∃ fault, (scan cutRows file).last = .error (.io fault) := by
  have hone : Json.parse? "[1]" = some (.array [.number (.int 1)]) := by cbv
  have htwo : Json.parse? "[2]" = some (.array [.number (.int 2)]) := by cbv
  have hgood : List.Forall₂ IsFrame
      [Table.Frame.around (Text.utf8Bytes "[1]"), Table.Frame.around (Text.utf8Bytes "[2]")]
      [.array [.number (.int 1)], .array [.number (.int 2)]] :=
    .cons (Table.Frame.read_eq_ok_iff.1 (Table.Frame.read_around_utf8Bytes (by decide) hone))
      (.cons (Table.Frame.read_eq_ok_iff.1 (Table.Frame.read_around_utf8Bytes (by decide) htwo))
        .nil)
  obtain ⟨file, hopen, -, hcut⟩ := scan_openAt (show cutRows.root.find "records.dat" = _ from rfl)
  exact ⟨rfl, file, hopen, hcut _ _ 1 17 hgood rfl (by decide +kernel) (by decide +kernel)⟩

end RowFile

end TableScan
