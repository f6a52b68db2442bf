import Mathlib
import TableScan.Proofs.Table.Checksums
import TableScan.Proofs.Table.Scans

/-!
# Damaged frames

The stored checksum of a good frame cancels the register out: behind all bytes of the frame the
register holds `residue`, whatever the frame is (`checksum_eq_iff`). So a good frame and a damaged
one are told apart by their registers alone, and the checksum is damaged like any other bytes.

Four bytes are a word, which the register takes in without loss (`eq_of_crcRegister_eq`), and bytes
that are not damaged keep registers apart. Main statement: damage of four bytes at most, one after
another, anywhere behind the length of a frame, is found by the checksum (`read_of_burst`).
-/

namespace TableScan.Table.Frame

/-! ## Words in the register -/

theorem littleEndian_ofLittleEndian (bytes : List UInt8) :
    littleEndian bytes.length (ofLittleEndian bytes) = bytes := by
  induction bytes with
  | nil => rfl
  | cons b rest ih =>
    have hb := b.toNat_lt
    have hrest : (b.toNat + 256 * ofLittleEndian rest) / 256 = ofLittleEndian rest := by omega
    show UInt8.ofNat (b.toNat + 256 * ofLittleEndian rest)
      :: littleEndian rest.length ((b.toNat + 256 * ofLittleEndian rest) / 256) = b :: rest
    rw [hrest, ih]
    congr 1
    rw [← UInt8.toNat_inj, UInt8.toNat_ofNat']
    omega

theorem crcRegister_of_length_le {bytes : List UInt8} (h : bytes.length ≤ 4) (register : UInt32) :
    crcRegister register bytes
      = crcShift^[8 * bytes.length] (register ^^^ UInt32.ofNat (ofLittleEndian bytes)) := by
  rw [← crcRegister_littleEndian h (ofLittleEndian_lt bytes), littleEndian_ofLittleEndian]

/-- Up to four bytes are taken in without loss. -/
theorem eq_of_crcRegister_eq {bytes bytes' : List UInt8} {register : UInt32}
    (hlength : bytes.length = bytes'.length) (hfour : bytes'.length ≤ 4)
    (h : crcRegister register bytes = crcRegister register bytes') : bytes = bytes' := by
  -- four bytes fit a word
  have hword : ∀ {l : List UInt8}, l.length ≤ 4 → ofLittleEndian l < UInt32.size := fun hl =>
    Nat.lt_of_lt_of_le (ofLittleEndian_lt _) (Nat.pow_le_pow_right (by decide) hl)
  rw [crcRegister_of_length_le (hlength ▸ hfour), crcRegister_of_length_le hfour, hlength] at h
  have hwords := (UInt32.xor_right_inj _).1 (crcShift_injective.iterate _ h)
  have hnumbers := congrArg UInt32.toNat hwords
  rw [UInt32.toNat_ofNat_of_lt' (hword (hlength ▸ hfour)), UInt32.toNat_ofNat_of_lt' (hword hfour)]
    at hnumbers
  rw [← littleEndian_ofLittleEndian bytes, hlength, hnumbers, littleEndian_ofLittleEndian]

/-! ## The register behind a frame -/

/-- What the register holds behind bytes and their checksum. -/
def residue : UInt32 := crcShift^[32] 0xFFFFFFFF

theorem checksum_eq_iff {stored : List UInt8} (h : stored.length = 4) (body : List UInt8) :
    checksum body = UInt32.ofNat (ofLittleEndian stored)
      ↔ crcRegister 0xFFFFFFFF (body ++ stored) = residue := by
  have hstored := crcRegister_of_length_le (Nat.le_of_eq h) (crcRegister 0xFFFFFFFF body)
  rw [h] at hstored
  rw [crcRegister_append, hstored]
  show _ ↔ crcShift^[32] _ = crcShift^[32] 0xFFFFFFFF
  rw [(crcShift_injective.iterate 32).eq_iff]
  unfold checksum
  generalize crcRegister 0xFFFFFFFF body = register
  generalize UInt32.ofNat (ofLittleEndian stored) = word
  -- the stored word is the register with all bits turned
  rw [← UInt32.xor_right_inj register, ← UInt32.xor_assoc, UInt32.xor_self, UInt32.zero_xor]
  exact eq_comm

theorem crcRegister_around (payload : List UInt8) :
    crcRegister 0xFFFFFFFF (around payload) = residue := by
  refine (checksum_eq_iff (length_littleEndian 4 _) _).1 ?_
  rw [ofLittleEndian_littleEndian (UInt32.toNat_lt _), UInt32.ofNat_toNat]

/-- Of bytes of the declared length the register alone tells whether their checksum is right. -/
theorem read_of_not_residue {bytes : List UInt8} (hcovers : overhead ≤ bytes.length)
    (hdeclares : declaredLength bytes = bytes.length)
    (h : crcRegister 0xFFFFFFFF bytes ≠ residue) (rest : List UInt8) :
    ∃ computed stored, read (bytes ++ rest) = .error (.checksumMismatch computed stored)
      ∧ computed ≠ stored := by
  have hfour : 4 ≤ bytes.length := Nat.le_trans (by decide) hcovers
  have hdeclared : declaredLength (bytes ++ rest) = bytes.length := by
    rw [declaredLength, List.take_append_of_le_length hfour]
    exact hdeclares
  have hbody : (bytes ++ rest).take (bytes.length - 4) = bytes.take (bytes.length - 4) :=
    List.take_append_of_le_length (Nat.sub_le _ _)
  have hlength : (bytes.drop (bytes.length - 4)).length = 4 := by
    rw [List.length_drop]
    omega
  have hstored : ((bytes ++ rest).drop (bytes.length - 4)).take 4
      = bytes.drop (bytes.length - 4) := by
    rw [List.drop_append_of_le_length (Nat.sub_le _ _), List.take_left' hlength]
  -- the residue stands for the right checksum
  have hwrong : checksum (bytes.take (bytes.length - 4))
      ≠ UInt32.ofNat (ofLittleEndian (bytes.drop (bytes.length - 4))) := by
    rw [Ne, checksum_eq_iff hlength, List.take_append_drop]
    exact h
  refine ⟨_, _, ?_, hwrong⟩
  unfold read
  simp only [hdeclared, List.length_append]
  rw [if_neg (by omega), if_neg (Nat.not_lt.2 hcovers), if_neg (by omega), hbody, hstored,
    if_neg hwrong]

/-! ## Bursts -/

/-- Bytes are damaged in one place: some change, and all that change are among the four bytes from
the place on. -/
structure IsBurst (place : Nat) (bytes damaged : List UInt8) : Prop where
  length_eq : damaged.length = bytes.length
  differs : damaged ≠ bytes
  within : ∀ i, damaged[i]? ≠ bytes[i]? → place ≤ i ∧ i < place + 4

namespace IsBurst

variable {place : Nat} {bytes damaged : List UInt8}

theorem take_eq (h : IsBurst place bytes damaged) {count : Nat} (hcount : count ≤ place) :
    damaged.take count = bytes.take count := by
  apply List.ext_getElem?
  intro i
  rw [List.getElem?_take, List.getElem?_take]
  split
  · by_contra hne
    have hplace := (h.within i hne).1
    omega
  · rfl

theorem drop_eq (h : IsBurst place bytes damaged) :
    damaged.drop (place + 4) = bytes.drop (place + 4) := by
  apply List.ext_getElem?
  intro i
  rw [List.getElem?_drop, List.getElem?_drop]
  by_contra hne
  have hplace := (h.within _ hne).2
  omega

/-- Bytes that are replaced by as many others are damaged where they stand. -/
theorem of_window {before window window' behind : List UInt8}
    (hlength : window'.length = window.length) (hfour : window.length ≤ 4)
    (hne : window' ≠ window) :
    IsBurst before.length (before ++ window ++ behind) (before ++ window' ++ behind) where
  length_eq := by simp only [List.length_append, hlength]
  differs h := hne (List.append_cancel_left (List.append_cancel_right h))
  within i hi := by
    rw [List.append_assoc, List.append_assoc] at hi
    constructor
    · by_contra hlt
      rw [List.getElem?_append_left (Nat.lt_of_not_le hlt),
        List.getElem?_append_left (Nat.lt_of_not_le hlt)] at hi
      exact hi rfl
    · by_contra hge
      rw [List.getElem?_append_right (by omega), List.getElem?_append_right (by omega),
        List.getElem?_append_right (by omega), List.getElem?_append_right (by omega), hlength] at hi
      exact hi rfl

/-- A burst does not pass the register: the damaged bytes come to another word, and the bytes behind
them keep the registers apart. -/
theorem crcRegister_ne (h : IsBurst place bytes damaged) (register : UInt32) :
    crcRegister register damaged ≠ crcRegister register bytes := by
  -- in front of the burst, its four bytes, and behind it
  have hcut : ∀ l : List UInt8,
      l = l.take place ++ ((l.drop place).take 4 ++ l.drop (place + 4)) := by
    intro l
    rw [← List.drop_drop, List.take_append_drop, List.take_append_drop]
  have hlength : ((damaged.drop place).take 4).length = ((bytes.drop place).take 4).length := by
    rw [List.length_take, List.length_take, List.length_drop, List.length_drop, h.length_eq]
  intro heq
  rw [hcut damaged, hcut bytes, h.take_eq (Nat.le_refl _), h.drop_eq, crcRegister_append,
    crcRegister_append, crcRegister_append, crcRegister_append] at heq
  -- equal registers behind all bytes were equal behind the burst
  have hwindow := eq_of_crcRegister_eq hlength (List.length_take_le _ _)
    (crcRegister_injective _ heq)
  apply h.differs
  rw [hcut damaged, hcut bytes, h.take_eq (Nat.le_refl _), h.drop_eq, hwindow]

end IsBurst

/-- Where a burst damages the frame of a row behind its length, whatever bytes follow, the reader
finds that the checksum is not the stored one. -/
theorem read_of_burst {row : Record} {damaged : List UInt8} {place : Nat}
    (hlength : (ofRow row).length < 2 ^ 32) (hplace : 4 ≤ place)
    (h : IsBurst place (ofRow row) damaged) (rest : List UInt8) :
    ∃ computed stored, read (damaged ++ rest) = .error (.checksumMismatch computed stored)
      ∧ computed ≠ stored := by
  have hframe : (ofRow row).length = overhead + _ := length_around _
  refine read_of_not_residue ?_ ?_ ?_ rest
  · rw [h.length_eq, hframe]
    exact Nat.le_add_right _ _
  · -- the length in front is not damaged
    rw [hframe] at hlength
    rw [declaredLength, h.take_eq hplace, h.length_eq, hframe]
    exact declaredLength_around hlength
  · have hgood : crcRegister 0xFFFFFFFF (ofRow row) = residue := crcRegister_around _
    rw [← hgood]
    exact h.crcRegister_ne _

/-- The last byte of a payload and the three bytes of the checksum beside it are damaged. -/
theorem read_of_burst_across :
    (ofRow [.int 7]).length < 2 ^ 32
      ∧ ofRow [.int 7] = [11, 0, 0, 0, 91, 55, 93, 168, 199, 95, 122]
      ∧ IsBurst 6 (ofRow [.int 7]) [11, 0, 0, 0, 91, 55, 92, 1, 2, 3, 122]
      ∧ ∃ computed stored,
          read ([11, 0, 0, 0, 91, 55, 92, 1, 2, 3, 122] ++ ofRow [.null])
            = .error (.checksumMismatch computed stored) ∧ computed ≠ stored := by
  have hlength : (ofRow [.int 7]).length < 2 ^ 32 := by decide +kernel
  have hframe : ofRow [.int 7] = [11, 0, 0, 0, 91, 55] ++ [93, 168, 199, 95] ++ [122] := by
    decide +kernel
  have hburst : IsBurst 6 (ofRow [.int 7]) ([11, 0, 0, 0, 91, 55] ++ [92, 1, 2, 3] ++ [122]) := by
    rw [hframe]
    exact @IsBurst.of_window [11, 0, 0, 0, 91, 55] [93, 168, 199, 95] [92, 1, 2, 3] [122] rfl
      (by decide) (by decide)
  exact ⟨hlength, hframe, hburst, read_of_burst hlength (by decide) hburst _⟩

end TableScan.Table.Frame
