import Mathlib
import TableScan.Text.Bytes

/-!
# The order of strings is that of their bytes

Strings compare character by character, files and keys byte by byte. UTF-8 makes the two orders one:
of two characters the greater one is spelled by bytes that are greater where they first differ
(`utf8EncodeChar_append_lt`), whatever follows. So strings compare as their bytes do
(`utf8Bytes_lt_iff`).
-/

namespace TableScan.Text

/-- The bytes of a string are those of its characters, one after another. -/
theorem utf8Bytes_eq_flatMap (s : String) :
    utf8Bytes s = s.toList.flatMap String.utf8EncodeChar := by
  rw [utf8Bytes_eq, ← String.utf8Encode_toList, List.utf8Encode, List.toList_data_toByteArray]

/-- A digit with its mark is a byte, if both fit into one. -/
theorem toNat_ofNat_mod_add {width mark : Nat} (hwidth : 0 < width) (hfits : width + mark ≤ 256)
    (n : Nat) : (UInt8.ofNat (n % width + mark)).toNat = n % width + mark := by
  have hlt := Nat.mod_lt n hwidth
  exact UInt8.toNat_ofNat_of_lt' (by
    show n % width + mark < 256
    omega)

/-- The bytes of a lesser character are less, whatever stands behind both. -/
theorem utf8EncodeChar_append_lt {c d : Char} (h : c < d) (s t : List UInt8) :
    String.utf8EncodeChar c ++ s < String.utf8EncodeChar d ++ t := by
  have hlt : c.val.toNat < d.val.toNat := h
  have hbound : d.val.toNat < 0x110000 := by
    rcases d.valid with hlow | ⟨-, hhigh⟩
    · exact Nat.lt_trans hlow (by decide)
    · exact hhigh
  rw [String.utf8EncodeChar.eq_1, String.utf8EncodeChar.eq_1]
  generalize c.val.toNat = n at hlt ⊢
  generalize d.val.toNat = m at hlt hbound ⊢
  -- the marks in front of the digits fit beside them
  have hfour : ∀ k, (UInt8.ofNat (k % 8 + 240)).toNat = k % 8 + 240 :=
    toNat_ofNat_mod_add (by decide) (by decide)
  have hthree : ∀ k, (UInt8.ofNat (k % 16 + 224)).toNat = k % 16 + 224 :=
    toNat_ofNat_mod_add (by decide) (by decide)
  have htwo : ∀ k, (UInt8.ofNat (k % 32 + 192)).toNat = k % 32 + 192 :=
    toNat_ofNat_mod_add (by decide) (by decide)
  have htail : ∀ k, (UInt8.ofNat (k % 64 + 128)).toNat = k % 64 + 128 :=
    toNat_ofNat_mod_add (by decide) (by decide)
  -- and the digits are those to the base 64, one after another
  have hsecond : ∀ k, k / 4096 = k / 64 / 64 := fun k => (Nat.div_div_eq_div_mul k 64 64).symm
  have hthird : ∀ k, k / 262144 = k / 64 / 64 / 64 := by
    intro k
    rw [Nat.div_div_eq_div_mul, Nat.div_div_eq_div_mul]
  -- more bytes begin with a greater mark, and as many are compared digit by digit
  split_ifs <;>
    simp only [List.cons_append, List.nil_append, List.cons_lt_cons_iff, ← UInt8.toNat_inj,
      UInt8.lt_iff_toNat_lt, hfour, hthree, htwo, htail, hsecond, hthird, UInt8.toNat_ofNat'] <;>
    omega

/-- Of two lists of characters the lesser one has the lesser bytes: they differ first at a
character, or one of them has ended. -/
theorem flatMap_utf8EncodeChar_lt {cs ds : List Char} (h : cs < ds) :
    cs.flatMap String.utf8EncodeChar < ds.flatMap String.utf8EncodeChar := by
  induction cs generalizing ds with
  | nil =>
    cases ds with
    | nil => exact absurd h (List.lt_irrefl [])
    | cons d ds =>
      obtain ⟨b, bs, hbytes⟩ :=
        List.exists_cons_of_ne_nil (String.utf8EncodeChar_ne_nil : String.utf8EncodeChar d ≠ [])
      rw [List.flatMap_cons, hbytes]
      exact List.nil_lt_cons _ _
  | cons c cs ih =>
    cases ds with
    | nil => exact absurd h (List.not_lt_nil _)
    | cons d ds =>
      rw [List.flatMap_cons, List.flatMap_cons]
      rcases List.cons_lt_cons_iff.1 h with hlt | ⟨rfl, hrest⟩
      · exact utf8EncodeChar_append_lt hlt _ _
      · exact List.append_left_lt (ih hrest)

/-- A lesser string has lesser bytes. -/
theorem utf8Bytes_lt {s t : String} (h : s < t) : utf8Bytes s < utf8Bytes t := by
  rw [utf8Bytes_eq_flatMap, utf8Bytes_eq_flatMap]
  exact flatMap_utf8EncodeChar_lt (String.lt_iff_toList_lt.1 h)

/-- Strings compare as their bytes do. -/
theorem utf8Bytes_lt_iff {s t : String} : utf8Bytes s < utf8Bytes t ↔ s < t := by
  refine ⟨fun h => ?_, utf8Bytes_lt⟩
  -- strings are ordered totally, so the other direction follows
  rcases lt_trichotomy s t with hlt | rfl | hgt
  · exact hlt
  · exact absurd h (List.lt_irrefl _)
  · exact absurd h (List.lt_asymm (utf8Bytes_lt hgt))

end TableScan.Text
