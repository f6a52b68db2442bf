import TableScan.Proofs.Json.Doubles
import TableScan.Proofs.Table.ReadableRows
import TableScan.Proofs.Table.SurvivingValues

/-!
# Stored doubles

The frame of a row is read as a row of the same form: all values are read as they were, at any
depth, but for the floating-point ones (`Value.RereadAs`). Null stands for those that are not
finite. A finite single value is still read as it was, but a double may be read as another one: its
text has the digits of no other double, but it is read in steps that each round
(`Json.IsReread`).

Main statement: what the frame of a row is read as (`Table.Frame.rereadAs_ofRow`).
-/

namespace TableScan

open Binary (single)
open Json.Syntax (toValue?)

/-- `RereadAs v w`: the value `v` that was written is read as `w`. -/
inductive Value.RereadAs : Value → Value → Prop where
  | null : RereadAs .null .null
  | unchanged {p : Primitive} {v : Value} (h : v.IsOf p) (hfree : p ≠ .float ∧ p ≠ .double) :
    RereadAs v v
  | float {bits : UInt32} (h : single.isFinite bits.toNat = true) :
    RereadAs (.float bits) (.float bits)
  | double {bits back : UInt64} (h : Binary.double.isFinite bits.toNat = true)
      (hback : Json.IsReread bits back) : RereadAs (.double bits) (.double back)
  | lostFloat {bits : UInt32} (h : single.isFinite bits.toNat = false) :
    RereadAs (.float bits) .null
  | lostDouble {bits : UInt64} (h : Binary.double.isFinite bits.toNat = false) :
    RereadAs (.double bits) .null
  | map {entries again : List (String × Value)} (hkeys : entries.map Prod.fst = again.map Prod.fst)
      (h : List.Forall₂ (fun e f => RereadAs e.2 f.2) entries again) :
    RereadAs (.map entries) (.map again)
  | record {fields again : List Value} (h : List.Forall₂ RereadAs fields again) :
    RereadAs (.record fields) (.record again)

namespace Value

/-! ## Values of primitive types -/

section Primitive

variable {room : Nat} {j : Json} {w : Value}

theorem rereadAs_of_null {type : ColumnType} {v : Value} (hv : v.RereadAs .null)
    (h : toValue? room Json.null.tree = some j) (hw : ofJson type j = .ok w) : v.RereadAs w := by
  obtain rfl := Option.some.inj h
  obtain rfl := Except.ok.inj ((ofJson_null type).symm.trans hw)
  exact hv

/-- A finite double comes back as one that is not far from it, and others as null. -/
theorem rereadAs_double {bits : UInt64} (h : toValue? room (double bits).toJson.tree = some j)
    (hw : ofJson (.primitive .double) j = .ok w) : (double bits).RereadAs w := by
  have h : toValue? room (Json.ofDouble bits).tree = some j := h
  by_cases hfinite : Binary.double.isFinite bits.toNat = true
  · obtain ⟨back, hback, hread⟩ := Json.exists_isReread hfinite
    obtain rfl := Option.some.inj ((hread room).symm.trans h)
    -- a double decodes as it is
    have hdecoded : ofJson (.primitive .double) (.number (.double back)) = .ok (double back) :=
      ofJson_primitive_eq_ok rfl
    obtain rfl := Except.ok.inj (hdecoded.symm.trans hw)
    exact .double hfinite hback
  · rw [Json.ofDouble, if_neg hfinite] at h
    exact rereadAs_of_null (.lostDouble (Bool.eq_false_of_not_eq_true hfinite)) h hw

/-- A finite single value comes back as it was, and others as null. -/
theorem rereadAs_float {bits : UInt32} (h : toValue? room (float bits).toJson.tree = some j)
    (hw : ofJson (.primitive .float) j = .ok w) : (float bits).RereadAs w := by
  have h : toValue? room (Json.ofDouble (Binary.widen bits)).tree = some j := h
  have hsame := Binary.isFinite_widen bits
  by_cases hfinite : single.isFinite bits.toNat = true
  · obtain ⟨back, hback, hread⟩ := Json.exists_isReread (hsame.trans hfinite)
    obtain rfl := Option.some.inj ((hread room).symm.trans h)
    have hdecoded : ofJson (.primitive .float) (.number (.double back))
        = .ok (float (Binary.narrow back)) := ofJson_primitive_eq_ok rfl
    -- seven units of the wide value are nothing to the narrow one
    rw [hback.narrow_eq hfinite] at hdecoded
    obtain rfl := Except.ok.inj (hdecoded.symm.trans hw)
    exact .float hfinite
  · rw [Json.ofDouble, hsame, if_neg hfinite] at h
    exact rereadAs_of_null (.lostFloat (Bool.eq_false_of_not_eq_true hfinite)) h hw

/-- Values of all other primitive types come back as they were. -/
theorem rereadAs_primitive {p : Primitive} {v : Value} (hv : v.IsOf p) (hroom : 0 < room)
    (h : toValue? room v.toJson.tree = some j) (hw : ofJson (.primitive p) j = .ok w) :
    v.RereadAs w := by
  by_cases hfree : p ≠ .float ∧ p ≠ .double
  · -- without fractions all is read as it was written
    obtain ⟨hread, hexact⟩ := ofJson_toJson_of_isOf hv hfree
    have hdepth := (Json.isSome_toValue?_tree_iff _ (integersFit_toJson v) hroom).1
      (Option.isSome_of_eq_some h)
    rw [Json.toValue?_tree _ hexact hdepth] at h
    obtain rfl := Option.some.inj h
    obtain rfl := Except.ok.inj (hread.symm.trans hw)
    exact .unchanged hv hfree
  · cases hv with
    | float bits => exact rereadAs_float h hw
    | double bits => exact rereadAs_double h hw
    | int n => exact absurd (by decide) hfree
    | long n => exact absurd (by decide) hfree
    | string s => exact absurd (by decide) hfree
    | bytes bs => exact absurd (by decide) hfree
    | bool b => exact absurd (by decide) hfree

end Primitive

/-! ## Maps and records -/

/-- The values of a map are read one by one. -/
theorem rereadAs_entries {type : ColumnType} {room : Nat}
    (hvalue : ∀ {v w : Value} {j : Json}, v.HasType type → v.KeysSorted →
      toValue? room v.toJson.tree = some j → ofJson type j = .ok w → v.RereadAs w)
    {entries again : List (String × Value)} {members : List (String × Json)}
    (htypes : ∀ e ∈ entries, e.2.HasType type) (hsorted : EntriesKeysSorted entries)
    (hread : List.Forall₂ (fun e m => e.1 = m.1 ∧ toValue? room e.2.toJson.tree = some m.2)
      entries members)
    (hagain : List.Forall₂ (fun m f => m.1 = f.1 ∧ ofJson type m.2 = .ok f.2) members again) :
    List.Forall₂ (fun e f => RereadAs e.2 f.2) entries again := by
  induction hread generalizing again with
  | nil =>
    cases hagain
    exact .nil
  | @cons e m entries members he _ ih =>
    obtain ⟨key, v⟩ := e
    obtain ⟨hv, htypes⟩ := List.forall_mem_cons.1 htypes
    cases hagain with
    | cons hf hagain =>
      exact .cons (hvalue hv hsorted.1 he.2 hf.2) (ih htypes hsorted.2 hagain)

mutual

/-- What is read of the text of a value of a type, and then decoded by the type. -/
theorem rereadAs_of_toValue? (type : ColumnType) {v : Value} (hv : v.HasType type)
    (hsorted : v.KeysSorted) {room : Nat} (hroom : 0 < room) {j : Json}
    (h : toValue? room v.toJson.tree = some j) {w : Value} (hw : ofJson type j = .ok w) :
    v.RereadAs w := by
  cases type with
  | primitive p =>
    cases hv with
    | null => exact rereadAs_of_null .null h hw
    | primitive hp => exact rereadAs_primitive hp hroom h hw
  | map value =>
    cases hv with
    | null => exact rereadAs_of_null .null h hw
    | @map _ entries hentries =>
      obtain ⟨hkeys, hvalues⟩ := hsorted
      rw [toJson, Json.tree, toValue?] at h
      split at h
      · cases h
      · next hdeep =>
        obtain ⟨members, hmembers, rfl⟩ := Option.map_eq_some_iff.1 h
        have hread := forall₂_of_toMembers? hmembers
        -- the members stand in the order of their keys, so none is dropped or moved
        have hinorder : Keyed.Sorted members := by
          rw [Keyed.sorted_iff, ← Keyed.fst_eq_of_forall₂ hread, ← Keyed.sorted_iff]
          exact hkeys
        rw [Keyed.ofList_of_sorted hinorder] at hw
        rcases ofJson_map_eq_ok hw with ⟨hnull, -⟩ | ⟨_, again, hobject, rfl, hagain⟩
        · cases hnull
        · obtain rfl := Json.object.inj hobject
          have hreread := rereadAs_entries
            (fun hv hsorted h hw => rereadAs_of_toValue? value hv hsorted (by omega) h hw)
            hentries hvalues hread hagain
          exact .map ((Keyed.fst_eq_of_forall₂ hread).trans (Keyed.fst_eq_of_forall₂ hagain))
            hreread
  | record columns =>
    cases hv with
    | null => exact rereadAs_of_null .null h hw
    | @record _ fields hfields =>
      rw [toJson, Json.tree, toValue?] at h
      split at h
      · cases h
      · next hdeep =>
        obtain ⟨items, hitems, rfl⟩ := Option.map_eq_some_iff.1 h
        rw [Json.trees_eq_map, fieldsToJson_eq_map, List.map_map] at hitems
        have hread := List.forall₂_map_left_iff.1 (Json.toValues?_eq_some_iff.1 hitems)
        rcases ofJson_record_eq_ok hw with ⟨hnull, -⟩ | ⟨_, again, harray, rfl, -, hagain⟩
        · cases hnull
        · obtain rfl := Json.array.inj harray
          exact .record (rereadAs_fields columns hfields hsorted (by omega) hread hagain)

/-- The fields of a record are read one by one. -/
theorem rereadAs_fields (columns : List Column) {fields : List Value}
    (hfields : List.Forall₂ (fun c v => HasType c.type v) columns fields)
    (hsorted : FieldsKeysSorted fields) {room : Nat} (hroom : 0 < room) {items : List Json}
    (h : List.Forall₂ (fun v j => toValue? room v.toJson.tree = some j) fields items)
    {again : List Value} (hagain : fieldsOfJson columns items = .ok again) :
    List.Forall₂ RereadAs fields again := by
  cases columns with
  | nil =>
    cases hfields
    cases h
    obtain rfl := Except.ok.inj hagain
    exact .nil
  | cons c columns =>
    obtain ⟨name, type⟩ := c
    cases hfields with
    | cons hv hfields =>
      cases h with
      | cons hj h =>
        unfold fieldsOfJson at hagain
        split at hagain
        · cases hagain
        · next w hw =>
          obtain ⟨ws, hws, rfl⟩ := Results.map_eq_ok_iff.1 hagain
          exact .cons (rereadAs_of_toValue? type hv hsorted.1 hroom hj hw)
            (rereadAs_fields columns hfields hsorted.2 hroom h hws)

end

end Value

/-! ## Rows in their frames -/

namespace Table.Frame

section Row

variable {schema : Schema} {row : Record} (htypes : row.HasTypes schema.columns)
  (hsorted : row.KeysSorted) (hdepth : row.toJson.depth < Json.depthLimit)
  (hlength : (ofRow row).length < 2 ^ 32)

include htypes hsorted hdepth hlength

/-- A row that is not too deep and whose frame is not too long is read again. -/
theorem exists_rereadAs : ∃ payload again,
    read (ofRow row) = .ok (payload, (ofRow row).length)
      ∧ Record.ofJson schema payload = .ok again ∧ List.Forall₂ Value.RereadAs row again := by
  obtain ⟨payload, hparse⟩ := Option.isSome_iff_exists.1 (row.isSome_parse?_iff.2 hdepth)
  obtain ⟨again, hagain⟩ := Record.exists_ofJson_of_parse? htypes hparse
  refine ⟨payload, again, read_ofRow hlength hparse, hagain, ?_⟩
  obtain ⟨items, rfl, hread⟩ := Json.parse?_render_array_iff.1 hparse
  rw [Value.fieldsToJson_eq_map] at hread
  have hread := List.forall₂_map_left_iff.1 hread
  rw [Record.ofJson_array (hread.length_eq.symm.trans htypes.length_eq.symm)] at hagain
  exact Value.rereadAs_fields schema.columns htypes hsorted (by decide) hread hagain

/-- The frame of a row is read to its end and decoded to a row of the same form, in which all values
but floating-point ones are as they were. A finite value in a column of single precision is read as
it was, to the last bit. The decimal that a finite double is written as is that of no other one, and
it is read as a finite double with the same sign, no more than seven units in the last place apart.
This is the double that was written just where reading the decimal, in steps that each round, gives
its magnitude: that is so where neither its digits nor its power of ten have to be rounded. -/
theorem rereadAs_ofRow : ∃ payload again,
    read (ofRow row) = .ok (payload, (ofRow row).length)
      ∧ Record.ofJson schema payload = .ok again
      ∧ List.Forall₂ Value.RereadAs row again
      ∧ (∀ (i : Nat) (bits : UInt32), row[i]? = some (.float bits) →
          single.isFinite bits.toNat = true → again[i]? = some (.float bits))
      ∧ ∀ (i : Nat) (bits : UInt64), row[i]? = some (.double bits) →
          Binary.double.isFinite bits.toNat = true →
          Binary.double.round (Json.written bits).value.1 (Json.written bits).value.2
              = Binary.double.magnitude bits.toNat
            ∧ ∃ back, again[i]? = some (.double back) ∧ Json.IsReread bits back
              ∧ (back = bits ↔
                Binary.ofScientific (Json.written bits).digits (Json.written bits).exponent
                  = some (Binary.double.magnitude bits.toNat))
              ∧ ((Json.written bits).digits ≤ 2 ^ 53 → (Json.written bits).exponent.natAbs ≤ 22 →
                back = bits) := by
  obtain ⟨payload, again, hread, hagain, hvalues⟩ := exists_rereadAs htypes hsorted hdepth hlength
  refine ⟨payload, again, hread, hagain, hvalues, fun i bits hi hfinite => ?_,
    fun i bits hi hfinite => ⟨Json.round_written hfinite, ?_⟩⟩
  · obtain ⟨w, hw, hreread⟩ := Results.exists_getElem?_of_forall₂ hvalues hi
    -- only a finite value is in question: it is neither lost nor of another type
    cases hreread with
    | unchanged hv hfree =>
      cases hv
      exact absurd rfl hfree.1
    | float => exact hw
    | lostFloat hlost => cases hlost.symm.trans hfinite
  · obtain ⟨w, hw, hreread⟩ := Results.exists_getElem?_of_forall₂ hvalues hi
    cases hreread with
    | unchanged hv hfree =>
      cases hv
      exact absurd rfl hfree.2
    | @double _ back _ hback =>
      exact ⟨back, hw, hback, hback.eq_iff, fun hdigits => hback.eq_of_few hfinite hdigits⟩
    | lostDouble hlost => cases hlost.symm.trans hfinite

end Row

/-- A rate of single and a time of double precision. -/
def measures : Schema := ⟨[⟨"rate", .primitive .float⟩, ⟨"seconds", .primitive .double⟩]⟩

/-- One tenth, and one and a half. -/
def measure : Record := [.float 0x3dcccccd, .double 0x3ff8000000000000]

theorem rereadAs_ofRow_measure : ∃ payload,
    read (ofRow measure) = .ok (payload, (ofRow measure).length)
      ∧ Record.ofJson measures payload = .ok measure := by
  have htypes : measure.HasTypes measures.columns :=
    .cons (.primitive (.float _)) (.cons (.primitive (.double _)) .nil)
  obtain ⟨payload, again, hread, hagain, hvalues, hfloats, hdoubles⟩ :=
    rereadAs_ofRow htypes ⟨trivial, trivial, trivial⟩ (by decide +kernel) (by decide +kernel)
  refine ⟨payload, hread, hagain.trans ?_⟩
  have hrate := hfloats 0 _ rfl (by decide +kernel)
  obtain ⟨-, back, hback, -, -, hfew⟩ := hdoubles 1 _ rfl (by decide +kernel)
  obtain rfl := hfew (by decide +kernel) (by decide +kernel)
  unfold measure at hvalues
  cases hvalues with
  | cons _ hrest =>
    cases hrest with
    | cons _ hrest =>
      cases hrest
      obtain rfl := Option.some.inj hrate
      obtain rfl := Option.some.inj hback
      rfl

/-- Eight thousand trillion and four is written with a zero behind the point, and the digits with
this zero do not fit a significand: rounded, and divided by ten, they give the double before it. -/
theorem rereadAs_ofRow_before : Binary.double.isFinite (0x433c6bf526340004 : UInt64).toNat = true
    ∧ ∃ payload, read (ofRow [.double 0x433c6bf526340004])
        = .ok (payload, (ofRow [.double 0x433c6bf526340004]).length)
      ∧ Record.ofJson ⟨[⟨"d", .primitive .double⟩]⟩ payload
        = .ok [.double 0x433c6bf526340003] := by
  have hfinite : Binary.double.isFinite (0x433c6bf526340004 : UInt64).toNat = true := by
    decide +kernel
  have htypes : Record.HasTypes [⟨"d", .primitive .double⟩] [.double 0x433c6bf526340004] :=
    .cons (.primitive (.double _)) .nil
  obtain ⟨payload, again, hread, hagain, hvalues⟩ :=
    exists_rereadAs htypes ⟨trivial, trivial⟩ (by decide +kernel) (by decide +kernel)
  refine ⟨hfinite, payload, hread, hagain.trans ?_⟩
  have hwritten : Json.written 0x433c6bf526340004 = ⟨80000000000000040, -1⟩ := by decide +kernel
  -- the digits are rounded to a significand, and divided by ten after that
  have hreading : Binary.ofScientific 80000000000000040 (-1)
      = some (Binary.double.magnitude (0x433c6bf526340003 : UInt64).toNat) := by
    show some (Binary.scaleDown _ 1) = _
    rw [Binary.scaleDown, if_pos (by decide)]
    decide +kernel
  cases hvalues with
  | cons hvalue hrest =>
    cases hrest
    cases hvalue with
    | unchanged hv hfree =>
      cases hv
      exact absurd rfl hfree.2
    | @double _ back _ hback =>
      have hmagnitude := hback.reading
      rw [hwritten, hreading] at hmagnitude
      -- the sign stays, so the magnitude decides
      have hsign : Binary.double.isNegative back.toNat
          = Binary.double.isNegative (0x433c6bf526340003 : UInt64).toNat :=
        hback.sign.trans (by decide +kernel)
      rw [Json.double_ext hsign (Option.some.inj hmagnitude).symm]
    | lostDouble hlost => cases hlost.symm.trans hfinite

end Table.Frame

end TableScan
