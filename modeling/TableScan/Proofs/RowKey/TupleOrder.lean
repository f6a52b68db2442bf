import TableScan.Proofs.Results
import TableScan.Proofs.RowKey.FieldOrder

/-!
# Row keys: the order of tuples

The key of a tuple is its encoded fields one after another. `tupleOrder` is the order that sort
columns describe: the most significant column decides, and the next one where it does not.

Main statement: keys are in the order of the tuples they were made of, and two tuples have one key
just when they count as the same values (`keyOfTuple_order`).
-/

namespace TableScan

/-- The types of the sort columns. -/
def SortOrder.types (order : SortOrder) : List Primitive :=
  order.columns.filterMap fun c => c.type.primitive?

/-- The order of two tuples of values of some types, the first column first. -/
def tupleOrder : List Primitive → List Value → List Value → Ordering
  | p :: types, v :: vs, w :: ws =>
    ((v.widenTo p).order (w.widenTo p)).then (tupleOrder types vs ws)
  | _, _, _ => .eq

/-- The values that a tuple counts as. -/
def widenTuple (types : List Primitive) (vs : List Value) : List Value :=
  List.zipWith Value.widenTo types vs

namespace RowKey

/-- The bytes of a tuple: its encoded fields one after another. -/
inductive EncodesTuple : List Primitive → List Value → List UInt8 → Prop where
  | nil : EncodesTuple [] [] []
  | cons {p : Primitive} {types : List Primitive} {v : Value} {vs : List Value}
      {x y : List UInt8} (field : encodeField? p v = some x) (rest : EncodesTuple types vs y) :
      EncodesTuple (p :: types) (v :: vs) (x ++ y)

/-- Encoded tuples compare as the tuples. The first fields decide, and if they are equal what
follows them does. -/
theorem EncodesTuple.compare_eq {types : List Primitive} {vs ws : List Value} {k l : List UInt8}
    (hv : EncodesTuple types vs k) (hw : EncodesTuple types ws l) :
    compare k l = tupleOrder types vs ws := by
  induction hv generalizing ws l with
  | nil =>
    cases hw
    rfl
  | cons hx _ ih =>
    cases hw with
    | cons hy hrest => rw [compare_encodeField_append hx hy, ih hrest, tupleOrder]

theorem EncodesTuple.widenTuple_eq {types : List Primitive} {vs ws : List Value}
    {k l : List UInt8} (hv : EncodesTuple types vs k) (hw : EncodesTuple types ws l)
    (h : tupleOrder types vs ws = .eq) : widenTuple types vs = widenTuple types ws := by
  induction hv generalizing ws l with
  | nil =>
    cases hw
    rfl
  | cons hx _ ih =>
    cases hw with
    | cons hy hrest =>
      -- no column tells the tuples apart, and so each pair of values counts as one
      rw [tupleOrder, Ordering.then_eq_eq] at h
      show _ :: widenTuple _ _ = _ :: widenTuple _ _
      rw [widenTo_eq_of_order_eq hx hy h.1, ih hrest h.2]

/-- Tuples that count as the same values have the same bytes. -/
theorem EncodesTuple.eq_of_widenTuple_eq {types : List Primitive} {vs ws : List Value}
    {k l : List UInt8} (hv : EncodesTuple types vs k) (hw : EncodesTuple types ws l)
    (h : widenTuple types vs = widenTuple types ws) : k = l := by
  induction hv generalizing ws l with
  | nil =>
    cases hw
    rfl
  | @cons p _ v _ _ _ hx _ ih =>
    cases hw with
    | @cons _ _ w _ _ _ hy hrest =>
      -- the bytes of a field are those of the wide value that it counts as
      obtain ⟨hhead, htail⟩ := List.cons.inj h
      rw [← encodeField?_widenTo, hhead, encodeField?_widenTo, hy] at hx
      rw [Option.some.inj hx, ih hrest htail]

end RowKey

namespace KeyLayout

open RowKey (EncodesTuple)

/-- Fields that are encoded part by part are an encoded tuple. -/
theorem encodesTuple_of_forall₂ {parts : List KeyField} {vs : List Value}
    {fields : List (List UInt8)} (hlen : vs.length = parts.length)
    (h : List.Forall₂ (fun (pv : KeyField × Value) x => pv.1.encode pv.2 = .ok x)
      (parts.zip vs) fields) :
    EncodesTuple (parts.map KeyField.type) vs fields.flatten := by
  induction parts generalizing vs fields with
  | nil =>
    obtain rfl := List.length_eq_zero_iff.1 hlen
    cases h
    exact .nil
  | cons part parts ih =>
    cases vs with
    | nil => simp at hlen
    | cons v vs =>
      cases h with
      | cons hfield hrest =>
        refine .cons ?_ (ih (by simpa using hlen) hrest)
        unfold KeyField.encode at hfield
        split at hfield
        · next bytes henc => rw [henc, Except.ok.inj hfield]
        · cases hfield

/-- The key of a tuple is its encoded fields one after another. -/
theorem encodesTuple_of_keyOfTuple {g : KeyLayout} {vs : List Value} {k : RowKey}
    (h : g.keyOfTuple vs = .ok k) : EncodesTuple g.types vs k.bytes := by
  unfold keyOfTuple at h
  split at h
  · next hlen =>
    obtain ⟨fields, hfields, hk⟩ := Results.bind_eq_ok_iff.1 h
    obtain rfl := Except.ok.inj hk
    exact encodesTuple_of_forall₂ hlen (Results.mapM_eq_ok_iff.1 hfields)
  · cases h

theorem primitive?_of_ofColumn {layout : Schema} {c : Column} {part : KeyField}
    (h : KeyField.ofColumn layout c = .ok part) : c.type.primitive? = some part.type := by
  unfold KeyField.ofColumn at h
  split at h
  · cases h
  · next p hp =>
    split at h
    · split at h
      · obtain rfl := Except.ok.inj h
        exact hp
      · cases h
    · cases h

theorem types_of_forall₂ {layout : Schema} {columns : List Column} {parts : List KeyField}
    (h : List.Forall₂ (fun c part => KeyField.ofColumn layout c = .ok part) columns parts) :
    parts.map KeyField.type = columns.filterMap fun c => c.type.primitive? := by
  induction h with
  | nil => rfl
  | cons hpart _ ih =>
    simp only [List.map_cons, List.filterMap_cons, primitive?_of_ofColumn hpart, ih]

/-- The parts of a layout have the types of the sort columns. -/
theorem types_of_forTuples {order : SortOrder} {g : KeyLayout} (h : forTuples order = .ok g) :
    g.types = order.types := by
  obtain ⟨layout, _, hg⟩ := Results.bind_eq_ok_iff.1 h
  obtain ⟨parts, hparts, rfl⟩ := Results.map_eq_ok_iff.1 hg
  exact types_of_forall₂ (Results.mapM_eq_ok_iff.1 hparts)

/-- Keys are in the order of their tuples, and tuples have one key just when they count as the same
values. -/
theorem keyOfTuple_order {order : SortOrder} {g : KeyLayout} {vs ws : List Value} {k l : RowKey}
    (hg : forTuples order = .ok g) (hv : g.keyOfTuple vs = .ok k) (hw : g.keyOfTuple ws = .ok l) :
    compare k.bytes l.bytes = tupleOrder order.types vs ws
      ∧ (k < l ↔ tupleOrder order.types vs ws = .lt)
      ∧ (k = l ↔ widenTuple order.types vs = widenTuple order.types ws) := by
  have hvs := encodesTuple_of_keyOfTuple hv
  have hws := encodesTuple_of_keyOfTuple hw
  -- the layout has the types of the order
  rw [types_of_forTuples hg] at hvs hws
  have hcompare := hvs.compare_eq hws
  refine ⟨hcompare, ?_, ?_, ?_⟩
  · rw [← hcompare]
    exact RowKey.lt_iff_compare_eq_lt k.bytes l.bytes
  · rintro rfl
    exact hvs.widenTuple_eq hws (hcompare.symm.trans Std.ReflOrd.compare_self)
  · intro h
    have hbytes := hvs.eq_of_widenTuple_eq hws h
    cases k
    cases l
    exact congrArg RowKey.mk hbytes

/-- A null in a tuple goes before a number there, behind equal bytes that hold a zero. -/
theorem keyOfTuple_null_lt_int :
    forTuples ⟨⟨[⟨"s", .primitive .bytes⟩, ⟨"n", .primitive .long⟩]⟩⟩
        = .ok ⟨[⟨"s", .bytes, 0⟩, ⟨"n", .long, 1⟩]⟩
      ∧ keyOfTuple ⟨[⟨"s", .bytes, 0⟩, ⟨"n", .long, 1⟩]⟩ [.bytes [97, 0], .null]
        = .ok ⟨[1, 97, 0, 255, 0, 0, 0]⟩
      ∧ keyOfTuple ⟨[⟨"s", .bytes, 0⟩, ⟨"n", .long, 1⟩]⟩ [.bytes [97, 0], .int 5]
        = .ok ⟨[1, 97, 0, 255, 0, 0, 1, 128, 0, 0, 0, 0, 0, 0, 5]⟩
      ∧ RowKey.mk [1, 97, 0, 255, 0, 0, 0]
        < ⟨[1, 97, 0, 255, 0, 0, 1, 128, 0, 0, 0, 0, 0, 0, 5]⟩ := by
  have hg : forTuples ⟨⟨[⟨"s", .primitive .bytes⟩, ⟨"n", .primitive .long⟩]⟩⟩
      = .ok ⟨[⟨"s", .bytes, 0⟩, ⟨"n", .long, 1⟩]⟩ := rfl
  have hnull : keyOfTuple ⟨[⟨"s", .bytes, 0⟩, ⟨"n", .long, 1⟩]⟩ [.bytes [97, 0], .null]
      = .ok ⟨[1, 97, 0, 255, 0, 0, 0]⟩ := rfl
  have hfive : keyOfTuple ⟨[⟨"s", .bytes, 0⟩, ⟨"n", .long, 1⟩]⟩ [.bytes [97, 0], .int 5]
      = .ok ⟨[1, 97, 0, 255, 0, 0, 1, 128, 0, 0, 0, 0, 0, 0, 5]⟩ := rfl
  exact ⟨hg, hnull, hfive, (keyOfTuple_order hg hnull hfive).2.1.2 rfl⟩

end KeyLayout

end TableScan
