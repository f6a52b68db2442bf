import Mathlib.Data.List.Forall2
import Mathlib.Data.String.Basic
import TableScan.Proofs.Json.Text
import TableScan.Proofs.Keyed

/-!
# Values that are read back as they were written

A value is exact (`Json.IsExact`) if its numbers are integers that fit a word and the members of its
objects stand in key order. The text of an exact value is read back as this value, if it is not too
deep (`parse?_render`); deeper ones are refused. The items of any array are read one by one
(`parse?_render_array_iff`).
-/

namespace TableScan

namespace Json

/-! ## Integers -/

namespace Numeral

/-- Digits are taken as long as their number fits a word. -/
theorem extend_of_lt {n : Nat} {digits : List Nat}
    (h : digits.foldl (fun n d => n * 10 + d) n < wordBound) :
    extend n digits = (digits.foldl (fun n d => n * 10 + d) n, []) := by
  -- more digits make a number no smaller, so its front fits if the whole does
  have hle : ∀ (digits : List Nat) n, n ≤ digits.foldl (fun n d => n * 10 + d) n := by
    intro digits
    induction digits with
    | nil => exact fun n => le_refl n
    | cons d digits ih =>
      intro n
      have hstep := ih (n * 10 + d)
      rw [List.foldl_cons]
      omega
  induction digits generalizing n with
  | nil => rfl
  | cons d digits ih =>
    rw [List.foldl_cons] at h ⊢
    rw [extend, if_pos (lt_of_le_of_lt (hle digits _) h), ih h]

end Numeral

/-- Integers of a word are numbers as they are written. -/
theorem toNumber?_ofInt {n : Int} (hmin : -(2 ^ 63) ≤ n) (hmax : n < 2 ^ 64) :
    Numeral.toNumber? ⟨decide (n < 0), (Nat.toDigits 10 n.natAbs).map Syntax.digitValue, [], none⟩
      = some (.int n) := by
  have hvalue := Syntax.natOfDigits_toDigits n.natAbs
  unfold Syntax.natOfDigits at hvalue
  have hextend : Numeral.extend 0 ((Nat.toDigits 10 n.natAbs).map Syntax.digitValue)
      = (n.natAbs, []) := by
    have hfits : n.natAbs < wordBound := by
      unfold wordBound
      omega
    rw [Numeral.extend_of_lt (by rw [hvalue]; exact hfits), hvalue]
  unfold Numeral.toNumber?
  simp only [hextend, List.isEmpty_nil, Option.isNone_none, Bool.and_self, if_true]
  -- a negative integer has one value more than a positive one in a signed word
  by_cases hneg : n < 0
  · have hbounds : (n.natAbs != 0 && decide (n.natAbs ≤ 2 ^ 63)) = true := by
      rw [Bool.and_eq_true, bne_iff_ne, decide_eq_true_eq]
      omega
    have hvalue : -(n.natAbs : Int) = n := by omega
    rw [decide_eq_true hneg, if_neg (by decide), if_pos hbounds, hvalue]
  · have hvalue : (n.natAbs : Int) = n := by omega
    rw [decide_eq_false hneg, if_pos (by decide), hvalue]

/-! ## Exact values -/

mutual

/-- The number of arrays and objects that enclose each other in a value. -/
def depth : Json → Nat
  | .array items => itemsDepth items + 1
  | .object members => membersDepth members + 1
  | _ => 0

/-- The depth of the deepest item. -/
def itemsDepth : List Json → Nat
  | [] => 0
  | j :: rest => max (depth j) (itemsDepth rest)

/-- The depth of the deepest member. -/
def membersDepth : List (String × Json) → Nat
  | [] => 0
  | (_, j) :: rest => max (depth j) (membersDepth rest)

end

mutual

/-- Holds of values without loss in their text: all numbers are integers of a word, and all members
stand in key order. -/
def IsExact : Json → Prop
  | .number (.int n) => -(2 ^ 63) ≤ n ∧ n < 2 ^ 64
  | .number (.double _) => False
  | .array items => ItemsExact items
  | .object members => Keyed.Sorted members ∧ MembersExact members
  | _ => True

/-- Holds of items that are all exact. -/
def ItemsExact : List Json → Prop
  | [] => True
  | j :: rest => IsExact j ∧ ItemsExact rest

/-- Holds of members that are all exact. -/
def MembersExact : List (String × Json) → Prop
  | [] => True
  | (_, j) :: rest => IsExact j ∧ MembersExact rest

end

open Syntax (toValue? toValues? toMembers?)

mutual

/-- The tree of an exact value is read as this value where there is room for its depth. Along the
value, together with items and members. -/
theorem toValue?_tree (j : Json) {room : Nat} (hexact : j.IsExact) (hroom : j.depth < room) :
    toValue? room j.tree = some j := by
  cases j with
  | null => rfl
  | bool b => rfl
  | number n =>
    cases n with
    | int n =>
      obtain ⟨hmin, hmax⟩ := hexact
      show (Numeral.toNumber? _).map Json.number = _
      exact congrArg (Option.map Json.number) (toNumber?_ofInt hmin hmax)
    | double bits => exact absurd hexact not_false
  | string s => rfl
  | array items =>
    rw [depth] at hroom
    rw [tree, toValue?, if_neg (by omega), toValues?_trees items hexact (by omega)]
    rfl
  -- members in key order are not moved when they are put into an object
  | object members =>
    obtain ⟨hsorted, hmembers⟩ := hexact
    rw [depth] at hroom
    rw [tree, toValue?, if_neg (by omega), toMembers?_memberTrees members hmembers (by omega),
      Option.map_some, Keyed.ofList_of_sorted hsorted]

/-- The trees of exact items are read as these items. -/
theorem toValues?_trees (items : List Json) {room : Nat} (hexact : ItemsExact items)
    (hroom : itemsDepth items < room) : toValues? room (trees items) = some items := by
  cases items with
  | nil => rfl
  | cons j rest =>
    obtain ⟨hj, hrest⟩ := hexact
    rw [itemsDepth] at hroom
    rw [trees, toValues?, toValue?_tree j hj (by omega), toValues?_trees rest hrest (by omega)]
    rfl

/-- The trees of exact members are read as these members. -/
theorem toMembers?_memberTrees (members : List (String × Json)) {room : Nat}
    (hexact : MembersExact members) (hroom : membersDepth members < room) :
    toMembers? room (memberTrees members) = some members := by
  cases members with
  | nil => rfl
  | cons m rest =>
    obtain ⟨key, j⟩ := m
    obtain ⟨hj, hrest⟩ := hexact
    rw [membersDepth] at hroom
    rw [memberTrees, toMembers?, toValue?_tree j hj (by omega),
      toMembers?_memberTrees rest hrest (by omega)]
    rfl

end

/-- What a reader makes of a rendered value. -/
theorem parse?_render_eq (j : Json) : parse? j.render = toValue? depthLimit j.tree := by
  rw [parse?, Syntax.parse_render]
  rfl

/-- An exact value that is not too deep is read back from its text. -/
theorem parse?_render {j : Json} (hexact : j.IsExact) (hdepth : j.depth < depthLimit) :
    parse? j.render = some j := by
  rw [parse?_render_eq, toValue?_tree j hexact hdepth]

/-- Items are read one by one. -/
theorem toValues?_eq_some_iff {room : Nat} {trees : List Syntax} {items : List Json} :
    toValues? room trees = some items
      ↔ List.Forall₂ (fun s j => toValue? room s = some j) trees items := by
  induction trees generalizing items with
  | nil => simp [toValues?, eq_comm]
  | cons s trees ih =>
    rw [toValues?, List.forall₂_cons_left_iff]
    constructor
    · intro h
      obtain ⟨j, hj, h⟩ := Option.bind_eq_some_iff.1 h
      obtain ⟨js, hjs, h⟩ := Option.bind_eq_some_iff.1 h
      exact ⟨j, js, hj, ih.1 hjs, (Option.some.inj h).symm⟩
    · rintro ⟨j, js, hj, hjs, rfl⟩
      rw [hj, ih.2 hjs]
      rfl

/-- The trees of items are those of the single ones. -/
theorem trees_eq_map (items : List Json) : trees items = items.map tree := by
  induction items with
  | nil => rfl
  | cons j items ih => rw [trees, ih, List.map_cons]

/-- What an array reads as is what its items read as, one by one. -/
theorem parse?_render_array_iff {items : List Json} {j : Json} :
    parse? (array items).render = some j ↔ ∃ js, j = .array js
      ∧ List.Forall₂ (fun item j => toValue? (depthLimit - 1) item.tree = some j) items js := by
  rw [parse?_render_eq, tree, toValue?, if_neg (by decide), trees_eq_map, Option.map_eq_some_iff]
  constructor
  · rintro ⟨js, hjs, rfl⟩
    exact ⟨js, rfl, List.forall₂_map_left_iff.1 (toValues?_eq_some_iff.1 hjs)⟩
  · rintro ⟨js, rfl, hjs⟩
    exact ⟨js, toValues?_eq_some_iff.2 (List.forall₂_map_left_iff.2 hjs), rfl⟩

end Json

end TableScan
