import Mathlib.Data.List.Perm.Subperm
import BetterBullBoard.Lib.JoinedText
import BetterBullBoard.Queues.Schema

/-! # What a comparison of values does not see

`getChangedKeys` decides whether a row is written at all. Two values are
compared at every path of the new one. `Seen` are the differences between the
two values at a path that the comparison looks for, `Unseen` those that it does
not: it knows an object by its enumerable keys alone, and a date has none.
-/

namespace BetterBullBoard

namespace JsValue

/-! ## Properties -/

/-- Objects have distinct keys, all the way down. -/
inductive Keyed : JsValue → Prop
  | simple {a} : a.isObject = false → Keyed a
  | date ms : Keyed (.date ms)
  | array {items} : (∀ v ∈ items, Keyed v) → Keyed (.array items)
  | object {entries} : (entries.map (·.1)).Nodup → (∀ e ∈ entries, Keyed e.2) → Keyed (.object entries)

theorem keys_simple {a : JsValue} (h : a.isObject = false) : a.keys = [] := by
  cases a <;> first | rfl | cases h

theorem get_simple {a : JsValue} (h : a.isObject = false) (k : String) : a.get k = .undefined := by
  cases a <;> first | rfl | cases h

theorem mem_keys_array {items : List JsValue} {k : String} :
    k ∈ (JsValue.array items).keys ↔ ∃ i < items.length, toString i = k := by
  simp [keys]

theorem get_item {items : List JsValue} {i : Nat} (h : i < items.length) :
    (JsValue.array items).get (toString i) = items[i] := by
  have index : Nat.repr i ≠ "length" := by
    intro same
    have number : 'l'.isDigit = true := JoinedText.nat_text (n := i) (by simp [same])
    exact absurd number (by decide)
  have found : (List.range items.length).find? (fun j => toString j = Nat.repr i) = some i := by
    have same : ∀ j : Nat, (toString j = Nat.repr i) = (j = i) := fun j => propext (Nat.repr_inj (m := j) (n := i))
    simp only [same, List.find?_range_eq_some, decide_eq_true_eq, List.mem_range]
    grind
  rw [show toString i = Nat.repr i from rfl, get, if_neg index, found]
  simp [List.getD_eq_getElem?_getD, h]

theorem get_entry {entries : List (String × JsValue)} (h : (entries.map (·.1)).Nodup) {e : String × JsValue}
    (mem : e ∈ entries) : (JsValue.object entries).get e.1 = e.2 := by
  rw [get, (JsMap.mem_iff_get h e.1 e.2).mp mem]
  rfl

theorem mem_keys_object {entries : List (String × JsValue)} (h : (entries.map (·.1)).Nodup) {k : String} :
    k ∈ (JsValue.object entries).keys ↔ (JsMap.get k entries).isSome = true := by
  simp only [keys, List.mem_map, Option.isSome_iff_exists]
  constructor
  · rintro ⟨e, mem, rfl⟩
    exact ⟨e.2, (JsMap.mem_iff_get h e.1 e.2).mp mem⟩
  · rintro ⟨v, found⟩
    exact ⟨(k, v), (JsMap.mem_iff_get h k v).mpr found, rfl⟩

theorem get_found {entries : List (String × JsValue)} {k : String} {v : JsValue} (h : JsMap.get k entries = some v) :
    (JsValue.object entries).get k = v := by
  rw [get, h]
  rfl

/-- What holds of the items holds of the properties of an array. -/
theorem forall_keys_array {items : List JsValue} {P : String → JsValue → Prop} :
    (∀ k ∈ (JsValue.array items).keys, P k ((JsValue.array items).get k)) ↔
      ∀ i (h : i < items.length), P (toString i) items[i] := by
  constructor
  · intro each i inside
    have at_i := each (toString i) (mem_keys_array.mpr ⟨i, inside, rfl⟩)
    rwa [get_item inside] at at_i
  · intro each k mem
    have ⟨i, inside, same⟩ := mem_keys_array.mp mem
    rw [← same, get_item inside]
    exact each i inside

theorem forall_keys_object {entries : List (String × JsValue)} (h : (entries.map (·.1)).Nodup)
    {P : String → JsValue → Prop} :
    (∀ k ∈ (JsValue.object entries).keys, P k ((JsValue.object entries).get k)) ↔ ∀ e ∈ entries, P e.1 e.2 := by
  rw [keys, List.forall_mem_map]
  refine forall₂_congr fun e mem => ?_
  rw [get_entry h mem]

theorem Keyed.distinct {entries : List (String × JsValue)} (h : Keyed (.object entries)) :
    (entries.map (·.1)).Nodup := by
  cases h with
  | simple h => cases h
  | object distinct => exact distinct

theorem keyed_inherited (k : String) : Keyed (inherited k) := by
  rw [inherited]
  split
  · exact .object List.nodup_nil (by simp)
  · exact .simple rfl

theorem Keyed.get {a : JsValue} (h : Keyed a) (k : String) : Keyed (a.get k) := by
  cases h with
  | simple h => exact get_simple h k ▸ .simple rfl
  | date ms => exact keyed_inherited k
  | array items =>
      rw [JsValue.get]
      split
      · exact .simple rfl
      · split
        · rename_i i found
          rw [List.getD_eq_getElem?_getD]
          cases at_i : (_ : List JsValue)[i]? with
          | none => exact .simple rfl
          | some v => exact items v (List.mem_of_getElem? at_i)
        · exact keyed_inherited k
  | @object entries distinct values =>
      rw [JsValue.get]
      cases found : JsMap.get k entries with
      | none => exact keyed_inherited k
      | some v => exact values _ ((JsMap.mem_iff_get distinct k v).mpr found)

/-- Induction over the properties. -/
theorem Keyed.on_properties {motive : JsValue → Prop}
    (step : ∀ a, Keyed a → (∀ k ∈ a.keys, motive (a.get k)) → motive a) {a : JsValue} (h : Keyed a) : motive a := by
  induction h with
  | simple h => exact step _ (.simple h) (by simp [keys_simple h])
  | date ms => exact step _ (.date ms) (by simp [keys])
  | @array items values ih =>
      refine step _ (.array values) (forall_keys_array.mpr ?_)
      intro i inside
      exact ih _ (List.getElem_mem inside)
  | @object entries distinct values ih =>
      exact step _ (.object distinct values) ((forall_keys_object distinct).mpr ih)

/-! ## Positions -/

/-- Two values at the same path of `a` and `b`. -/
inductive At (a b : JsValue) : JsValue → JsValue → Prop
  | here : At a b a b
  | under {x y k} : At a b x y → k ∈ x.keys → At a b (x.get k) (y.get k)

theorem At.inside {a b x y : JsValue} {k : String} (mem : k ∈ a.keys) (h : At (a.get k) (b.get k) x y) :
    At a b x y := by
  induction h with
  | here => exact .under .here mem
  | under _ inside ih => exact .under ih inside

/-- What is decided property by property holds when it holds at every position. -/
theorem everywhere (Whole Here : JsValue → JsValue → Prop)
    (unfold : ∀ a b, Keyed a → Keyed b → (Whole a b ↔ Here a b ∧ ∀ k ∈ a.keys, Whole (a.get k) (b.get k)))
    {a b : JsValue} (ha : Keyed a) (hb : Keyed b) : Whole a b ↔ ∀ x y, At a b x y → Here x y := by
  constructor
  · intro whole x y position
    have kept : Whole x y ∧ Keyed x ∧ Keyed y := by
      induction position with
      | here => exact ⟨whole, ha, hb⟩
      | under _ inside ih =>
          have ⟨whole, hx, hy⟩ := ih
          exact ⟨((unfold _ _ hx hy).mp whole).2 _ inside, hx.get _, hy.get _⟩
    exact ((unfold x y kept.2.1 kept.2.2).mp kept.1).1
  · intro each
    refine Keyed.on_properties
      (motive := fun a => ∀ b, Keyed b → (∀ x y, At a b x y → Here x y) → Whole a b) ?_ ha b hb each
    intro a ha ih b hb each
    refine (unfold a b ha hb).mpr ⟨each a b .here, ?_⟩
    intro k mem
    exact ih k mem _ (hb.get k) (fun x y position => each x y (position.inside mem))

/-! ## Differences -/

/-- A difference at one path that ends the comparison: between primitives, between an object and a primitive, or in
    the number of keys. -/
def Seen (x y : JsValue) : Bool :=
  if x.isObject && y.isObject then x.keys.length != y.keys.length else !x.strictEquals y

/-- Objects alike but for what lies below them. -/
inductive SameShape : JsValue → JsValue → Prop
  | date ms : SameShape (.date ms) (.date ms)
  | array xs ys : SameShape (.array xs) (.array ys)
  | object {xs ys} : (∀ k ∈ (JsValue.object xs).keys, k ∈ (JsValue.object ys).keys) →
      SameShape (.object xs) (.object ys)

/-- A difference at one path that the comparison does not look for: dates at different instants, a date, an array and
    an object taken for one another, and keys that only one of two objects has. -/
def Unseen (x y : JsValue) : Prop := x.isObject = true ∧ y.isObject = true ∧ ¬ SameShape x y

/-- The same JSON value, whatever the order of its keys, or the same instant. -/
inductive SameValue : JsValue → JsValue → Prop
  | undefined : SameValue .undefined .undefined
  | null : SameValue .null .null
  | bool b : SameValue (.bool b) (.bool b)
  | number n : SameValue (.number n) (.number n)
  | string s : SameValue (.string s) (.string s)
  | date ms : SameValue (.date ms) (.date ms)
  | array {xs ys : List JsValue} : xs.length = ys.length →
      (∀ (i : Nat) (x y : JsValue), xs[i]? = some x → ys[i]? = some y → SameValue x y) →
      SameValue (.array xs) (.array ys)
  | object {xs ys : List (String × JsValue)} : (∀ k, (JsMap.get k xs).isSome = (JsMap.get k ys).isSome) →
      (∀ k x y, JsMap.get k xs = some x → JsMap.get k ys = some y → SameValue x y) →
      SameValue (.object xs) (.object ys)

theorem everyEntry_iff {entries : List (String × JsValue)} {b : JsValue} :
    everyEntry entries b = true ↔ ∀ e ∈ entries, deepEqual e.2 (b.get e.1) = true := by
  induction entries with
  | nil => simp [everyEntry]
  | cons e entries ih => simp [everyEntry, ih]

theorem everyItem_iff {items : List JsValue} {i : Nat} {b : JsValue} :
    everyItem items i b = true ↔ ∀ j (h : j < items.length), deepEqual items[j] (b.get (toString (i + j))) = true := by
  induction items generalizing i with
  | nil => simp [everyItem]
  | cons v items ih =>
      simp only [everyItem, Bool.and_eq_true, ih]
      constructor
      · rintro ⟨first, rest⟩ j h
        cases j with
        | zero => exact first
        | succ j => simpa [Nat.add_assoc, Nat.add_comm 1] using rest j (by simpa using h)
      · intro each
        refine ⟨each 0 (by simp), ?_⟩
        intro j h
        simpa [Nat.add_assoc, Nat.add_comm 1] using each (j + 1) (Nat.succ_lt_succ h)

theorem seen_simple {a : JsValue} (h : a.isObject = false) (b : JsValue) : Seen a b = !a.strictEquals b := by
  simp [Seen, h]

theorem seen_object {a b : JsValue} (h : a.isObject = true) :
    Seen a b = false ↔ b.isObject = true ∧ a.keys.length = b.keys.length := by
  have noPrimitive : a.strictEquals b = false := by cases a <;> first | rfl | cases h
  cases object : b.isObject <;> simp [Seen, h, object, noPrimitive]

theorem deepEqual_simple {a : JsValue} (h : a.isObject = false) (b : JsValue) : deepEqual a b = a.strictEquals b := by
  cases a with
  | undefined | null | bool | number | string => rw [deepEqual] <;> intros <;> contradiction
  | date | array | object => cases h

/-- The comparison, one path at a time. -/
theorem deepEqual_step {a b : JsValue} (ha : Keyed a) :
    deepEqual a b = true ↔ Seen a b = false ∧ ∀ k ∈ a.keys, deepEqual (a.get k) (b.get k) = true := by
  cases ha with
  | simple simple => simp [deepEqual_simple simple, seen_simple simple, keys_simple simple]
  | date ms =>
      rw [deepEqual, seen_object rfl, show (JsValue.date ms).keys = [] from rfl]
      simp only [Bool.and_eq_true, beq_iff_eq, List.length_nil, List.not_mem_nil, false_implies, implies_true, and_true]
      exact and_congr_right fun _ => eq_comm
  | @array items values =>
      have below : everyItem items 0 b = true ↔
          ∀ k ∈ (JsValue.array items).keys, deepEqual ((JsValue.array items).get k) (b.get k) = true := by
        rw [forall_keys_array (P := fun k v => deepEqual v (b.get k) = true), everyItem_iff]
        simp only [Nat.zero_add]
      rw [deepEqual, seen_object rfl, Bool.and_eq_true, below, Bool.and_eq_true, beq_iff_eq,
        show (JsValue.array items).keys.length = items.length by simp [keys]]
  | @object entries distinct values =>
      have below : everyEntry entries b = true ↔
          ∀ k ∈ (JsValue.object entries).keys, deepEqual ((JsValue.object entries).get k) (b.get k) = true := by
        rw [forall_keys_object distinct (P := fun k v => deepEqual v (b.get k) = true), everyEntry_iff]
      rw [deepEqual, seen_object rfl, Bool.and_eq_true, below, Bool.and_eq_true, beq_iff_eq,
        show (JsValue.object entries).keys.length = entries.length by simp [keys]]

/-! ## Sameness, one path at a time -/

theorem strictEquals_iff {a b : JsValue} (h : a.isObject = false) : a.strictEquals b = true ↔ SameValue a b := by
  cases a with
  | undefined | null | bool | number | string =>
      constructor
      · intro same
        cases b <;> first | cases same | skip
        all_goals (try cases beq_iff_eq.mp same); constructor
      · intro same
        cases same
        simp [strictEquals]
  | date | array | object => cases h

theorem same_keys {xs ys : List (String × JsValue)} (hx : (xs.map (·.1)).Nodup) (hy : (ys.map (·.1)).Nodup) :
    (∀ k, (JsMap.get k xs).isSome = (JsMap.get k ys).isSome) ↔
      (JsValue.object xs).keys.length = (JsValue.object ys).keys.length ∧
        ∀ k ∈ (JsValue.object xs).keys, k ∈ (JsValue.object ys).keys := by
  have found : (∀ k, (JsMap.get k xs).isSome = (JsMap.get k ys).isSome) ↔
      ∀ k, k ∈ (JsValue.object xs).keys ↔ k ∈ (JsValue.object ys).keys := by
    exact forall_congr' fun k => by rw [mem_keys_object hx, mem_keys_object hy, Bool.eq_iff_iff]
  rw [found]
  constructor
  · intro same
    have perm : (JsValue.object xs).keys.Perm (JsValue.object ys).keys := (List.perm_ext_iff_of_nodup hx hy).mpr same
    exact ⟨perm.length_eq, fun k mem => (same k).mp mem⟩
  · rintro ⟨lengths, sub⟩ k
    have perm : (JsValue.object xs).keys.Perm (JsValue.object ys).keys :=
      (List.Nodup.subperm hx sub).perm_of_length_le (Nat.le_of_eq lengths.symm)
    exact perm.mem_iff

/-- Neither difference between objects. -/
theorem alike_object {a b : JsValue} (h : a.isObject = true) :
    (Seen a b = false ∧ ¬ Unseen a b) ↔ SameShape a b ∧ a.keys.length = b.keys.length := by
  rw [seen_object h]
  constructor
  · rintro ⟨⟨compared, lengths⟩, unseen⟩
    exact ⟨not_not.mp fun other => unseen ⟨h, compared, other⟩, lengths⟩
  · rintro ⟨shape, lengths⟩
    exact ⟨⟨by cases shape <;> rfl, lengths⟩, fun other => other.2.2 shape⟩

theorem sameValue_array {xs : List JsValue} {b : JsValue} :
    SameValue (.array xs) b ↔ (SameShape (.array xs) b ∧ (JsValue.array xs).keys.length = b.keys.length) ∧
      ∀ k ∈ (JsValue.array xs).keys, SameValue ((JsValue.array xs).get k) (b.get k) := by
  rw [forall_keys_array (P := fun k v => SameValue v (b.get k))]
  constructor
  · intro same
    cases same with
    | @array _ ys lengths each =>
        refine ⟨⟨.array xs ys, by simp [keys, lengths]⟩, ?_⟩
        intro i inside
        rw [get_item (lengths ▸ inside)]
        exact each i _ _ (List.getElem?_eq_getElem inside) (List.getElem?_eq_getElem (lengths ▸ inside))
  · rintro ⟨⟨shape, lengths⟩, below⟩
    cases shape with
    | array _ ys =>
        refine .array (by simpa [keys] using lengths) ?_
        intro i x y at_x at_y
        have ⟨insideX, eqX⟩ := List.getElem?_eq_some_iff.mp at_x
        have ⟨insideY, eqY⟩ := List.getElem?_eq_some_iff.mp at_y
        have same := below i insideX
        rwa [get_item insideY, eqX, eqY] at same

theorem sameValue_object {xs : List (String × JsValue)} {b : JsValue} (distinct : (xs.map (·.1)).Nodup)
    (hb : Keyed b) :
    SameValue (.object xs) b ↔ (SameShape (.object xs) b ∧ (JsValue.object xs).keys.length = b.keys.length) ∧
      ∀ k ∈ (JsValue.object xs).keys, SameValue ((JsValue.object xs).get k) (b.get k) := by
  constructor
  · intro same
    cases same with
    | @object _ ys isSome each =>
        have ⟨lengths, sub⟩ := (same_keys distinct hb.distinct).mp isSome
        refine ⟨⟨.object sub, lengths⟩, ?_⟩
        intro k mem
        have ⟨x, foundX⟩ := Option.isSome_iff_exists.mp ((mem_keys_object distinct).mp mem)
        have ⟨y, foundY⟩ := Option.isSome_iff_exists.mp ((mem_keys_object hb.distinct).mp (sub k mem))
        rw [get_found foundX, get_found foundY]
        exact each k x y foundX foundY
  · rintro ⟨⟨shape, lengths⟩, below⟩
    cases shape with
    | @object _ ys sub =>
        refine .object ((same_keys distinct hb.distinct).mpr ⟨lengths, sub⟩) ?_
        intro k x y foundX foundY
        have same := below k ((mem_keys_object distinct).mpr (by rw [foundX]; rfl))
        rwa [get_found foundX, get_found foundY] at same

/-- Two values are the same when neither difference is there and their properties are the same. -/
theorem sameValue_step {a b : JsValue} (ha : Keyed a) (hb : Keyed b) :
    SameValue a b ↔ (Seen a b = false ∧ ¬ Unseen a b) ∧ ∀ k ∈ a.keys, SameValue (a.get k) (b.get k) := by
  cases ha with
  | simple simple =>
      simp [← strictEquals_iff simple, seen_simple simple, Unseen, simple, keys_simple simple]
  | date ms =>
      rw [alike_object rfl]
      constructor
      · intro same
        cases same
        exact ⟨⟨.date ms, rfl⟩, by simp [keys]⟩
      · rintro ⟨⟨shape, _⟩, _⟩
        cases shape
        exact .date ms
  | array values => rw [alike_object rfl, sameValue_array]
  | object distinct values => rw [alike_object rfl, sameValue_object distinct hb]

theorem SameValue.refl {a : JsValue} (h : Keyed a) : SameValue a a := by
  refine Keyed.on_properties (motive := fun a => SameValue a a) ?_ h
  intro a ha ih
  refine (sameValue_step ha ha).mpr ⟨⟨?_, ?_⟩, ih⟩
  · cases compared : a.isObject with
    | true => exact (seen_object compared).mpr ⟨compared, rfl⟩
    | false =>
        rw [seen_simple compared]
        cases a <;> first | (simp [strictEquals]; done) | cases compared
  · rintro ⟨compared, _, other⟩
    cases a with
    | date ms => exact other (.date ms)
    | array items => exact other (.array items items)
    | object entries => exact other (.object fun _ mem => mem)
    | undefined | null | bool | number | string => cases compared

theorem deepEqual_iff {a b : JsValue} (ha : Keyed a) (hb : Keyed b) :
    deepEqual a b = true ↔ ∀ x y, At a b x y → Seen x y = false :=
  everywhere (fun a b => deepEqual a b = true) (fun x y => Seen x y = false) (fun _ _ ha _ => deepEqual_step ha) ha hb

theorem sameValue_iff {a b : JsValue} (ha : Keyed a) (hb : Keyed b) :
    SameValue a b ↔ ∀ x y, At a b x y → Seen x y = false ∧ ¬ Unseen x y :=
  everywhere SameValue (fun x y => Seen x y = false ∧ ¬ Unseen x y) (fun _ _ ha hb => sameValue_step ha hb) ha hb

end JsValue

open JsValue

/-! ## Rows -/

/-- The columns of a row, or the values about to be written to it. -/
structure Columns where
  entries : List (String × JsValue)
  keyed : (JsValue.object entries).Keyed

/-- The values a queue is written with. -/
def QueueInsert.toColumns (q : QueueInsert) (options : q.defaultJobOptions.Keyed) : Columns where
  entries := q.columns
  keyed := by
    refine .object (by simp [QueueInsert.columns]) ?_
    intro e mem
    simp only [QueueInsert.columns, List.mem_cons, List.not_mem_nil, or_false] at mem
    rcases mem with rfl | rfl | rfl
    · exact .simple rfl
    · exact options
    · exact .simple rfl

theorem keyed_orNull {α : Type} {f : α → JsValue} {a : Option α} (h : ∀ v ∈ a, (f v).Keyed) :
    (JsValue.orNull f a).Keyed := by
  cases a with
  | none => exact .simple rfl
  | some v => exact h v rfl

/-- The values a scheduler is written with. -/
def JobScheduler.toColumns (r : JobScheduler) (template : ∀ t ∈ r.template, t.Keyed) : Columns where
  entries := r.columns
  keyed := by
    refine .object (by simp [JobScheduler.columns]) ?_
    intro e mem
    simp only [JobScheduler.columns, List.mem_cons, List.not_mem_nil, or_false] at mem
    rcases mem with rfl | rfl | rfl | rfl | rfl | rfl | rfl | rfl | rfl
    · exact .simple rfl
    · exact .simple rfl
    · exact .simple rfl
    · exact keyed_orNull fun _ _ => .simple rfl
    · exact keyed_orNull fun ms _ => .date ms
    · exact keyed_orNull fun _ _ => .simple rfl
    · exact keyed_orNull fun _ _ => .simple rfl
    · exact keyed_orNull fun _ _ => .simple rfl
    · exact keyed_orNull template

namespace Columns

variable (params row : Columns)

def value (k : String) : JsValue := (JsMap.get k row.entries).getD .undefined

/-- The row after `set(params)`. -/
def written : List (String × JsValue) := params.entries.foldl (fun r e => JsMap.set e.1 e.2 r) row.entries

/-- Writing leaves every column with the value it has. -/
def Unchanged : Prop := ∀ k, SameValue ((JsMap.get k (params.written row)).getD .undefined) (row.value k)

/-- Somewhere the values written differ from the row in what the comparison looks for. -/
def SeenSomewhere : Prop := ∃ e ∈ params.entries, ∃ x y, At e.2 (row.value e.1) x y ∧ Seen x y = true

/-- Somewhere they differ in what it does not look for. -/
def UnseenSomewhere : Prop := ∃ e ∈ params.entries, ∃ x y, At e.2 (row.value e.1) x y ∧ Unseen x y

variable {params row}

theorem keyed_entry {e : String × JsValue} (mem : e ∈ params.entries) : e.2.Keyed := by
  cases params.keyed with
  | simple h => cases h
  | object _ values => exact values e mem

theorem keyed_value (k : String) : (row.value k).Keyed := by
  rw [value]
  cases found : JsMap.get k row.entries with
  | none => exact .simple rfl
  | some v => exact keyed_entry (e := (k, v)) ((JsMap.mem_iff_get row.keyed.distinct k v).mpr found)

theorem unchanged_iff : Unchanged params row ↔ ∀ e ∈ params.entries, SameValue e.2 (row.value e.1) := by
  simp only [Unchanged, written, JsMap.get_setAll params.keyed.distinct]
  constructor
  · intro same e mem
    have := same e.1
    rwa [(JsMap.mem_iff_get params.keyed.distinct e.1 e.2).mp mem] at this
  · intro same k
    cases found : JsMap.get k params.entries with
    | none => exact .refl (keyed_value k)
    | some v => exact same (k, v) ((JsMap.mem_iff_get params.keyed.distinct k v).mpr found)

theorem isChanged_eq (e : String × JsValue) : isChanged row.entries e = !deepEqual e.2 (row.value e.1) := by
  rw [isChanged, value]
  cases compared : e.2.isObject with
  | true => rfl
  | false => simp [deepEqual_simple compared]

theorem getChangedKeys_nil :
    getChangedKeys params.entries row.entries = [] ↔ ∀ e ∈ params.entries, deepEqual e.2 (row.value e.1) = true := by
  simp [getChangedKeys, isChanged_eq]

theorem getChangedKeys_nil_iff :
    getChangedKeys params.entries row.entries = [] ↔ ¬ SeenSomewhere params row := by
  rw [getChangedKeys_nil]
  constructor
  · rintro equal ⟨e, mem, x, y, position, seen⟩
    have := (deepEqual_iff (keyed_entry mem) (keyed_value e.1)).mp (equal e mem) x y position
    simp [seen] at this
  · intro none e mem
    refine (deepEqual_iff (keyed_entry mem) (keyed_value e.1)).mpr ?_
    intro x y position
    cases seen : Seen x y with
    | false => rfl
    | true => exact (none ⟨e, mem, x, y, position, seen⟩).elim

theorem unchanged_iff_nowhere :
    Unchanged params row ↔ ¬ SeenSomewhere params row ∧ ¬ UnseenSomewhere params row := by
  rw [unchanged_iff]
  constructor
  · intro same
    constructor
    · rintro ⟨e, mem, x, y, position, seen⟩
      have := ((sameValue_iff (keyed_entry mem) (keyed_value e.1)).mp (same e mem) x y position).1
      simp [seen] at this
    · rintro ⟨e, mem, x, y, position, unseen⟩
      exact ((sameValue_iff (keyed_entry mem) (keyed_value e.1)).mp (same e mem) x y position).2 unseen
  · rintro ⟨noSeen, noUnseen⟩ e mem
    refine (sameValue_iff (keyed_entry mem) (keyed_value e.1)).mpr ?_
    intro x y position
    refine ⟨?_, fun unseen => noUnseen ⟨e, mem, x, y, position, unseen⟩⟩
    cases seen : Seen x y with
    | false => rfl
    | true => exact (noSeen ⟨e, mem, x, y, position, seen⟩).elim

/-- Nothing is lost exactly when there is a difference the comparison sees, or none that it does not. -/
theorem nothing_lost_iff (params row : Columns) :
    (getChangedKeys params.entries row.entries = [] → Unchanged params row) ↔
      SeenSomewhere params row ∨ ¬ UnseenSomewhere params row := by
  rw [getChangedKeys_nil_iff, unchanged_iff_nowhere]
  tauto

/-- A scheduler that ends at an instant. -/
def nightly (endDate : Int) : JobScheduler where
  queueId := 0
  key := "nightly"
  name := "nightly"
  limit := none
  endDate := some endDate
  tz := none
  pattern := some "0 0 * * *"
  every := none
  template := none

def nightlyColumns (endDate : Int) : Columns := (nightly endDate).toColumns (by simp [nightly])

/-- A moved end date is never written; nor is `[]` in the place of an object without keys. -/
theorem moved_end_date :
    (getChangedKeys (nightlyColumns 1767225600000).entries (nightlyColumns 1735689600000).entries = [] ∧
        ¬ Unchanged (nightlyColumns 1767225600000) (nightlyColumns 1735689600000)) ∧
      deepEqual (.array []) (.object []) = true ∧ ¬ SameValue (.array []) (.object []) := by
  refine ⟨⟨by decide +kernel, ?_⟩, by decide +kernel, fun same => by cases same⟩
  intro unchanged
  have same := unchanged_iff.mp unchanged ("endDate", .date 1767225600000) (by simp [nightlyColumns, nightly,
    JobScheduler.toColumns, JobScheduler.columns, JsValue.orNull])
  have stored : (nightlyColumns 1735689600000).value "endDate" = .date 1735689600000 := rfl
  rw [stored] at same
  cases same

end Columns

end BetterBullBoard
