import Mathlib.Data.List.Nodup
import Mathlib.Data.List.Induction

/-! # Insertion-ordered maps

The `Map` of the language: setting a present key keeps its place and replaces
its value, setting a new one appends it. Building a map from a list of entries
is last-one-wins, in first-occurrence order.
-/

namespace JsMap

variable {κ ν : Type} [DecidableEq κ]

def set (k : κ) (v : ν) : List (κ × ν) → List (κ × ν)
  | [] => [(k, v)]
  | e :: m => if e.1 = k then (k, v) :: m else e :: set k v m

def get (k : κ) : List (κ × ν) → Option ν
  | [] => none
  | e :: m => if e.1 = k then some e.2 else get k m

def delete (k : κ) : List (κ × ν) → List (κ × ν)
  | [] => []
  | e :: m => if e.1 = k then delete k m else e :: delete k m

def ofEntries (entries : List (κ × ν)) : List (κ × ν) :=
  entries.foldl (fun m e => set e.1 e.2 m) []

theorem get_set (k k' : κ) (v : ν) (m : List (κ × ν)) :
    get k' (set k v m) = if k = k' then some v else get k' m := by
  induction m with
  | nil => rfl
  | cons e m ih =>
      by_cases he : e.1 = k
      · by_cases hk : k = k' <;> simp [set, get, he, hk]
      · by_cases hk : e.1 = k'
        · subst hk
          simp [set, get, he, Ne.symm he]
        · simp [set, get, he, hk, ih]

theorem get_delete (k k' : κ) (m : List (κ × ν)) : get k' (delete k m) = if k = k' then none else get k' m := by
  induction m with
  | nil => simp [delete, get]
  | cons e m ih =>
      by_cases he : e.1 = k
      · subst he
        simp only [delete, if_true, ih, get]
        split <;> rfl
      · by_cases hk : e.1 = k'
        · subst hk
          simp [delete, get, he, Ne.symm he]
        · simp [delete, get, he, hk, ih]

theorem keys_set (k : κ) (v : ν) (m : List (κ × ν)) :
    (set k v m).map Prod.fst =
      if k ∈ m.map Prod.fst then m.map Prod.fst else m.map Prod.fst ++ [k] := by
  induction m with
  | nil => simp [set]
  | cons e m ih =>
      by_cases he : e.1 = k
      · simp [set, he]
      · have : ¬ k = e.1 := fun h => he h.symm
        simp only [set, he, if_false, List.map_cons, ih, List.mem_cons, this, false_or]
        split <;> simp

theorem nodup_set {k : κ} {v : ν} {m : List (κ × ν)} (h : (m.map Prod.fst).Nodup) :
    ((set k v m).map Prod.fst).Nodup := by
  rw [keys_set]
  split
  · exact h
  · rename_i absent
    exact List.nodup_append.mpr
      ⟨h, by simp, fun a ha b hb same => absent (by simpa [List.mem_singleton.mp hb, same] using ha)⟩

/-- Under distinct keys, an entry is in the map exactly when looking its key up
    finds its value. -/
theorem mem_iff_get {m : List (κ × ν)} (h : (m.map Prod.fst).Nodup) (k : κ) (v : ν) :
    (k, v) ∈ m ↔ get k m = some v := by
  induction m with
  | nil => simp [get]
  | cons e m ih =>
      obtain ⟨ek, ev⟩ := e
      simp only [List.map_cons, List.nodup_cons] at h
      by_cases he : ek = k
      · subst he
        have : (ek, v) ∉ m := fun hm => h.1 (List.mem_map.mpr ⟨_, hm, rfl⟩)
        simp [get, this, eq_comm]
      · have : k ≠ ek := fun h => he h.symm
        simp [get, he, this, ih h.2]

/-- Of entries some of which have no value, those that have one. -/
theorem get_given {entries : List (κ × Option ν)} (distinct : (entries.map Prod.fst).Nodup) (k : κ) :
    get k (entries.filterMap fun e => e.2.map (e.1, ·)) = (get k entries).join := by
  induction entries with
  | nil => rfl
  | cons e entries ih =>
      obtain ⟨k', value⟩ := e
      rw [List.map_cons, List.nodup_cons] at distinct
      have later := ih distinct.2
      cases value with
      | some value =>
          simp only [List.filterMap_cons, Option.map_some, get, later]
          split <;> rfl
      | none =>
          simp only [List.filterMap_cons, Option.map_none, get, later]
          split
          · rename_i same
            cases found : get k entries with
            | none => rfl
            | some value =>
                have member := (mem_iff_get distinct.2 k value).mpr found
                exact absurd (List.mem_map_of_mem member) (same ▸ distinct.1)
          · rfl

private theorem nodup_foldl (entries m : List (κ × ν)) (h : (m.map Prod.fst).Nodup) :
    ((entries.foldl (fun m e => set e.1 e.2 m) m).map Prod.fst).Nodup := by
  induction entries generalizing m with
  | nil => exact h
  | cons e entries ih => exact ih _ (nodup_set h)

theorem nodup_ofEntries (entries : List (κ × ν)) : ((ofEntries entries).map Prod.fst).Nodup :=
  nodup_foldl entries [] List.nodup_nil

private theorem get_foldl (k : κ) (entries m : List (κ × ν)) :
    get k (entries.foldl (fun m e => set e.1 e.2 m) m) =
      ((entries.reverse.find? (·.1 = k)).map Prod.snd).or (get k m) := by
  induction entries generalizing m with
  | nil => rfl
  | cons e entries ih =>
      simp only [List.foldl_cons, ih, List.reverse_cons, List.find?_append, get_set]
      cases entries.reverse.find? (·.1 = k) with
      | some found => rfl
      | none =>
          by_cases he : e.1 = k <;> simp [he]

/-- Entries with distinct keys, set one after the other. -/
theorem get_setAll {entries : List (κ × ν)} (h : (entries.map Prod.fst).Nodup) (k : κ) (m : List (κ × ν)) :
    get k (entries.foldl (fun m e => set e.1 e.2 m) m) = (get k entries).or (get k m) := by
  induction entries generalizing m with
  | nil => rfl
  | cons e entries ih =>
      simp only [List.map_cons, List.nodup_cons] at h
      rw [List.foldl_cons, ih h.2, get_set, get]
      by_cases same : e.1 = k
      · have none : get k entries = none := by
          cases found : get k entries with
          | none => rfl
          | some v => exact (h.1 (same ▸ List.mem_map_of_mem ((mem_iff_get h.2 k v).mpr found))).elim
        simp [same, none]
      · simp [same]

/-- Last one wins. -/
theorem get_ofEntries (k : κ) (entries : List (κ × ν)) :
    get k (ofEntries entries) = (entries.reverse.find? (·.1 = k)).map Prod.snd := by
  rw [ofEntries, get_foldl]
  cases (entries.reverse.find? (·.1 = k)) <;> rfl

theorem mem_of_get {k : κ} {v : ν} {entries : List (κ × ν)}
    (h : get k (ofEntries entries) = some v) : (k, v) ∈ entries := by
  rw [get_ofEntries, Option.map_eq_some_iff] at h
  obtain ⟨e, found, rfl⟩ := h
  have hk : e.1 = k := by simpa using List.find?_some found
  subst hk
  exact List.mem_reverse.mp (List.mem_of_find?_eq_some found)

/-- Of the entries of a key, the map has the last. -/
theorem get_latest {R : ν → ν → Prop} {k : κ} {v v' : ν} {entries : List (κ × ν)}
    (ordered : entries.Pairwise fun a b => R a.2 b.2) (member : (k, v) ∈ entries)
    (found : get k (ofEntries entries) = some v') : v = v' ∨ R v v' := by
  rw [get_ofEntries, Option.map_eq_some_iff] at found
  obtain ⟨e, found, rfl⟩ := found
  induction entries with
  | nil => cases member
  | cons first entries ih =>
      obtain ⟨before, ordered⟩ := List.pairwise_cons.mp ordered
      rw [List.reverse_cons, List.find?_append] at found
      cases later : entries.reverse.find? (·.1 = k) with
      | some e' =>
          rw [later, Option.some_or] at found
          obtain rfl := Option.some.inj found
          cases List.mem_cons.mp member with
          | inl here =>
              subst here
              exact .inr (before e' (List.mem_reverse.mp (List.mem_of_find?_eq_some later)))
          | inr there => exact ih ordered there later
      | none =>
          rw [later, Option.none_or] at found
          have here : first = e := List.mem_singleton.mp (List.mem_of_find?_eq_some found) |>.symm
          cases List.mem_cons.mp member with
          | inl same => exact .inl (by rw [← here, ← same])
          | inr there =>
              have absent := List.find?_eq_none.mp later (k, v) (List.mem_reverse.mpr there)
              simp at absent

theorem get_isSome {k : κ} {v : ν} {entries : List (κ × ν)} (h : (k, v) ∈ entries) :
    ∃ v', get k (ofEntries entries) = some v' := by
  rw [get_ofEntries]
  cases found : entries.reverse.find? (·.1 = k) with
  | some e => exact ⟨e.2, rfl⟩
  | none =>
      have := List.find?_eq_none.mp found (k, v) (List.mem_reverse.mpr h)
      simp at this

theorem mem_keys_ofEntries {k : κ} {entries : List (κ × ν)} :
    k ∈ (ofEntries entries).map Prod.fst ↔ k ∈ entries.map Prod.fst := by
  constructor
  · intro h
    obtain ⟨e, member, rfl⟩ := List.mem_map.mp h
    exact List.mem_map_of_mem (mem_of_get ((mem_iff_get (nodup_ofEntries entries) e.1 e.2).mp member))
  · intro h
    obtain ⟨e, member, rfl⟩ := List.mem_map.mp h
    obtain ⟨v, found⟩ := get_isSome member
    exact List.mem_map.mpr ⟨_, (mem_iff_get (nodup_ofEntries entries) e.1 v).mpr found, rfl⟩

/-- Distinct keys leave every entry. -/
theorem ofEntries_of_nodup {entries : List (κ × ν)} (h : (entries.map Prod.fst).Nodup) :
    ofEntries entries = entries := by
  induction entries using List.reverseRecOn with
  | nil => rfl
  | append_singleton entries e ih =>
      rw [List.map_append, List.nodup_append] at h
      obtain ⟨earlier, -, apart⟩ := h
      have new : e.1 ∉ entries.map Prod.fst := fun h => apart e.1 h e.1 (by simp) rfl
      have appended : ∀ m : List (κ × ν), e.1 ∉ m.map Prod.fst → set e.1 e.2 m = m ++ [e] := by
        intro m
        induction m with
        | nil => exact fun _ => rfl
        | cons e' m ih =>
            intro absent
            simp only [List.map_cons, List.mem_cons, not_or] at absent
            rw [set, if_neg (Ne.symm absent.1), ih absent.2, List.cons_append]
      have ih := ih earlier
      rw [ofEntries] at ih ⊢
      rw [List.foldl_append, ih]
      exact appended entries new

/-- The last value of each key. -/
def lastOfEach (key : ν → κ) : List ν → List ν
  | [] => []
  | v :: rest => if ∃ later ∈ rest, key later = key v then lastOfEach key rest else v :: lastOfEach key rest

theorem lastOfEach_sublist (key : ν → κ) (l : List ν) : (lastOfEach key l).Sublist l := by
  induction l with
  | nil => exact .slnil
  | cons v rest ih =>
      rw [lastOfEach]
      split
      · exact ih.cons v
      · exact ih.cons_cons v

theorem lastOfEach_of_nodup {key : ν → κ} {l : List ν} (h : (l.map key).Nodup) : lastOfEach key l = l := by
  induction l with
  | nil => rfl
  | cons v rest ih =>
      obtain ⟨new, distinct⟩ := List.nodup_cons.mp h
      have last : ¬ ∃ later ∈ rest, key later = key v := fun ⟨later, member, same⟩ =>
        new (List.mem_map.mpr ⟨later, member, same⟩)
      rw [lastOfEach, if_neg last, ih distinct]

theorem nodup_lastOfEach (key : ν → κ) (l : List ν) : ((lastOfEach key l).map key).Nodup := by
  induction l with
  | nil => exact List.nodup_nil
  | cons v rest ih =>
      rw [lastOfEach]
      split
      · exact ih
      · rename_i last
        refine List.nodup_cons.mpr ⟨fun h => last ?_, ih⟩
        obtain ⟨later, member, same⟩ := List.mem_map.mp h
        exact ⟨later, (lastOfEach_sublist key rest).subset member, same⟩

theorem mem_lastOfEach {key : ν → κ} {l : List ν} {v : ν} :
    v ∈ lastOfEach key l ↔ l.reverse.find? (fun u => key u = key v) = some v := by
  induction l with
  | nil => simp [lastOfEach]
  | cons u rest ih =>
      have behind : rest.reverse.find? (fun u => key u = key v) = none ↔ ∀ w ∈ rest, key w ≠ key v := by
        simp [List.find?_eq_none]
      rw [lastOfEach, List.reverse_cons, List.find?_append]
      split
      · rename_i later
        obtain ⟨w, member, same⟩ := later
        rw [ih]
        cases found : rest.reverse.find? fun u => key u = key v with
        | some w' => simp
        | none =>
            have other : key u ≠ key v := fun h => behind.mp found w member (same.trans h)
            simp [other]
      · rename_i last
        rw [List.mem_cons, ih]
        cases found : rest.reverse.find? fun u => key u = key v with
        | some w =>
            have member : w ∈ rest := List.mem_reverse.mp (List.mem_of_find?_eq_some found)
            have same : key w = key v := by simpa using List.find?_some found
            have other : v ≠ u := fun h => last ⟨w, member, same.trans (congrArg key h)⟩
            simp [other]
        | none =>
            by_cases same : key u = key v
            · simp [same, eq_comm]
            · have other : v ≠ u := fun h => same (congrArg key h.symm)
              simp [same, other]

/-- A map built from values under their keys holds the last one of each key. -/
theorem ofEntries_perm (key : ν → κ) (l : List ν) :
    ((ofEntries (l.map fun v => (key v, v))).map Prod.snd).Perm (lastOfEach key l) := by
  have entry : ∀ e ∈ ofEntries (l.map fun v => (key v, v)), e.1 = key e.2 := by
    intro e he
    obtain ⟨v, -, same⟩ := List.mem_map.mp (mem_of_get ((mem_iff_get (nodup_ofEntries _) e.1 e.2).mp he))
    obtain ⟨key', rfl⟩ := Prod.mk.inj same
    exact key'.symm
  have keys : ((ofEntries (l.map fun v => (key v, v))).map Prod.snd).map key =
      (ofEntries (l.map fun v => (key v, v))).map Prod.fst := by
    rw [List.map_map]
    exact List.map_congr_left fun e he => (entry e he).symm
  refine (List.perm_ext_iff_of_nodup (List.Nodup.of_map key (keys ▸ nodup_ofEntries _))
    (nodup_lastOfEach key l).of_map).mpr fun v => ?_
  have held : v ∈ (ofEntries (l.map fun v => (key v, v))).map Prod.snd ↔
      get (key v) (ofEntries (l.map fun v => (key v, v))) = some v := by
    rw [← mem_iff_get (nodup_ofEntries _), List.mem_map]
    constructor
    · rintro ⟨e, he, rfl⟩
      exact entry e he ▸ he
    · exact fun h => ⟨_, h, rfl⟩
  rw [held, get_ofEntries, mem_lastOfEach, ← List.map_reverse, List.find?_map, Option.map_map]
  exact Iff.of_eq (congrArg (· = some v) Option.map_id')

/-- Entries of one key leave only the last of them. -/
theorem ofEntries_one_key {k : κ} {entries : List (κ × ν)} (one : ∀ e ∈ entries, e.1 = k) :
    ofEntries entries = entries.getLast?.toList := by
  induction entries using List.reverseRecOn with
  | nil => rfl
  | append_singleton entries e ih =>
      have earlier := ih fun e' he' => one e' (List.mem_append_left _ he')
      have last : e.1 = k := one e (by simp)
      simp only [ofEntries] at earlier
      simp only [ofEntries, List.foldl_append, earlier, List.foldl_cons, List.foldl_nil,
        List.getLast?_append, List.getLast?_singleton, Option.some_or, Option.toList_some]
      cases prior : entries.getLast? with
      | none => rfl
      | some e' =>
          have : e'.1 = k := one e' (List.mem_append_left _ (List.mem_of_getLast? prior))
          subst last
          simp [set, this]

end JsMap
