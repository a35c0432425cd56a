import Std.Data.ExtTreeMap
import Mathlib.Data.List.Induction
import Mathlib.Data.List.Sort

/-! Ordered maps whose values carry their own key.  The field `keyed` makes a
value stored under a foreign key impossible, so a lookup and a membership test
are the same fact. -/

namespace Rollforward.Lib

open Std

abbrev Map (α β : Type) [Ord α] := ExtTreeMap α β compare

theorem Map.get?_insert [Ord α] [TransOrd α] [LawfulEqOrd α] [DecidableEq α]
    (m : Map α β) (k a : α) (v : β) :
    (m.insert k v)[a]? = if k = a then some v else m[a]? := by
  rw [ExtTreeMap.getElem?_insert]
  by_cases h : k = a
  · simp [h]
  · simp [h]

theorem Map.get?_erase [Ord α] [TransOrd α] [LawfulEqOrd α] [DecidableEq α]
    (m : Map α β) (k a : α) :
    (m.erase k)[a]? = if k = a then none else m[a]? := by
  rw [ExtTreeMap.getElem?_erase]
  by_cases h : k = a
  · simp [h]
  · simp [h]

/-- A value that is already there stays. -/
theorem Map.get?_insertIfNew [Ord α] [TransOrd α] [LawfulEqOrd α] [DecidableEq α]
    (m : Map α β) (k a : α) (v : β) :
    (m.insertIfNew k v)[a]? = if k = a then some (m[a]?.getD v) else m[a]? := by
  rw [ExtTreeMap.getElem?_insertIfNew]
  by_cases h : k = a
  · subst h
    by_cases hk : k ∈ m
    · simp [hk]
    · simp [hk]
  · simp [h]

theorem Map.mem_keys_unitOfList [Ord α] [TransOrd α] [LawfulEqOrd α] [DecidableEq α]
    (xs : List α) (k : α) : k ∈ (ExtTreeMap.unitOfList xs compare).keys ↔ k ∈ xs := by
  rw [ExtTreeMap.mem_keys, ExtTreeMap.mem_unitOfList, List.contains_iff_mem]

/-- The last pair of a key is the one that is kept. -/
theorem Map.get?_ofList [Ord α] [TransOrd α] [LawfulEqOrd α] [DecidableEq α]
    (xs : List (α × β)) (k : α) :
    (ExtTreeMap.ofList xs compare : Map α β)[k]? =
      ((xs.filter fun x => x.1 = k).getLast?).map Prod.snd := by
  induction xs using List.reverseRecOn with
  | nil => simp
  | append_singleton xs x ih =>
    rw [ExtTreeMap.ofList_eq_insertMany_empty, ExtTreeMap.insertMany_append,
      ← ExtTreeMap.ofList_eq_insertMany_empty, ExtTreeMap.insertMany_list_singleton,
      Map.get?_insert, ih]
    by_cases h : x.1 = k <;> simp [h]

theorem Map.mem_of_get?_ofList [Ord α] [TransOrd α] [LawfulEqOrd α] [DecidableEq α]
    {xs : List (α × β)} {k : α} {v : β}
    (h : (ExtTreeMap.ofList xs compare : Map α β)[k]? = some v) : (k, v) ∈ xs := by
  rw [Map.get?_ofList] at h
  obtain ⟨⟨k', v'⟩, hx, rfl⟩ := Option.map_eq_some_iff.mp h
  obtain ⟨hmem, hk⟩ := List.mem_filter.mp (List.mem_of_getLast? hx)
  obtain rfl : k' = k := of_decide_eq_true hk
  exact hmem

theorem Map.get?_ofList_eq_none [Ord α] [TransOrd α] [LawfulEqOrd α] [DecidableEq α]
    {xs : List (α × β)} {k : α} :
    (ExtTreeMap.ofList xs compare : Map α β)[k]? = none ↔ k ∉ xs.map Prod.fst := by
  rw [Map.get?_ofList, Option.map_eq_none_iff, List.getLast?_eq_none_iff, List.filter_eq_nil_iff]
  simp only [decide_eq_true_eq, List.mem_map, not_exists, not_and]

theorem Map.mem_keys_ofList [Ord α] [TransOrd α] [LawfulEqOrd α] [DecidableEq α]
    {xs : List (α × β)} {k : α} :
    k ∈ (ExtTreeMap.ofList xs compare : Map α β).keys ↔ k ∈ xs.map Prod.fst := by
  rw [ExtTreeMap.mem_keys, ExtTreeMap.mem_ofList, List.contains_iff_mem]

/-- Values may be mapped before or after the pairs are collected. -/
theorem Map.get?_ofList_map [Ord α] [TransOrd α] [LawfulEqOrd α] [DecidableEq α]
    (xs : List γ) (f : γ → α) (e : γ → δ) (k : α) :
    (ExtTreeMap.ofList (xs.map fun x => (f x, e x)) compare : Map α δ)[k]? =
      (ExtTreeMap.ofList (xs.map fun x => (f x, x)) compare : Map α γ)[k]?.map e := by
  simp only [Map.get?_ofList, List.filter_map, Function.comp_def, List.getLast?_map,
    Option.map_map]

/-- With distinct keys every pair is kept. -/
theorem Map.get?_ofList_eq_some [Ord α] [TransOrd α] [LawfulEqOrd α] [DecidableEq α]
    {xs : List (α × β)} (hnodup : (xs.map Prod.fst).Nodup) {k : α} {v : β} :
    (ExtTreeMap.ofList xs compare : Map α β)[k]? = some v ↔ (k, v) ∈ xs := by
  refine ⟨Map.mem_of_get?_ofList, fun h => ?_⟩
  apply ExtTreeMap.getElem?_ofList_of_mem compare_self _ h
  rw [← List.pairwise_map (f := Prod.fst) (R := fun a b => ¬compare a b = .eq)]
  apply hnodup.imp
  intro a b hne he
  exact hne (compare_eq_iff_eq.mp he)

theorem Map.ofList_of_perm [Ord α] [TransOrd α] [LawfulEqOrd α] [DecidableEq α]
    {xs ys : List (α × β)} (hnodup : (xs.map Prod.fst).Nodup) (hperm : ys.Perm xs) :
    (ExtTreeMap.ofList ys compare : Map α β) = ExtTreeMap.ofList xs compare := by
  apply ExtTreeMap.ext_getElem?
  intro k
  apply Option.ext
  intro v
  rw [Map.get?_ofList_eq_some hnodup,
    Map.get?_ofList_eq_some (((hperm.map Prod.fst).nodup_iff).mpr hnodup), hperm.mem_iff]

structure KeyedMap (α β : Type) [Ord α] [TransOrd α] (key : β → α) where
  map : Map α β
  keyed : ∀ {k v}, map[k]? = some v → key v = k

namespace KeyedMap

variable {α β : Type} [Ord α] [TransOrd α] {key : β → α}

def empty : KeyedMap α β key := ⟨∅, by simp⟩

instance : EmptyCollection (KeyedMap α β key) := ⟨empty⟩
instance : Inhabited (KeyedMap α β key) := ⟨∅⟩

def get? (m : KeyedMap α β key) (k : α) : Option β := m.map[k]?

def values (m : KeyedMap α β key) : List β := m.map.toList.map Prod.snd

instance : Membership β (KeyedMap α β key) := ⟨fun m v => m.get? (key v) = some v⟩

theorem mem_def {m : KeyedMap α β key} {v : β} : v ∈ m ↔ m.get? (key v) = some v := Iff.rfl

theorem key_of_get? {m : KeyedMap α β key} (h : m.get? k = some v) : key v = k := m.keyed h

theorem mem_of_get? {m : KeyedMap α β key} (h : m.get? k = some v) : v ∈ m := by
  rw [mem_def, key_of_get? h, h]

theorem eq_of_mem {m : KeyedMap α β key} {v w : β} (hv : v ∈ m) (hw : w ∈ m)
    (h : key v = key w) : v = w := by
  rw [mem_def] at hv hw
  rw [h, hw] at hv
  exact (Option.some.inj hv).symm

@[simp] theorem get?_empty (k : α) : (∅ : KeyedMap α β key).get? k = none :=
  ExtTreeMap.getElem?_empty

@[simp] theorem not_mem_empty (v : β) : v ∉ (∅ : KeyedMap α β key) := by simp [mem_def]

variable [LawfulEqOrd α]

theorem mem_values {m : KeyedMap α β key} {v : β} : v ∈ m.values ↔ v ∈ m := by
  simp only [values, List.mem_map, Prod.exists, exists_eq_right,
    ExtTreeMap.mem_toList_iff_getElem?_eq_some]
  constructor
  · rintro ⟨k, h⟩
    exact mem_of_get? h
  · intro h
    exact ⟨key v, h⟩

theorem values_sorted (m : KeyedMap α β key) :
    m.values.Pairwise fun a b => compare (key a) (key b) = .lt := by
  rw [values, List.pairwise_map]
  refine ExtTreeMap.ordered_keys_toList.imp_of_mem ?_
  rintro ⟨a, v⟩ ⟨b, w⟩ ha hb h
  rw [ExtTreeMap.mem_toList_iff_getElem?_eq_some] at ha hb
  rwa [m.keyed ha, m.keyed hb]

/-- Sorted by key, a selection of the values is known from its members. -/
theorem filter_values_congr {m m' : KeyedMap α β key} {p : β → Bool}
    (h : ∀ v, p v = true → (v ∈ m ↔ v ∈ m')) : m.values.filter p = m'.values.filter p := by
  have : Std.Irrefl fun a b : β => compare (key a) (key b) = .lt := ⟨fun a h => by simp at h⟩
  have : Std.Antisymm fun a b : β => compare (key a) (key b) = .lt :=
    ⟨fun a b hab hba => by rw [OrientedCmp.gt_of_lt hab] at hba; cases hba⟩
  refine List.Pairwise.eq_of_mem_iff (m.values_sorted.filter p) (m'.values_sorted.filter p) ?_
  intro v
  simp only [List.mem_filter, mem_values]
  constructor
  · rintro ⟨hv, hp⟩
    exact ⟨(h v hp).mp hv, hp⟩
  · rintro ⟨hv, hp⟩
    exact ⟨(h v hp).mpr hv, hp⟩

def retain (m : KeyedMap α β key) (p : β → Bool) : KeyedMap α β key where
  map := m.map.filter fun _ v => p v
  keyed := by
    intro k w h
    rw [ExtTreeMap.getElem?_filter', Option.filter_eq_some_iff] at h
    exact m.keyed h.1

theorem mem_retain {m : KeyedMap α β key} {p : β → Bool} {w : β} :
    w ∈ m.retain p ↔ w ∈ m ∧ p w = true := by
  simp only [mem_def, get?, retain, ExtTreeMap.getElem?_filter', Option.filter_eq_some_iff]

variable [DecidableEq α]

def insert (m : KeyedMap α β key) (v : β) : KeyedMap α β key where
  map := m.map.insert (key v) v
  keyed := by
    intro k w h
    rw [Map.get?_insert] at h
    split at h
    · next hk => simpa [← Option.some.inj h] using hk
    · exact m.keyed h

def erase (m : KeyedMap α β key) (k : α) : KeyedMap α β key where
  map := m.map.erase k
  keyed := by
    intro k' w h
    rw [Map.get?_erase] at h
    split at h
    · contradiction
    · exact m.keyed h

theorem get?_insert (m : KeyedMap α β key) (v : β) (k : α) :
    (m.insert v).get? k = if key v = k then some v else m.get? k := Map.get?_insert ..

theorem get?_erase (m : KeyedMap α β key) (k k' : α) :
    (m.erase k).get? k' = if k = k' then none else m.get? k' := Map.get?_erase ..

theorem mem_insert {m : KeyedMap α β key} {v w : β} :
    w ∈ m.insert v ↔ w = v ∨ (w ∈ m ∧ key w ≠ key v) := by
  rw [mem_def, get?_insert, mem_def]
  by_cases h : key v = key w
  · simp only [h, if_true, Option.some.injEq, ne_eq, not_true, and_false, or_false]
    exact eq_comm
  · simp only [h, if_false]
    constructor
    · intro hw
      exact Or.inr ⟨hw, fun e => h e.symm⟩
    · rintro (rfl | hw)
      · exact absurd rfl h
      · exact hw.1

theorem mem_erase {m : KeyedMap α β key} {k : α} {w : β} :
    w ∈ m.erase k ↔ w ∈ m ∧ key w ≠ k := by
  rw [mem_def, get?_erase, mem_def]
  by_cases h : k = key w
  · simp [h]
  · simp only [h, if_false, ne_eq]
    exact ⟨fun hw => ⟨hw, fun e => h e.symm⟩, And.left⟩

def insertAll (m : KeyedMap α β key) (vs : List β) : KeyedMap α β key := vs.foldl insert m

def eraseAll (m : KeyedMap α β key) (ks : List α) : KeyedMap α β key := ks.foldl erase m

@[simp] theorem insertAll_nil (m : KeyedMap α β key) : m.insertAll [] = m := rfl

@[simp] theorem insertAll_cons (m : KeyedMap α β key) (v : β) (vs : List β) :
    m.insertAll (v :: vs) = (m.insert v).insertAll vs := rfl

theorem insertAll_append (m : KeyedMap α β key) (vs ws : List β) :
    m.insertAll (vs ++ ws) = (m.insertAll vs).insertAll ws := List.foldl_append ..

theorem isSome_get?_insertAll {m : KeyedMap α β key} {vs : List β} {k : α}
    (h : (m.get? k).isSome) : ((m.insertAll vs).get? k).isSome := by
  induction vs generalizing m with
  | nil => exact h
  | cons v vs ih =>
    refine ih ?_
    rw [get?_insert]
    split
    · rfl
    · exact h

theorem isSome_get?_insertAll_of_mem {m : KeyedMap α β key} {vs : List β} {v : β} (hv : v ∈ vs) :
    ((m.insertAll vs).get? (key v)).isSome := by
  induction vs generalizing m with
  | nil => cases hv
  | cons u vs ih =>
    rcases List.mem_cons.mp hv with rfl | hv
    · rw [insertAll_cons]
      apply isSome_get?_insertAll
      rw [get?_insert, if_pos rfl]
      rfl
    · exact ih hv

theorem mem_eraseAll {m : KeyedMap α β key} {ks : List α} {w : β} :
    w ∈ m.eraseAll ks ↔ w ∈ m ∧ key w ∉ ks := by
  induction ks generalizing m with
  | nil => simp [eraseAll]
  | cons k ks ih =>
    rw [show m.eraseAll (k :: ks) = (m.erase k).eraseAll ks from rfl, ih, mem_erase]
    simp only [List.mem_cons, not_or, ne_eq]
    tauto

theorem mem_of_mem_insertAll {m : KeyedMap α β key} {vs : List β} {w : β}
    (h : w ∈ m.insertAll vs) : w ∈ m ∨ w ∈ vs := by
  induction vs generalizing m with
  | nil => exact Or.inl h
  | cons v vs ih =>
    rcases ih h with h | h
    · rcases mem_insert.mp h with rfl | h
      · exact Or.inr List.mem_cons_self
      · exact Or.inl h.1
    · exact Or.inr (List.mem_cons_of_mem _ h)

theorem mem_insertAll_of_new {m : KeyedMap α β key} {vs : List β} {w : β} (h : w ∈ m)
    (hnew : ∀ v ∈ vs, key v ≠ key w) : w ∈ m.insertAll vs := by
  induction vs generalizing m with
  | nil => exact h
  | cons v vs ih =>
    refine ih (mem_insert.mpr (Or.inr ⟨h, Ne.symm (hnew v (.head _))⟩)) fun u hu => ?_
    exact hnew u (.tail _ hu)

/-- Inserting values that agree with everything already stored under their keys
loses nothing. -/
theorem mem_insertAll {m : KeyedMap α β key} {vs : List β} {w : β}
    (hm : ∀ v ∈ vs, ∀ u ∈ m, key u = key v → u = v)
    (hv : ∀ v ∈ vs, ∀ u ∈ vs, key u = key v → u = v) :
    w ∈ m.insertAll vs ↔ w ∈ m ∨ w ∈ vs := by
  refine ⟨mem_of_mem_insertAll, ?_⟩
  induction vs generalizing m with
  | nil => simp
  | cons v vs ih =>
    rw [insertAll_cons]
    intro h
    refine ih ?_ (fun a ha b hb => hv a (.tail _ ha) b (.tail _ hb)) ?_
    · intro a ha u hu e
      rcases mem_insert.mp hu with rfl | hu
      · exact hv a (.tail _ ha) u (.head _) e
      · exact hm a (.tail _ ha) u hu.1 e
    · rcases h with h | h
      · refine Or.inl (mem_insert.mpr ?_)
        by_cases e : key w = key v
        · exact Or.inl (hm v (.head _) w h e)
        · exact Or.inr ⟨h, e⟩
      · rcases List.mem_cons.mp h with rfl | h
        · exact Or.inl (mem_insert.mpr (Or.inl rfl))
        · exact Or.inr h

end KeyedMap

end Rollforward.Lib
