import Rollforward.Heads
import Rollforward.Lib.Loop
import Rollforward.Lib.Search
import Mathlib.Algebra.Order.BigOperators.Group.List

/-! The ancestry walks of `RuntimeState` search the graph of parents. -/

namespace Rollforward

open Std Lib

namespace RuntimeState

variable [Crates] {s t : RuntimeState} {key : ResourceKey}

def parentsOf (s : RuntimeState) (id : String) : List String :=
  ((s.commits.get? id).map Commit.parents).getD []

/-- The parents of a commit of the resource, none for any other id. -/
def parentsIn (s : RuntimeState) (key : ResourceKey) (id : String) : List String :=
  (((s.commits.get? id).filter fun commit => commit.resource = key).map Commit.parents).getD []

theorem reachableWalk_eq (n : Nat) (pending reachable : List String) :
    s.reachableWalk key n pending reachable = search (s.parentsIn key) n pending reachable := by
  induction n, pending, reachable using search.induct (s.parentsIn key) with
  | case1 => rfl
  | case2 => rfl
  | case3 n id pending reachable hseen ih => rw [reachableWalk, if_pos hseen, search, if_pos hseen, ih]
  | case4 n id pending reachable hseen ih =>
    rw [reachableWalk, if_neg hseen, search, if_neg hseen]
    exact ih

/-- The walk stops at the ancestor, and the search would have gone on from there. -/
theorem descendantWalk_eq {ancestor : String} (n : Nat) {pending visited : List String}
    (hnew : ancestor ∉ visited) :
    s.descendantWalk ancestor n pending visited =
      decide (ancestor ∈ search s.parentsOf n pending visited) := by
  have hkeeps : ∀ n pending visited, ∀ id ∈ visited, id ∈ search s.parentsOf n pending visited := by
    intro n pending visited
    induction n, pending, visited using search.induct s.parentsOf with
    | case1 | case2 => exact fun _ hid => hid
    | case3 n id pending visited hseen ih => rwa [search, if_pos hseen]
    | case4 n id pending visited hseen ih =>
      rw [search, if_neg hseen]
      exact fun x hx => ih x (List.mem_cons_of_mem _ hx)
  induction n, pending, visited using search.induct s.parentsOf with
  | case1 => simp [descendantWalk, search, hnew]
  | case2 => simp [descendantWalk, search, hnew]
  | case3 n id pending visited hseen ih =>
    rw [descendantWalk, if_neg (fun e => hnew (by rw [← e]; exact hseen)), if_pos hseen, search,
      if_pos hseen, ih hnew]
  | case4 n id pending visited hseen ih =>
    rw [descendantWalk, search, if_neg hseen]
    split
    · next e =>
      rw [eq_comm, decide_eq_true_iff, ← e]
      exact hkeeps _ _ _ _ List.mem_cons_self
    · next e => exact ih (by simp [hnew, Ne.symm e])

theorem values_nodup (s : RuntimeState) : (s.commits.values.map Commit.id).Nodup := by
  refine List.pairwise_map.mpr (s.commits.values_sorted.imp fun hlt e => ?_)
  rw [e, compare_self] at hlt
  cases hlt

/-- The fuel of the walks is enough for any successors that are parents. -/
theorem walkFuel_adequate {next : String → List String}
    (hnext : ∀ x ∈ s.commits, (next x.id).length ≤ x.parents.length) :
    [head].length + pendingEdges next (s.commits.values.map Commit.id) [] < s.walkFuel := by
  rw [pendingEdges, List.filter_eq_self.mpr (by simp), List.map_map, walkFuel]
  have hsum : (s.commits.values.map ((fun id => (next id).length) ∘ Commit.id)).sum ≤
      (s.commits.values.map fun commit => commit.parents.length).sum := by
    apply List.sum_le_sum
    intro x hx
    exact hnext x (KeyedMap.mem_values.mp hx)
  rw [List.length_singleton]
  omega

theorem mem_ids_of_parentsOf {id : String} (h : s.parentsOf id ≠ []) :
    id ∈ s.commits.values.map Commit.id := by
  cases hg : s.commits.get? id with
  | none => simp [parentsOf, hg] at h
  | some x =>
    refine List.mem_map.mpr ⟨x, ?_, KeyedMap.key_of_get? hg⟩
    exact KeyedMap.mem_values.mpr (KeyedMap.mem_of_get? hg)

theorem mem_ids_of_parentsIn {id : String} (h : s.parentsIn key id ≠ []) :
    id ∈ s.commits.values.map Commit.id := by
  refine mem_ids_of_parentsOf fun hnone => h ?_
  cases hg : s.commits.get? id with
  | none => simp [parentsIn, hg]
  | some x =>
    simp only [parentsOf, hg, Option.map_some, Option.getD_some] at hnone
    rw [parentsIn, hg, Option.filter_some]
    split <;> simp [hnone]

theorem length_parentsOf (x : Commit) (hx : x ∈ s.commits) :
    (s.parentsOf x.id).length ≤ x.parents.length := by
  rw [parentsOf, KeyedMap.mem_def.mp hx]
  simp

theorem length_parentsIn (x : Commit) (hx : x ∈ s.commits) :
    (s.parentsIn key x.id).length ≤ x.parents.length := by
  rw [parentsIn, KeyedMap.mem_def.mp hx, Option.filter_some]
  split <;> simp

theorem mem_reachable {head id : String} :
    id ∈ s.reachable key head ↔ Reaches (s.parentsIn key) head id := by
  rw [reachable, reachableWalk_eq, mem_search s.values_nodup]
  · simp
  · exact fun _ => mem_ids_of_parentsIn
  · exact walkFuel_adequate length_parentsIn

/-- Ancestry search is exact. -/
theorem isDescendant_iff {candidate ancestor : String} :
    s.isDescendant candidate ancestor = true ↔ Reaches s.parentsOf candidate ancestor := by
  rw [isDescendant, descendantWalk_eq _ (by simp), decide_eq_true_iff,
    mem_search s.values_nodup]
  · simp
  · exact fun _ => mem_ids_of_parentsOf
  · exact walkFuel_adequate length_parentsOf

/-- A turn of the loop in `is_descendant`: what is pending and what was visited, or the
answer. -/
def descendantTurn (s : RuntimeState) (ancestor : String) :
    List String × List String → (List String × List String) ⊕ Bool
  | ([], _) => .inr false
  | (id :: pending, visited) =>
    if id = ancestor then .inr true
    else if id ∈ visited then .inl (pending, visited)
    else .inl ((s.parentsOf id).reverse ++ pending, id :: visited)

/-- A turn of the loop in `text_doc_at`. -/
def reachableTurn (s : RuntimeState) (key : ResourceKey) :
    List String × List String → (List String × List String) ⊕ List String
  | ([], reachable) => .inr reachable
  | (id :: pending, reachable) =>
    if id ∈ reachable then .inl (pending, reachable)
    else .inl ((s.parentsIn key id).reverse ++ pending, id :: reachable)

theorem descendantWalk_of_loop {ancestor : String} {n : Nat} {pending visited : List String}
    {found : Bool} (h : loop (s.descendantTurn ancestor) n (pending, visited) = some found) :
    s.descendantWalk ancestor n pending visited = found := by
  induction n generalizing pending visited with
  | zero => cases h
  | succ n ih =>
    rw [loop] at h
    cases pending with
    | nil => exact Option.some.inj h
    | cons id pending =>
      rw [descendantTurn] at h
      rw [descendantWalk]
      split
      · next e =>
        rw [if_pos e] at h
        exact Option.some.inj h
      · next e =>
        rw [if_neg e] at h
        split
        · next hseen =>
          rw [if_pos hseen] at h
          exact ih h
        · next hseen =>
          rw [if_neg hseen] at h
          exact ih h

theorem reachableWalk_of_loop {n : Nat} {pending reachable found : List String}
    (h : loop (s.reachableTurn key) n (pending, reachable) = some found) :
    s.reachableWalk key n pending reachable = found := by
  induction n generalizing pending reachable with
  | zero => cases h
  | succ n ih =>
    rw [loop] at h
    cases pending with
    | nil => exact Option.some.inj h
    | cons id pending =>
      rw [reachableTurn] at h
      rw [reachableWalk]
      split
      · next hseen =>
        rw [if_pos hseen] at h
        exact ih h
      · next hseen =>
        rw [if_neg hseen] at h
        exact ih h

/-- The edges that are still to be followed, and the entries of the worklist. -/
def walkWeight (s : RuntimeState) (next : String → List String)
    (walk : List String × List String) : Nat :=
  walk.1.length + pendingEdges next (s.commits.values.map Commit.id) walk.2

/-- The walk of `is_descendant` returns within `walkFuel` turns. -/
theorem exists_loop_descendantTurn (s : RuntimeState) (candidate ancestor : String) :
    ∃ found, loop (s.descendantTurn ancestor) s.walkFuel ([candidate], []) = some found := by
  refine exists_loop (s.walkWeight s.parentsOf) ?_ (walkFuel_adequate length_parentsOf)
  rintro ⟨pending, visited⟩ walk h
  cases pending with
  | nil => cases h
  | cons id pending =>
    rw [descendantTurn] at h
    split at h
    · cases h
    · split at h
      · obtain rfl := Sum.inl.inj h
        simp [walkWeight]
      · next hnew =>
        obtain rfl := Sum.inl.inj h
        exact pendingEdges_turn pending s.values_nodup mem_ids_of_parentsOf hnew

/-- The walk of `text_doc_at` returns within `walkFuel` turns. -/
theorem exists_loop_reachableTurn (s : RuntimeState) (key : ResourceKey) (head : String) :
    ∃ found, loop (s.reachableTurn key) s.walkFuel ([head], []) = some found := by
  refine exists_loop (s.walkWeight (s.parentsIn key)) ?_ (walkFuel_adequate length_parentsIn)
  rintro ⟨pending, reachable⟩ walk h
  cases pending with
  | nil => cases h
  | cons id pending =>
    rw [reachableTurn] at h
    split at h
    · obtain rfl := Sum.inl.inj h
      simp [walkWeight]
    · next hnew =>
      obtain rfl := Sum.inl.inj h
      exact pendingEdges_turn pending s.values_nodup mem_ids_of_parentsIn hnew

/-- In every state both walks return, and they find what is an ancestor and nothing else. -/
theorem ancestry_exact (s : RuntimeState) :
    (∀ candidate ancestor,
      (∀ n, s.walkFuel ≤ n → loop (s.descendantTurn ancestor) n ([candidate], []) =
        some (s.isDescendant candidate ancestor)) ∧
      (s.isDescendant candidate ancestor = true ↔ Reaches s.parentsOf candidate ancestor)) ∧
    ∀ key head,
      (∀ n, s.walkFuel ≤ n →
        loop (s.reachableTurn key) n ([head], []) = some (s.reachable key head)) ∧
      ∀ id, id ∈ s.reachable key head ↔ Reaches (s.parentsIn key) head id := by
  refine ⟨fun candidate ancestor => ⟨fun n hn => ?_, isDescendant_iff⟩,
    fun key head => ⟨fun n hn => ?_, fun id => mem_reachable⟩⟩
  · obtain ⟨found, hfound⟩ := s.exists_loop_descendantTurn candidate ancestor
    rw [loop_mono hfound hn, isDescendant, descendantWalk_of_loop hfound]
  · obtain ⟨found, hfound⟩ := s.exists_loop_reachableTurn key head
    rw [loop_mono hfound hn, reachable, reachableWalk_of_loop hfound]

theorem reachable_nodup (s : RuntimeState) (key : ResourceKey) (head : String) :
    (s.reachable key head).Nodup := by
  rw [reachable, reachableWalk_eq]
  exact search_nodup List.nodup_nil

end RuntimeState

section Sorted

theorem eq_of_mem_iff_of_sorted {xs ys : List String}
    (hxs : xs.Pairwise fun a b => compare a b = .lt)
    (hys : ys.Pairwise fun a b => compare a b = .lt) (h : ∀ id, id ∈ xs ↔ id ∈ ys) : xs = ys := by
  have : Std.Irrefl fun a b : String => compare a b = .lt := ⟨fun a h => by simp at h⟩
  have : Std.Antisymm fun a b : String => compare a b = .lt :=
    ⟨fun a b hab hba => by rw [OrientedCmp.gt_of_lt hab] at hba; cases hba⟩
  exact List.Pairwise.eq_of_mem_iff hxs hys h

theorem pairwise_insertionSort_lt {ids : List String} (h : ids.Nodup) :
    (ids.insertionSort (· ≤ ·)).Pairwise fun a b => compare a b = .lt := by
  have hnodup : (ids.insertionSort (· ≤ ·)).Nodup := (List.perm_insertionSort _ ids).nodup_iff.mpr h
  refine ((List.pairwise_insertionSort (· ≤ ·) ids).and hnodup).imp fun hab => ?_
  exact compare_lt_iff_lt.mpr (hab.1.lt_of_ne hab.2)

end Sorted

end Rollforward
