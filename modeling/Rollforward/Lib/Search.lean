import Mathlib.Algebra.BigOperators.Group.List.Basic
import Mathlib.Algebra.GroupWithZero.Nat
import Mathlib.Data.List.Nodup
import Mathlib.Logic.Relation

/-! Searching a finite graph from a worklist.  The fuel bounds the turns: each takes one
entry off the list, and every node puts its successors there once. -/

namespace Rollforward.Lib

variable {α : Type} [DecidableEq α] {next : α → List α} {nodes todo seen : List α} {n : Nat} {a : α}

def search (next : α → List α) : Nat → List α → List α → List α
  | 0, _, seen | _ + 1, [], seen => seen
  | n + 1, a :: todo, seen =>
    if a ∈ seen then search next n todo seen
    else search next n ((next a).reverse ++ todo) (a :: seen)

/-- What the nodes that were not seen yet can still put on the worklist. -/
def pendingEdges (next : α → List α) (nodes seen : List α) : Nat :=
  ((nodes.filter (· ∉ seen)).map fun a => (next a).length).sum

/-- One step along an edge. -/
def Edge (next : α → List α) (a b : α) : Prop := b ∈ next a

abbrev Reaches (next : α → List α) : α → α → Prop := Relation.ReflTransGen (Edge next)

theorem pendingEdges_cons (hnodes : nodes.Nodup) (hedges : next a ≠ [] → a ∈ nodes)
    (ha : a ∉ seen) :
    pendingEdges next nodes (a :: seen) + (next a).length = pendingEdges next nodes seen := by
  have hfilter : nodes.filter (· ∉ a :: seen) = (nodes.filter (· ∉ seen)).filter (· ≠ a) := by
    rw [List.filter_filter]
    apply List.filter_congr
    intro b _
    simp [not_or]
  rw [pendingEdges, hfilter, pendingEdges]
  by_cases hmem : a ∈ nodes.filter (· ∉ seen)
  · have hnodup : (nodes.filter (· ∉ seen)).Nodup := hnodes.filter _
    have hperm := List.perm_cons_erase hmem
    rw [(hperm.map _).sum_eq, List.map_cons, List.sum_cons, hnodup.erase_eq_filter, Nat.add_comm]
    congr 4
    funext b
    by_cases e : b = a <;> simp [e]
  · have hnil : next a = [] := by
      by_contra hne
      exact hmem (List.mem_filter.mpr ⟨hedges hne, by simpa using ha⟩)
    rw [hnil, List.length_nil, Nat.add_zero, List.filter_eq_self.mpr]
    intro b hb
    simpa using fun e : b = a => hmem (e ▸ hb)

/-- A turn that puts successors on the worklist takes more off the weight than it adds. -/
theorem pendingEdges_turn (todo : List α) (hnodes : nodes.Nodup) (hedges : next a ≠ [] → a ∈ nodes)
    (ha : a ∉ seen) : ((next a).reverse ++ todo).length + pendingEdges next nodes (a :: seen) <
      (a :: todo).length + pendingEdges next nodes seen := by
  have hweight := pendingEdges_cons hnodes hedges ha
  rw [List.length_append, List.length_reverse, List.length_cons]
  omega

theorem search_nodup (h : seen.Nodup) : (search next n todo seen).Nodup := by
  induction n, todo, seen using search.induct next with
  | case1 => exact h
  | case2 => exact h
  | case3 n a todo seen hseen ih =>
    rw [search, if_pos hseen]
    exact ih h
  | case4 n a todo seen hseen ih =>
    rw [search, if_neg hseen]
    exact ih (List.nodup_cons.mpr ⟨hseen, h⟩)

theorem search_sound {b : α} (h : b ∈ search next n todo seen) :
    b ∈ seen ∨ ∃ a ∈ todo, Reaches next a b := by
  induction n, todo, seen using search.induct next with
  | case1 => exact Or.inl h
  | case2 => exact Or.inl h
  | case3 n a todo seen hseen ih =>
    rw [search, if_pos hseen] at h
    exact (ih h).imp_right fun ⟨c, hc, hr⟩ => ⟨c, List.mem_cons_of_mem _ hc, hr⟩
  | case4 n a todo seen hseen ih =>
    rw [search, if_neg hseen] at h
    rcases ih h with hb | ⟨c, hc, hr⟩
    · rcases List.mem_cons.mp hb with rfl | hb
      · exact Or.inr ⟨b, List.mem_cons_self, .refl⟩
      · exact Or.inl hb
    · rcases List.mem_append.mp hc with hc | hc
      · exact Or.inr ⟨a, List.mem_cons_self, .head (List.mem_reverse.mp hc) hr⟩
      · exact Or.inr ⟨c, List.mem_cons_of_mem _ hc, hr⟩

/-- With enough fuel the result holds the worklist and is closed under `next`. -/
theorem search_closed (hnodes : nodes.Nodup) (hedges : ∀ a, next a ≠ [] → a ∈ nodes)
    (hfuel : todo.length + pendingEdges next nodes seen < n)
    (hseen : ∀ a ∈ seen, ∀ b ∈ next a, b ∈ seen ∨ b ∈ todo) :
    (∀ a ∈ seen, a ∈ search next n todo seen) ∧ (∀ a ∈ todo, a ∈ search next n todo seen) ∧
      ∀ a ∈ search next n todo seen, ∀ b ∈ next a, b ∈ search next n todo seen := by
  induction n, todo, seen using search.induct next with
  | case1 => omega
  | case2 seen n =>
    refine ⟨fun _ ha => ha, by simp, fun a ha b hb => ?_⟩
    exact (hseen a ha b hb).resolve_right (by simp)
  | case3 n a todo seen ha ih =>
    rw [search, if_pos ha]
    obtain ⟨hs, ht, hc⟩ := ih (by rw [List.length_cons] at hfuel; omega) fun c hc b hb => by
      rcases hseen c hc b hb with hb | hb
      · exact Or.inl hb
      · rcases List.mem_cons.mp hb with rfl | hb
        · exact Or.inl ha
        · exact Or.inr hb
    refine ⟨hs, fun c hc => ?_, hc⟩
    rcases List.mem_cons.mp hc with rfl | hc
    · exact hs c ha
    · exact ht c hc
  | case4 n a todo seen ha ih =>
    rw [search, if_neg ha]
    have hweight := pendingEdges_turn todo hnodes (hedges a) ha
    obtain ⟨hs, ht, hc⟩ := ih (by omega) fun c hc b hb => by
        rcases List.mem_cons.mp hc with rfl | hc
        · exact Or.inr (List.mem_append_left _ (List.mem_reverse.mpr hb))
        · rcases hseen c hc b hb with hb | hb
          · exact Or.inl (List.mem_cons_of_mem _ hb)
          · rcases List.mem_cons.mp hb with rfl | hb
            · exact Or.inl List.mem_cons_self
            · exact Or.inr (List.mem_append_right _ hb)
    refine ⟨fun c hc => hs c (List.mem_cons_of_mem _ hc), fun c hc => ?_, hc⟩
    rcases List.mem_cons.mp hc with rfl | hc
    · exact hs c List.mem_cons_self
    · exact ht c (List.mem_append_right _ hc)

/-- A search with enough fuel finds exactly what the worklist reaches. -/
theorem mem_search (hnodes : nodes.Nodup) (hedges : ∀ a, next a ≠ [] → a ∈ nodes)
    (hfuel : todo.length + pendingEdges next nodes [] < n) {b : α} :
    b ∈ search next n todo [] ↔ ∃ a ∈ todo, Reaches next a b := by
  obtain ⟨-, htodo, hclosed⟩ := search_closed hnodes hedges hfuel (by simp)
  constructor
  · exact fun hb => (search_sound hb).resolve_left (by simp)
  · rintro ⟨a, ha, hr⟩
    induction hr with
    | refl => exact htodo a ha
    | tail _ hstep ih => exact hclosed _ ih _ hstep

end Rollforward.Lib
