import Mathlib.Data.Set.Basic
import Mathlib.Logic.Relation
import Mathlib.Tactic.Common

/-! Histories: sets of versions, and which version was made over which.  A cut
keeps the heads of a history while it may drop anything else. -/

namespace Rollforward.Lib

variable {α : Type} {r : α → α → Prop} {M N X B : Set α} {x : α}

/-- `r x y`: `y` was made over `x`. -/
def IsHead (r : α → α → Prop) (X : Set α) (x : α) : Prop := x ∈ X ∧ ∀ y ∈ X, ¬ r x y

/-- Where ranks `k` grow along `r` and stay bounded, everything lies under a head. -/
theorem exists_isHead_over {k : α → Nat} {n : Nat}
    (hk : ∀ x ∈ X, ∀ y ∈ X, r x y → k x < k y) (hn : ∀ x ∈ X, k x < n) (hx : x ∈ X) :
    ∃ y, IsHead r X y ∧ k x ≤ k y ∧ Relation.ReflTransGen (fun a b => b ∈ X ∧ r a b) x y := by
  induction hm : n - k x using Nat.strong_induction_on generalizing x with
  | h m ih =>
    by_cases hhead : ∀ y ∈ X, ¬ r x y
    · exact ⟨x, ⟨hx, hhead⟩, le_rfl, .refl⟩
    · obtain ⟨y, hy, hxy⟩ : ∃ y ∈ X, r x y := by simpa using hhead
      have hlt := hk x hx y hy hxy
      have hy' := hn y hy
      obtain ⟨z, hz, hle, hr⟩ := ih (n - k y) (by omega) hy rfl
      exact ⟨z, hz, hlt.le.trans hle, .head ⟨hy, hxy⟩ hr⟩

structure Cut (r : α → α → Prop) (M X : Set α) : Prop where
  sub : M ⊆ X
  child : ∀ x ∈ M, ∀ y ∈ X, r x y → ∃ z ∈ M, r x z
  head : ∀ x, IsHead r X x → x ∈ M

namespace Cut

theorem isHead_iff (h : Cut r M X) : IsHead r M x ↔ IsHead r X x := by
  constructor
  · rintro ⟨hx, hno⟩
    refine ⟨h.sub hx, fun y hy hxy => ?_⟩
    obtain ⟨z, hz, hxz⟩ := h.child x hx y hy hxy
    exact hno z hz hxz
  · intro hx
    exact ⟨h.head x hx, fun y hy => hx.2 y (h.sub hy)⟩

theorem trans (hMN : Cut r M N) (hNX : Cut r N X) : Cut r M X where
  sub := hMN.sub.trans hNX.sub
  child := by
    intro x hx y hy hxy
    obtain ⟨z, hz, hxz⟩ := hNX.child x (hMN.sub hx) y hy hxy
    exact hMN.child x hx z hz hxz
  head x hx := hMN.head x (hNX.isHead_iff.mpr hx)

/-- New versions are heads of what was there, or lie over it. -/
theorem union (h : Cut r M X) (hnew : ∀ x ∈ B, ∀ y ∈ X, ¬ r x y) :
    Cut r (M ∪ B) (X ∪ B) where
  sub := Set.union_subset_union_left B h.sub
  child := by
    rintro x hx y (hy | hy) hxy
    · rcases hx with hx | hx
      · obtain ⟨z, hz, hxz⟩ := h.child x hx y hy hxy
        exact ⟨z, Or.inl hz, hxz⟩
      · exact absurd hxy (hnew x hx y hy)
    · exact ⟨y, Or.inr hy, hxy⟩
  head := by
    rintro x ⟨hx | hx, hno⟩
    · exact Or.inl (h.head x ⟨hx, fun y hy => hno y (Or.inl hy)⟩)
    · exact Or.inr hx

end Cut

end Rollforward.Lib
