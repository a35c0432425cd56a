import Mathlib.Tactic.Common

/-! A loop as it is written: a body that goes on or returns.  A weight that every turn
lowers bounds the turns. -/

namespace Rollforward.Lib

variable {σ α : Type} {body : σ → σ ⊕ α} {m n : Nat} {s : σ} {a : α}

/-- At most `n` turns of a loop, `none` if it goes on after them. -/
def loop (body : σ → σ ⊕ α) : Nat → σ → Option α
  | 0, _ => none
  | n + 1, s =>
    match body s with
    | .inl s => loop body n s
    | .inr a => some a

theorem loop_mono (h : loop body m s = some a) (hle : m ≤ n) : loop body n s = some a := by
  induction m generalizing n s with
  | zero => cases h
  | succ m ih =>
    obtain ⟨n, rfl⟩ : ∃ k, n = k + 1 := ⟨n - 1, by omega⟩
    rw [loop] at h ⊢
    cases hbody : body s with
    | inl t =>
      rw [hbody] at h
      exact ih h (by omega)
    | inr b =>
      rw [hbody] at h
      exact h

theorem exists_loop (weight : σ → Nat) (hbody : ∀ s t, body s = .inl t → weight t < weight s)
    (hn : weight s < n) : ∃ a, loop body n s = some a := by
  induction n generalizing s with
  | zero => omega
  | succ n ih =>
    rw [loop]
    cases h : body s with
    | inl t =>
      have := hbody s t h
      exact ih (by omega)
    | inr a => exact ⟨a, rfl⟩

end Rollforward.Lib
