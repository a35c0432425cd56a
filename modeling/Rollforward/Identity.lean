import Rollforward.Graph

/-! Commit ids are made from everything a commit says, so that they tell published commits
apart in every run, whatever was lost in a crash. -/

namespace Rollforward

open Std Lib

variable [Crates]

/-- What is relied on about digests: they are hex, different for different bytes, and the
bytes of a commit spell out all of it. -/
structure Collisionless : Prop where
  hex : ∀ data, ':' ∉ (blake3 data).toList
  digest : Function.Injective (blake3 : Bytes → String)
  bytes : ∀ {key key' parents parents' author author' counter counter' timestamp timestamp'}
    {change change' : ResourceChange},
    Crates.commitBytes key parents author counter timestamp change =
      Crates.commitBytes key' parents' author' counter' timestamp' change' →
    key = key' ∧ parents = parents' ∧ author = author' ∧ counter = counter' ∧
      timestamp = timestamp' ∧ change = change'

/-- The commit was made by `Commit::create`. -/
def Commit.Created (x : Commit) : Prop :=
  ∃ key parents author counter timestamp change,
    x = Commit.create key parents author counter timestamp change

theorem Commit.Created.ext (hcol : Collisionless) {x y : Commit} (hx : x.Created) (hy : y.Created)
    (h : x.id = y.id) : x = y := by
  obtain ⟨key, parents, author, counter, timestamp, change, rfl⟩ := hx
  obtain ⟨key', parents', author', counter', timestamp', change', rfl⟩ := hy
  replace h := congrArg String.toList h
  simp only [Commit.create, String.toList_append, List.append_assoc] at h
  have hsplit := append_colon_inj (a := author.toList ++ ':' :: (toString counter).toList)
    (c := author'.toList ++ ':' :: (toString counter').toList) (hcol.hex _) (hcol.hex _)
    (by simpa using h)
  obtain ⟨rfl, hparents, rfl, rfl, rfl, rfl⟩ :=
    hcol.bytes (hcol.digest (String.toList_injective hsplit.2))
  rw [Commit.create, Commit.create, hparents]

variable {S : Setting} {w : World} {ok : World → Label → Prop}

theorem World.Inv.created {w' : World} {l : Label} (hinv : w.Inv) (hs : w.step S l = some w')
    (h : ∀ x ∈ w.published, x.Created) : ∀ x ∈ w'.published, x.Created := by
  rcases World.step_published hs with e | ⟨c, s, batch, k, -, hcall, e⟩
  · rw [e]
    exact h
  · rw [e]
    intro x hx
    rcases List.mem_append.mp hx with hx | hx
    · exact h x hx
    · have hmeets := (hinv.clients c).meets
      rw [hcall] at hmeets
      have hask : BatchAsk c _ _ _ batch.commits := hmeets.1.2
      obtain ⟨key, parents, counter, timestamp, change, hx⟩ := hask.created x hx
      exact ⟨key, parents, c, counter, timestamp, change, hx⟩

theorem World.Reachable.created (h : w.Reachable S ok) : ∀ x ∈ w.published, x.Created := by
  induction h with
  | refl => simp
  | tail hv hstep ih =>
    obtain ⟨l, -, hs⟩ := hstep
    exact (World.Reachable.inv hv).created hs ih

theorem World.Reachable.ids (hcol : Collisionless) (h : w.Reachable S ok) :
    ∀ x ∈ w.published, ∀ y ∈ w.published, y.id = x.id → y = x :=
  fun x hx y hy e => (h.created y hy).ext hcol (h.created x hx) e

/-- Parents are earlier commits also where a crash lost publications: a commit that is
published again is the one it was. -/
theorem World.Reachable.grounded_again (hcol : Collisionless) (h : w.Reachable S ok) :
    Grounded w.published := by
  induction h with
  | refl => intro x hx; cases hx
  | @tail w w' hv hstep ih =>
    have hids := World.Reachable.ids hcol (Relation.ReflTransGen.tail hv hstep)
    obtain ⟨l, -, hs⟩ := hstep
    rcases World.step_published hs with heq | ⟨c, s, batch, k, rfl, hp, heq⟩
    · rw [heq]
      exact ih
    · rw [heq] at hids ⊢
      refine ih.append fun x hx => ?_
      by_cases hold : ∃ y ∈ w.published, y.id = x.id
      · obtain ⟨y, hy, e⟩ := hold
        exact Or.inl (hids x (List.mem_append_right _ hx) y (List.mem_append_left _ hy) e ▸ hy)
      · refine Or.inr ⟨fun y hy e => hold ⟨y, hy, e⟩, fun p hparent => ?_⟩
        exact World.Reachable.parents_published hv hp hx hparent

end Rollforward
