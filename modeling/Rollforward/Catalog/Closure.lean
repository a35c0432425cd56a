import Rollforward.Catalog.Replicas

/-! As long as nothing is given up, every client holds the parents of what it holds. -/

namespace Rollforward

open Std Lib

variable [Crates]

/-- A commit that another one was made over belongs to the same resource. -/
def Kin (published : List Commit) : Prop :=
  ∀ x ∈ published, ∀ y ∈ published, x.id ∈ y.parents → x.resource = y.resource

/-- The parents of `x` are held. -/
def RuntimeState.Stands (s : RuntimeState) (x : Commit) : Prop :=
  ∀ p ∈ x.parents, (s.commits.get? p).isSome

/-- What a client holds, and what it published, stands on commits that it holds. -/
structure Member.Whole (published : List Commit) (c : String) (m : Member) : Prop where
  memory : ∀ x ∈ m.memory.commits, m.memory.Stands x
  saved : ∀ x ∈ m.saved.commits, m.saved.Stands x
  own : ∀ x ∈ published, x.author = c → m.memory.Stands x
  kept : m.unsaved = false → ∀ x ∈ published, x.author = c → m.saved.Stands x
  within : ∀ delta, m.pending = some delta →
    ∀ event ∈ delta.events, inScopes m.asked.1 event.resource.scopeId = true

theorem RuntimeState.Stands.extends {s t : RuntimeState} {x : Commit} (h : s.Stands x)
    (he : Extends s t) : t.Stands x := fun p hp => he p (h p hp)

theorem Member.Whole.publish_other {published batch : List Commit} {c : String} {m : Member}
    (h : m.Whole published c) (hother : ∀ x ∈ batch, x.author ≠ c) :
    m.Whole (published ++ batch) c where
  memory := h.memory
  saved := h.saved
  own x hx ha := by
    rcases List.mem_append.mp hx with hx | hx
    · exact h.own x hx ha
    · exact absurd ha (hother x hx)
  kept hu x hx ha := by
    rcases List.mem_append.mp hx with hx | hx
    · exact h.kept hu x hx ha
    · exact absurd ha (hother x hx)
  within := h.within

theorem Kin.of_subset {published published' : List Commit} (h : Kin published')
    (hsub : ∀ x ∈ published, x ∈ published') : Kin published :=
  fun x hx y hy => h x (hsub x hx) y (hsub y hy)

namespace Net

/-- No compaction gives anything up. -/
def Retains : Act → Prop
  | .compact _ _ _ obsolete => obsolete = []
  | _ => True

def Whole (n : Net) : Prop := ∀ c, (n.member c).Whole n.published c

variable {R c : String} {n n' : Net}

theorem Whole.init : Whole {} := fun _ => ⟨by simp, by simp, by simp, by simp, by simp⟩

theorem Whole.set (h : n.Whole) {m : Member} (hm : m.Whole n.published c) : (n.set c m).Whole :=
  (Function.forall_update_iff _ fun c (m : Member) => m.Whole n.published c).mpr
    ⟨hm, fun c _ => h c⟩

/-- A refresh brings in the parents of whatever it brings in. -/
theorem Whole.absorb_stands (h : n.Whole) (hv : n.Valid) (hcut : n.Cutting R)
    (hnone : n.obsoleted = []) (hkin : Kin n.published) {delta : CatalogDelta}
    {commits : List Commit} (scanned : (n.member c).pending = some delta)
    (answer : n.remote.loadCommits ((n.member c).memory.missingIds delta) = .ok commits)
    {x : Commit} (hx : x ∈ commits) : ((n.member c).memory.absorb commits delta).Stands x := by
  have hk := hcut.keeps c
  have hf := hk.pending delta scanned
  have hs := (hv.members c).memory
  obtain ⟨hobj, hid⟩ := (mem_loadCommits answer).1 x hx
  obtain ⟨event, he, hid⟩ := List.mem_map.mp hid
  obtain ⟨hshown, -⟩ := List.mem_filter.mp he
  obtain ⟨z, hz, rfl⟩ := hf.listed event hshown
  obtain rfl := hv.ids x ((hv.catalog.objects x).mp hobj).1 z (hk.asked.sub z hz) hid
  intro p hp
  obtain ⟨y, hy, rfl⟩ := hk.asked.closed z hz p hp
  have hyp := hk.asked.sub y hy
  have hscope : inScopes (n.member c).asked.1 y.resource.scopeId = true := by
    rw [hkin y hyp z (hk.asked.sub z hz) hp]
    exact (h c).within delta scanned _ hshown
  have hmem : y ∈ ((n.member c).memory.absorb commits delta).commits := by
    rcases hf.known y hy hscope (by simp [hnone]) with hy' | hev
    · exact (hv.catalog.mem_absorb hv.ids hs answer).mpr (Or.inl hy')
    · exact hv.catalog.mem_absorb_of_event hv.ids hs answer hyp hev
  rw [KeyedMap.mem_def.mp hmem]
  rfl

theorem Whole.move (h : n.Whole) (hv : n.Valid) (hcut : n.Cutting R) (hnone : n.obsoleted = [])
    (hkin : Kin n.published) {a : Act} (hkept : n.Survives a) (hretain : Retains a)
    (hm : Move n a n') : n'.Whole := by
  cases hm with
  | @scan c scopes delta answer =>
    have hc := h c
    refine h.set ⟨hc.memory, hc.saved, hc.own, hc.kept, ?_⟩
    intro delta' hd event he
    obtain rfl := Option.some.inj hd
    exact ((hv.catalog.wf.mem_scan_events answer).mp he).2
  | @absorb c delta commits scanned answer =>
    have hc := h c
    have hextends : Extends (n.member c).memory ((n.member c).memory.absorb commits delta) :=
      fun _ hid => KeyedMap.isSome_get?_insertAll hid
    refine h.set ⟨fun x hx => ?_, hc.saved, fun x hx ha => (hc.own x hx ha).extends hextends,
      hc.kept, by simp⟩
    rcases (hv.catalog.mem_absorb hv.ids (hv.members c).memory answer).mp hx with hx | hx
    · exact (hc.memory x hx).extends hextends
    · exact h.absorb_stands hv hcut hnone hkin scanned answer hx
  | @publish c batch may =>
    have hc := h c
    refine (Function.forall_update_iff _ fun c (m : Member) =>
      m.Whole (n.published ++ batch.commits) c).mpr ⟨⟨hc.memory, hc.saved, ?_, by simp, by simp⟩, ?_⟩
    · intro x hx ha
      rcases List.mem_append.mp hx with hx | hx
      · exact hc.own x hx ha
      · exact may.parents x hx
    · intro c' hne
      refine (h c').publish_other fun x hx ha => hne ?_
      rw [← ha, may.author x hx]
  | @compact c scope generation O held =>
    obtain rfl : O = [] := hretain
    have hc := h c
    exact h.set ⟨hc.memory, hc.saved, hc.own, hc.kept, by simp⟩
  | @work c s grown =>
    have hc := h c
    obtain ⟨xs, hxs, hcommits⟩ := grown.commits
    obtain rfl : xs = [] := List.eq_nil_iff_forall_not_mem.mpr fun x hx => by simpa using hxs x hx
    refine h.set ⟨?_, hc.saved, ?_, hc.kept, hc.within⟩
    · intro x hx
      rw [hcommits] at hx
      exact (hc.memory x hx).extends grown.extends
    · exact fun x hx ha => (hc.own x hx ha).extends grown.extends
  | @record c s idle _ grown =>
    have hc := h c
    refine h.set ⟨?_, hc.saved, ?_, hc.kept, by simp [idle]⟩
    · intro x hx
      rcases grown.mem hx with hx | hx
      · exact (hc.memory x hx).extends grown.extends
      · obtain ⟨hp, ha⟩ := List.mem_filter.mp hx
        exact (hc.own x hp (of_decide_eq_true ha)).extends grown.extends
    · exact fun x hx ha => (hc.own x hx ha).extends grown.extends
  | @drop c =>
    have hc := h c
    exact h.set ⟨hc.memory, hc.saved, hc.own, hc.kept, by simp⟩
  | @save c =>
    have hc := h c
    exact h.set ⟨hc.memory, hc.memory, hc.own, fun _ => hc.own, hc.within⟩
  | @start c =>
    have hc := h c
    exact h.set ⟨hc.memory, hc.saved, hc.own, hc.kept, hc.within⟩
  | @crash c =>
    have hc := h c
    exact h.set ⟨hc.saved, hc.saved, hc.kept hkept, hc.kept, by simp⟩
  | other => exact h

end Net

end Rollforward
