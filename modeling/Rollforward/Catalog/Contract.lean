import Rollforward.Catalog.Net
import Rollforward.Runtime.Footprint

/-! What the runtime asks of the catalog, whatever it is answered.  `Tracks` ties
the memory to the calls made so far; every command keeps it at each of its calls. -/

namespace Rollforward

open Std Lib

variable [Crates]

/-- The commits of the batches that went out. -/
def ownCommits : List SyncEvent → List Commit
  | [] => []
  | ⟨_, .commitBatch batch, .ok _⟩ :: h => batch.commits ++ ownCommits h
  | _ :: h => ownCommits h

/-- The largest counter that may have been published so far. -/
def floorOf (s₀ : RuntimeState) : List SyncEvent → Nat
  | [] => s₀.counter
  | ⟨s, .commitBatch _, .ok _⟩ :: h => max s.counter (floorOf s₀ h)
  | _ :: h => floorOf s₀ h

/-- The scan that was just answered. -/
def pendingOf : List SyncEvent → Option CatalogDelta
  | ⟨_, .scanCatalog _, .ok delta⟩ :: _ => some delta
  | _ => none

/-- The memory an answered call leaves, before any further local work. -/
def settled (h : List SyncEvent) : SyncEvent → RuntimeState
  | ⟨s, .loadCommits _, .ok commits⟩ =>
    match pendingOf h with
    | some delta => s.absorb commits delta
    | none => s
  | ⟨s, .compactCatalog compaction, .ok _⟩ =>
    { s with commits := s.commits.eraseAll compaction.obsoleteCommitIds }
  | ⟨s, _, _⟩ => s

/-- The commits that local work may record now: those of the last batch, until the next
call to the catalog. -/
def recordable : List SyncEvent → List Commit
  | [] => []
  | ⟨_, .commitBatch batch, .ok _⟩ :: _ => batch.commits
  | ⟨_, .scanCatalog _, _⟩ :: _ | ⟨_, .loadCommits _, _⟩ :: _ | ⟨_, .compactCatalog _, _⟩ :: _ => []
  | _ :: h => recordable h

def Follows (s₀ : RuntimeState) : List SyncEvent → RuntimeState → Prop
  | [], s => Grown [] s₀ s
  | e :: h, s => Grown (recordable (e :: h)) (settled h e) s

/-- Every call of the history was made from a memory that follows from those before. -/
def Chain (s₀ : RuntimeState) : List SyncEvent → Prop
  | [] => True
  | e :: h => Follows s₀ h e.memory ∧ Chain s₀ h

structure Tracks (s₀ : RuntimeState) (h : List SyncEvent) (s : RuntimeState) : Prop where
  follows : Follows s₀ h s
  floor : floorOf s₀ h ≤ s.counter

/-- The commits that were loaded. -/
def loadedCommits : List SyncEvent → List Commit
  | [] => []
  | ⟨_, .loadCommits _, .ok commits⟩ :: h => commits ++ loadedCommits h
  | _ :: h => loadedCommits h

/-- Ids the run has come across: in its memory at some call, as its own, or loaded. -/
def Met (s₀ : RuntimeState) (h : List SyncEvent) (id : String) : Prop :=
  (s₀.commits.get? id).isSome ∨ (∃ e ∈ h, (e.memory.commits.get? id).isSome) ∨
    (∃ x ∈ ownCommits h, x.id = id) ∨ ∃ x ∈ loadedCommits h, x.id = id

structure BatchAsk (me : String) (s₀ : RuntimeState) (h : List SyncEvent) (s : RuntimeState)
    (batch : List Commit) : Prop where
  created : ∀ x ∈ batch, ∃ key parents counter timestamp change,
    x = Commit.create key parents me counter timestamp change
  counter : ∀ x ∈ batch, floorOf s₀ h < x.clientCounter ∧ x.clientCounter ≤ s.counter
  ascending : batch.Pairwise fun a b => a.clientCounter < b.clientCounter
  parents : ∀ x ∈ batch, ∀ p ∈ x.parents, (s.commits.get? p).isSome

/-- What each call to the catalog looks like. -/
def Ask (me : String) (s₀ : RuntimeState) (h : List SyncEvent) (s : RuntimeState) : Req → Prop
  | .scanCatalog request => request.cursors = s.cursors
  | .loadCommits ids => ∃ delta, pendingOf h = some delta ∧ ids = s.missingIds delta
  | .commitBatch batch => BatchAsk me s₀ h s batch.commits
  | .compactCatalog compaction => (∃ scope generation,
      compaction = s.compaction scope generation compaction.obsoleteCommitIds) ∧
      ∀ id ∈ compaction.obsoleteCommitIds, Met s₀ h id
  | _ => True

section Grown

variable {own own' : List Commit} {s t u : RuntimeState}

theorem Grown.trans (hst : Grown own s t) (htu : Grown own t u) : Grown own s u := by
  obtain ⟨xs, hxs, hs⟩ := hst.commits
  obtain ⟨ys, hys, ht⟩ := htu.commits
  refine ⟨⟨xs ++ ys, ?_, ?_⟩, htu.cursors.trans hst.cursors, hst.counter.trans htu.counter⟩
  · intro x hx
    exact (List.mem_append.mp hx).elim (hxs x) (hys x)
  · rw [ht, hs, KeyedMap.insertAll_append]

theorem SameCatalog.grown (h : SameCatalog s t) : Grown own s t :=
  ⟨⟨[], by simp, h.commits⟩, h.cursors, h.counter⟩

theorem Grown.insert {x : Commit} (hx : x ∈ own) :
    Grown own s { s with commits := s.commits.insert x } :=
  ⟨⟨[x], by simpa using hx, rfl⟩, rfl, le_rfl⟩

theorem Grown.mem (h : Grown own s t) {x : Commit} (hx : x ∈ t.commits) :
    x ∈ s.commits ∨ x ∈ own := by
  obtain ⟨xs, hxs, ht⟩ := h.commits
  rw [ht] at hx
  exact (KeyedMap.mem_of_mem_insertAll hx).imp_right (hxs x)

/-- Ids that were known stay known. -/
def Extends (s t : RuntimeState) : Prop :=
  ∀ id, (s.commits.get? id).isSome → (t.commits.get? id).isSome

theorem Extends.trans (hst : Extends s t) (htu : Extends t u) : Extends s u :=
  fun id h => htu id (hst id h)

theorem SameCatalog.extends (h : SameCatalog s t) : Extends s t := fun _ hid => h.commits ▸ hid

theorem Grown.extends (h : Grown own s t) : Extends s t := by
  obtain ⟨xs, -, ht⟩ := h.commits
  intro id hid
  rw [ht]
  exact KeyedMap.isSome_get?_insertAll hid

end Grown

section Tracks

variable {s₀ s t : RuntimeState} {h : List SyncEvent}

theorem Tracks.start (s : RuntimeState) : Tracks s [] s := ⟨(SameCatalog.refl s).grown, le_rfl⟩

theorem Tracks.grow (ht : Tracks s₀ h s) (hg : Grown (recordable h) s t) : Tracks s₀ h t := by
  refine ⟨?_, ht.floor.trans hg.counter⟩
  cases h with
  | nil => exact Grown.trans ht.follows hg
  | cons e h => exact Grown.trans ht.follows hg

theorem Tracks.same (ht : Tracks s₀ h s) (hs : SameCatalog s t) : Tracks s₀ h t :=
  ht.grow hs.grown

theorem Quiet.floorOf {q : Req} (hq : Quiet q) {r : q.Resp} :
    floorOf s₀ (⟨s, q, r⟩ :: h) = floorOf s₀ h := by
  cases q <;> first | rfl | exact hq.elim

theorem Quiet.recordable {q : Req} (hq : Quiet q) {r : q.Resp} :
    recordable (⟨s, q, r⟩ :: h) = recordable h := by
  cases q <;> first | rfl | exact hq.elim

theorem Quiet.ask {q : Req} (hq : Quiet q) {me : String} : Ask me s₀ h s q := by
  cases q <;> first | exact trivial | exact hq.elim

theorem floorOf_cons_le {q : Req} {r : q.Resp} :
    floorOf s₀ (⟨s, q, r⟩ :: h) ≤ max s.counter (floorOf s₀ h) := by
  cases q with
  | commitBatch batch =>
    cases r with
    | ok _ => exact le_rfl
    | error _ => exact le_max_right ..
  | _ => exact le_max_right ..

/-- An answer that the memory does not take up. -/
theorem Tracks.answer (ht : Tracks s₀ h s) {q : Req} {r : q.Resp}
    (hs : settled h ⟨s, q, r⟩ = s) : Tracks s₀ (⟨s, q, r⟩ :: h) s := by
  refine ⟨?_, floorOf_cons_le.trans (max_le le_rfl ht.floor)⟩
  rw [Follows, hs]
  exact (SameCatalog.refl s).grown

theorem Tracks.quiet (ht : Tracks s₀ h s) {q : Req} (hq : Quiet q) {r : q.Resp} :
    Tracks s₀ (⟨s, q, r⟩ :: h) s := by
  refine ht.answer ?_
  cases q <;> first | rfl | exact hq.elim

theorem mem_ownCommits_cons {e : SyncEvent} {x : Commit} (hx : x ∈ ownCommits h) :
    x ∈ ownCommits (e :: h) := by
  obtain ⟨s, q, r⟩ := e
  cases q with
  | commitBatch batch =>
    cases r with
    | ok _ => exact List.mem_append_right _ hx
    | error _ => exact hx
  | _ => exact hx

theorem mem_ownCommits_of_recordable {x : Commit} (hx : x ∈ recordable h) : x ∈ ownCommits h := by
  induction h with
  | nil => cases hx
  | cons e h ih =>
    unfold Rollforward.recordable at hx
    split at hx
    · cases hx
    · next he =>
      cases he
      exact List.mem_append_left _ hx
    · cases hx
    · cases hx
    · cases hx
    · next he =>
      cases he
      exact mem_ownCommits_cons (ih hx)

theorem mem_loadedCommits_cons {e : SyncEvent} {x : Commit} (hx : x ∈ loadedCommits h) :
    x ∈ loadedCommits (e :: h) := by
  obtain ⟨s, q, r⟩ := e
  cases q with
  | loadCommits ids =>
    cases r with
    | ok _ => exact List.mem_append_right _ hx
    | error _ => exact hx
  | _ => exact hx

theorem Met.cons {id : String} (hm : Met s₀ h id) (e : SyncEvent) : Met s₀ (e :: h) id := by
  rcases hm with hm | ⟨e', he, hm⟩ | ⟨x, hx, hm⟩ | ⟨x, hx, hm⟩
  · exact Or.inl hm
  · exact Or.inr (Or.inl ⟨e', List.mem_cons_of_mem _ he, hm⟩)
  · exact Or.inr (Or.inr (Or.inl ⟨x, mem_ownCommits_cons hx, hm⟩))
  · exact Or.inr (Or.inr (Or.inr ⟨x, mem_loadedCommits_cons hx, hm⟩))

theorem Met.suffix {h' : List SyncEvent} {id : String} (hm : Met s₀ h id) (hh : h <:+ h') :
    Met s₀ h' id := by
  obtain ⟨l, rfl⟩ := hh
  induction l with
  | nil => exact hm
  | cons e l ih => exact ih.cons e

theorem mem_settled {e : SyncEvent} {x : Commit} (hx : x ∈ (settled h e).commits) :
    x ∈ e.memory.commits ∨ x ∈ loadedCommits (e :: h) := by
  obtain ⟨s, q, r⟩ := e
  cases q with
  | loadCommits ids =>
    cases r with
    | error _ => exact Or.inl hx
    | ok commits =>
      simp only [settled] at hx
      split at hx
      · exact (KeyedMap.mem_of_mem_insertAll hx).imp_right (List.mem_append_left _)
      · exact Or.inl hx
  | compactCatalog compaction =>
    cases r with
    | error _ => exact Or.inl hx
    | ok _ => exact Or.inl (KeyedMap.mem_eraseAll.mp hx).1
  | _ => exact Or.inl hx

/-- Where the commits of the memory come from. -/
theorem Tracks.mem (ht : Tracks s₀ h s) {x : Commit} (hx : x ∈ s.commits) :
    (h = [] ∧ x ∈ s₀.commits) ∨ (∃ e ∈ h, x ∈ e.memory.commits) ∨ x ∈ ownCommits h ∨
      x ∈ loadedCommits h := by
  cases h with
  | nil =>
    rcases Grown.mem ht.follows hx with hx | hx
    · exact Or.inl ⟨rfl, hx⟩
    · cases hx
  | cons e h =>
    rcases Grown.mem ht.follows hx with hx | hx
    · rcases mem_settled hx with hx | hx
      · exact Or.inr (Or.inl ⟨e, List.mem_cons_self, hx⟩)
      · exact Or.inr (Or.inr (Or.inr hx))
    · exact Or.inr (Or.inr (Or.inl (mem_ownCommits_of_recordable hx)))

/-- Whatever the memory holds, the run has come across. -/
theorem Tracks.met (ht : Tracks s₀ h s) {id : String} (hid : (s.commits.get? id).isSome) :
    Met s₀ h id := by
  obtain ⟨x, hx⟩ := Option.isSome_iff_exists.mp hid
  obtain rfl := KeyedMap.key_of_get? hx
  have hsome : ∀ {m : CommitMap}, x ∈ m → (m.get? x.id).isSome := fun hm => by
    rw [KeyedMap.mem_def.mp hm]
    rfl
  rcases ht.mem (KeyedMap.mem_of_get? hx) with ⟨-, hx⟩ | ⟨e, he, hx⟩ | hx | hx
  · exact Or.inl (hsome hx)
  · exact Or.inr (Or.inl ⟨e, he, hsome hx⟩)
  · exact Or.inr (Or.inr (Or.inl ⟨x, hx, rfl⟩))
  · exact Or.inr (Or.inr (Or.inr ⟨x, hx, rfl⟩))

end Tracks

def record (h : List SyncEvent) (e : SyncEvent) (h' : List SyncEvent) : Prop := h' = e :: h

section Contract

variable (me : String) (s₀ : RuntimeState)

def Call (h : List SyncEvent) (s : RuntimeState) (q : Req) : Prop :=
  Tracks s₀ h s ∧ Ask me s₀ h s q

/-- `x` from here on keeps the contract and ends in `Q`. -/
def Meets (x : Sync α) (Q : List SyncEvent → RuntimeState → α → Prop) (h : List SyncEvent)
    (s : RuntimeState) : Prop :=
  Comp.wp record (Call me s₀) (fun h s _ => Tracks s₀ h s) x Q h s

/-- Nothing happened to the catalog since `h` and `s`. -/
structure Calm (h : List SyncEvent) (s : RuntimeState) (h' : List SyncEvent) (s' : RuntimeState) :
    Prop where
  tracks : Tracks s₀ h' s'
  floor : floorOf s₀ h' = floorOf s₀ h
  own : ∀ x ∈ recordable h, x ∈ recordable h'
  same : SameCatalog s s'

/-- A computation that keeps the contract and forgets no commit. -/
def Keeps (x : Sync α) : Prop :=
  ∀ h s, Tracks s₀ h s → Meets me s₀ x (fun h' s' _ => Tracks s₀ h' s' ∧ Extends s s') h s

variable {me s₀}

theorem Meets.imp {x : Sync α} {Q Q' : List SyncEvent → RuntimeState → α → Prop}
    {h : List SyncEvent} {s : RuntimeState} (hx : Meets me s₀ x Q h s)
    (hQ : ∀ h s a, Q h s a → Q' h s a) : Meets me s₀ x Q' h s := Comp.wp_imp hx hQ

theorem Meets.bind {x : Sync α} {f : α → Sync β} {Q : List SyncEvent → RuntimeState → α → Prop}
    {R : List SyncEvent → RuntimeState → β → Prop} {h : List SyncEvent} {s : RuntimeState}
    (hx : Meets me s₀ x Q h s) (hf : ∀ h s a, Q h s a → Meets me s₀ (f a) R h s) :
    Meets me s₀ (x >>= f) R h s := Comp.wp_bind.mpr (Comp.wp_imp hx hf)

/-- The history only grows. -/
theorem Meets.suffix {x : Sync α} {Q : List SyncEvent → RuntimeState → α → Prop}
    {h : List SyncEvent} {s : RuntimeState} (hx : Meets me s₀ x Q h s) :
    Meets me s₀ x (fun h' s' a => Q h' s' a ∧ h <:+ h') h s := by
  refine Comp.wp_and_invariant hx ?_ List.suffix_rfl
  rintro h₁ e _ rfl hh
  exact hh.trans (List.suffix_cons _ _)

theorem Meets.get {f : RuntimeState → Sync β} {R : List SyncEvent → RuntimeState → β → Prop}
    {h : List SyncEvent} {s : RuntimeState} (hf : Meets me s₀ (f s) R h s) :
    Meets me s₀ (Comp.get >>= f) R h s := Comp.wp_bind.mpr (Comp.wp_get.mpr hf)

theorem Meets.modify {g : RuntimeState → RuntimeState} {f : Unit → Sync β}
    {R : List SyncEvent → RuntimeState → β → Prop} {h : List SyncEvent} {s : RuntimeState}
    (hf : Meets me s₀ (f ()) R h (g s)) : Meets me s₀ (Comp.modify g >>= f) R h s :=
  Comp.wp_bind.mpr (Comp.wp_modify.mpr hf)

theorem meets_request {q : Req} {f : q.Resp → Except SyncError α}
    {Q : List SyncEvent → RuntimeState → α → Prop} {h : List SyncEvent} {s : RuntimeState}
    (ht : Tracks s₀ h s) (hq : Ask me s₀ h s q)
    (hok : ∀ r a, f r = .ok a → Q (⟨s, q, r⟩ :: h) s a)
    (herr : ∀ r e, f r = .error e → Tracks s₀ (⟨s, q, r⟩ :: h) s) :
    Meets me s₀ (Comp.request q f) Q h s := by
  refine Comp.wp_request.mpr ⟨⟨ht, hq⟩, ?_⟩
  rintro r _ rfl
  exact ⟨hok r, herr r⟩

theorem Calm.refl {h : List SyncEvent} {s : RuntimeState} (ht : Tracks s₀ h s) :
    Calm s₀ h s h s := ⟨ht, rfl, fun _ hx => hx, .refl s⟩

theorem Calm.trans {h₁ h₂ h₃ : List SyncEvent} {s₁ s₂ s₃ : RuntimeState}
    (h₁₂ : Calm s₀ h₁ s₁ h₂ s₂) (h₂₃ : Calm s₀ h₂ s₂ h₃ s₃) : Calm s₀ h₁ s₁ h₃ s₃ :=
  ⟨h₂₃.tracks, h₂₃.floor.trans h₁₂.floor, fun x hx => h₂₃.own x (h₁₂.own x hx),
    h₁₂.same.trans h₂₃.same⟩

theorem Calm.quiet {h₁ h₂ : List SyncEvent} {s₁ s₂ : RuntimeState} (hc : Calm s₀ h₁ s₁ h₂ s₂)
    {q : Req} (hq : Quiet q) (r : q.Resp) : Calm s₀ h₁ s₁ (⟨s₂, q, r⟩ :: h₂) s₂ := by
  refine ⟨hc.tracks.quiet hq, hq.floorOf.trans hc.floor, fun x hx => ?_, hc.same⟩
  rw [hq.recordable]
  exact hc.own x hx

theorem Silent.meets {x : Sync α} (hx : Silent x) {h : List SyncEvent} {s : RuntimeState}
    (ht : Tracks s₀ h s) : Meets me s₀ x (fun h' s' _ => Calm s₀ h s h' s') h s := by
  refine Comp.wp_mono (Comp.Within.wp (J := Calm s₀ h s) hx ?_ ?_ ?_ (.refl ht))
    (fun _ _ _ hc => hc.tracks) fun _ _ _ hc => hc
  · intro h₁ s₁ s₂ hc hs
    exact ⟨hc.tracks.same hs, hc.floor, hc.own, hc.same.trans hs⟩
  · intro h₁ s₁ q hc hq
    exact ⟨hc.tracks, hq.ask⟩
  · rintro h₁ s₁ q r _ hc hq rfl
    exact hc.quiet hq r

theorem Silent.keeps {x : Sync α} (hx : Silent x) : Keeps me s₀ x := fun _ _ ht =>
  (hx.meets ht).imp fun _ _ _ hc => ⟨hc.tracks, hc.same.extends⟩

namespace Keeps

theorem bind {x : Sync α} {f : α → Sync β} (hx : Keeps me s₀ x) (hf : ∀ a, Keeps me s₀ (f a)) :
    Keeps me s₀ (x >>= f) := by
  intro h s ht
  refine (hx h s ht).bind fun h₁ s₁ a ⟨ht₁, hs⟩ => ?_
  exact (hf a h₁ s₁ ht₁).imp fun _ _ _ ⟨ht₂, hs₂⟩ => ⟨ht₂, hs.trans hs₂⟩

theorem foldlM {f : γ → β → Sync γ} (hf : ∀ a x, Keeps me s₀ (f a x)) (xs : List β) (a : γ) :
    Keeps me s₀ (xs.foldlM f a) := by
  induction xs generalizing a with
  | nil => exact Silent.keeps (.pure a)
  | cons x xs ih => exact bind (hf a x) ih

end Keeps

section Refresh

theorem countEvents_same (s : RuntimeState) (delta : CatalogDelta) :
    SameCatalog s (s.countEvents delta) := ⟨rfl, rfl, le_rfl⟩

theorem refreshRemote_keeps (scopes : List String) : Keeps me s₀ (refreshRemote scopes) := by
  intro h s ht
  refine Meets.get ?_
  refine Meets.bind (Q := fun h₁ s₁ delta => Tracks s₀ h₁ s₁ ∧ s₁ = s ∧ pendingOf h₁ = some delta)
    (meets_request ht rfl ?_ ?_) ?_
  · intro r delta hr
    obtain rfl : r = .ok delta := hr
    exact ⟨ht.answer rfl, rfl, rfl⟩
  · intro r e _
    exact ht.answer rfl
  rintro h₁ s₁ delta ⟨ht₁, rfl, hpend⟩
  refine Meets.modify (Meets.get ?_)
  have ht₂ := ht₁.same (countEvents_same s₁ delta)
  refine Meets.bind (Q := fun h₂ s₂ commits => s₂ = s₁.countEvents delta ∧
      Tracks s₀ h₂ (s₂.absorb commits delta)) (meets_request ht₂ ⟨delta, hpend, rfl⟩ ?_ ?_) ?_
  · intro r commits hr
    obtain rfl : r = .ok commits := hr
    refine ⟨rfl, ?_, ht₂.floor⟩
    rw [Follows, settled, hpend]
    exact (SameCatalog.refl _).grown
  · intro r e hr
    obtain rfl : r = .error e := hr
    exact ht₂.answer rfl
  rintro h₂ _ commits ⟨rfl, ht₃⟩
  exact Comp.wp_modify.mpr ⟨ht₃, fun id hid => KeyedMap.isSome_get?_insertAll hid⟩

theorem SameCatalog.compaction {s t : RuntimeState} (h : SameCatalog s t) (scope : String)
    (generation : Nat) (obsolete : List String) :
    t.compaction scope generation obsolete = s.compaction scope generation obsolete := by
  simp only [RuntimeState.compaction, RuntimeState.catalogSnapshot, h.commits, h.cursors]

theorem snapshotScope_keeps (rt : SyncRuntime) (scope : String) :
    Keeps me s₀ (snapshotScope rt scope) := by
  intro h s ht
  refine Meets.get (Meets.bind (Silent.meets (.request (by exact trivial) _) ht) ?_)
  intro h₁ s₁ now hc
  refine Meets.bind (Q := fun h₂ s₂ _ => Tracks s₀ h₂ s₂ ∧ s₂ = s₁)
    (meets_request hc.tracks ?_ ?_ ?_) ?_
  · refine ⟨⟨scope, rt.snapshotGeneration now, ?_⟩, by simp⟩
    exact (hc.same.compaction scope _ []).symm
  · intro r _ hr
    obtain rfl : r = .ok _ := hr
    exact ⟨hc.tracks.answer rfl, rfl⟩
  · intro r e hr
    obtain rfl : r = .error e := hr
    exact hc.tracks.answer rfl
  · rintro h₂ _ _ ⟨ht₂, rfl⟩
    exact Comp.wp_modify.mpr ⟨ht₂.same ⟨rfl, rfl, le_rfl⟩, hc.same.extends⟩

theorem snapshotLargeCatalogs_keeps (rt : SyncRuntime) :
    Keeps me s₀ (snapshotLargeCatalogs rt) :=
  .bind (Silent.keeps .get) fun _ => .foldlM (fun _ scope => snapshotScope_keeps rt scope) _ _

end Refresh

section Batch

variable {h h' : List SyncEvent} {s s' : RuntimeState} {created : List Commit}

theorem BatchAsk.calm (ha : BatchAsk me s₀ h s created) (hc : Calm s₀ h s h' s') :
    BatchAsk me s₀ h' s' created where
  created := ha.created
  counter x hx := by
    rw [hc.floor]
    exact ⟨(ha.counter x hx).1, (ha.counter x hx).2.trans hc.same.counter⟩
  ascending := ha.ascending
  parents x hx p hp := hc.same.extends p (ha.parents x hx p hp)

theorem BatchAsk.append {x : Commit} (ha : BatchAsk me s₀ h s created)
    (hx : BatchAsk me s₀ h s [x]) (hlt : ∀ y ∈ created, y.clientCounter < x.clientCounter) :
    BatchAsk me s₀ h s (created ++ [x]) where
  created y hy := (List.mem_append.mp hy).elim (ha.created y) (hx.created y)
  counter y hy := (List.mem_append.mp hy).elim (ha.counter y) (hx.counter y)
  ascending := by
    refine List.pairwise_append.mpr ⟨ha.ascending, hx.ascending, fun y hy z hz => ?_⟩
    rw [List.mem_singleton.mp hz]
    exact hlt y hy
  parents y hy := (List.mem_append.mp hy).elim (ha.parents y) (hx.parents y)

theorem batchAsk_singleton (key : ResourceKey) {parents : List String} {counter : Nat}
    (timestamp : Int) (change : ResourceChange)
    (hcounter : floorOf s₀ h < counter ∧ counter ≤ s.counter)
    (hparents : ∀ p ∈ parents, (s.commits.get? p).isSome) :
    BatchAsk me s₀ h s [Commit.create key parents me counter timestamp change] where
  created := by simpa using ⟨key, parents, counter, timestamp, change, rfl⟩
  counter := by simpa [Commit.create] using hcounter
  ascending := by simp
  parents x hx p hp := by
    rw [List.mem_singleton.mp hx, Commit.create, mem_sortDedup] at hp
    exact hparents p hp

end Batch

section Publish

variable {h : List SyncEvent} {s : RuntimeState}

theorem publishCommit_meets (rt : SyncRuntime) (hme : rt.clientId = me) (ht : Tracks s₀ h s)
    (key : ResourceKey) {parents : List String} {counter : Nat} (change : ResourceChange)
    (batch : CommitBatch) (hcounter : floorOf s₀ h < counter ∧ counter ≤ s.counter)
    (hparents : ∀ p ∈ parents, (s.commits.get? p).isSome) :
    Meets me s₀ (publishCommit rt key parents counter change batch)
      (fun h' s' _ => Tracks s₀ h' s' ∧ Extends s s') h s := by
  refine Meets.bind (Silent.meets (.request (by exact trivial) _) ht) ?_
  intro h₁ s₁ now hc
  dsimp only
  subst hme
  refine Meets.bind (Q := fun h₂ s₂ _ => Tracks s₀ h₂ s₂ ∧ s₂ = s₁ ∧
      Commit.create key parents rt.clientId counter now change ∈ recordable h₂)
    (meets_request hc.tracks ?_ ?_ ?_) ?_
  · refine batchAsk_singleton key now change ⟨?_, hcounter.2.trans hc.same.counter⟩ ?_
    · exact hc.floor.symm ▸ hcounter.1
    · exact fun p hp => hc.same.extends p (hparents p hp)
  · intro r _ hr
    obtain rfl : r = .ok _ := hr
    exact ⟨hc.tracks.answer rfl, rfl, by simp [recordable]⟩
  · intro r e _
    exact hc.tracks.answer rfl
  · rintro h₂ s₂ _ ⟨ht₂, rfl, hown⟩
    refine Meets.modify (Comp.wp_pure.mpr ?_)
    have hg := Grown.insert hown (s := s₂)
    exact ⟨ht₂.grow hg, hc.same.extends.trans hg.extends⟩

theorem nextCounter_meets (ht : Tracks s₀ h s) :
    Meets me s₀ nextCounter (fun h' s' n => Calm s₀ h s h' s' ∧ n = s.counter + 1 ∧
      s'.counter = s.counter + 1) h s := by
  have hs : SameCatalog s { s with counter := s.counter + 1 } := ⟨rfl, rfl, Nat.le_succ _⟩
  exact Meets.modify (Meets.get (Comp.wp_pure.mpr ⟨⟨ht.same hs, rfl, fun _ hx => hx, hs⟩, rfl, rfl⟩))

theorem publishBytes_meets (rt : SyncRuntime) (hme : rt.clientId = me) (ht : Tracks s₀ h s)
    (key : ResourceKey) (kind : ResourceKind) (data : Bytes) {parents : List String}
    (hparents : ∀ p ∈ parents, (s.commits.get? p).isSome) :
    Meets me s₀ (publishBytes rt key kind data parents)
      (fun h' s' _ => Tracks s₀ h' s' ∧ Extends s s') h s := by
  refine (nextCounter_meets ht).bind ?_
  rintro h₁ s₁ _ ⟨hc₁, rfl, hn⟩
  refine ((prepareChange_reads key kind data).silent.meets hc₁.tracks).bind ?_
  rintro h₂ s₂ ⟨change, batch⟩ hc₂
  have hc := hc₁.trans hc₂
  refine (publishCommit_meets rt hme hc.tracks key change batch ⟨?_, ?_⟩ ?_).imp ?_
  · rw [hc.floor]
    exact Nat.lt_succ_of_le ht.floor
  · exact hn ▸ hc₂.same.counter
  · exact fun p hp => hc.same.extends p (hparents p hp)
  · exact fun _ _ _ hq => ⟨hq.1, hc.same.extends.trans hq.2⟩

theorem publishDelete_meets (rt : SyncRuntime) (hme : rt.clientId = me) (ht : Tracks s₀ h s)
    (key : ResourceKey) {parents : List String}
    (hparents : ∀ p ∈ parents, (s.commits.get? p).isSome) :
    Meets me s₀ (publishDelete rt key parents)
      (fun h' s' _ => Tracks s₀ h' s' ∧ Extends s s') h s := by
  refine (nextCounter_meets ht).bind ?_
  rintro h₁ s₁ _ ⟨hc, rfl, hn⟩
  refine (publishCommit_meets rt hme hc.tracks key .delete {} ⟨?_, hn.ge⟩ ?_).imp ?_
  · rw [hc.floor]
    exact Nat.lt_succ_of_le ht.floor
  · exact fun p hp => hc.same.extends p (hparents p hp)
  · exact fun _ _ _ hq => ⟨hq.1, hc.same.extends.trans hq.2⟩

end Publish

end Contract

end Rollforward
