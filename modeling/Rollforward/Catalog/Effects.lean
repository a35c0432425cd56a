import Rollforward.Catalog.Scan

/-! What `commit_batch` and `compact_catalog` leave in the remote. -/

namespace Rollforward

open Std Lib

theorem mem_foldl_writeSegment {segments stored : List CatalogSegment}
    {segment : CatalogSegment} :
    segment ∈ segments.foldl writeSegment stored ↔ segment ∈ stored ∨ segment ∈ segments := by
  induction segments generalizing stored with
  | nil => simp
  | cons first segments ih =>
    rw [List.foldl_cons, ih, writeSegment, List.mem_cons, ← or_assoc]
    refine or_congr_left ?_
    split
    · next h =>
      rw [or_iff_left_of_imp]
      rintro rfl
      exact h
    · simp

variable [Crates]

theorem mem_writeCommit {stored : CommitMap} {commit : Commit}
    (hold : ∀ y ∈ stored, y.id = commit.id → y = commit) {x : Commit} :
    x ∈ writeCommit stored commit ↔ x ∈ stored ∨ x = commit := by
  rw [writeCommit]
  cases hget : stored.get? commit.id with
  | none =>
    simp only [Option.isSome_none, Bool.false_eq_true, if_false, KeyedMap.mem_insert]
    constructor
    · rintro (rfl | h)
      · exact Or.inr rfl
      · exact Or.inl h.1
    · rintro (h | rfl)
      · refine Or.inr ⟨h, fun e => ?_⟩
        rw [KeyedMap.mem_def, e, hget] at h
        cases h
      · exact Or.inl rfl
  | some z =>
    have hz := KeyedMap.mem_of_get? hget
    rw [if_pos Option.isSome_some, or_iff_left_of_imp]
    rintro rfl
    rwa [← hold z hz (KeyedMap.key_of_get? hget)]

theorem mem_foldl_writeCommit {commits : List Commit} {stored : CommitMap}
    (hold : ∀ x ∈ commits, ∀ y ∈ stored, y.id = x.id → y = x)
    (hnew : ∀ x ∈ commits, ∀ y ∈ commits, y.id = x.id → y = x) {x : Commit} :
    x ∈ commits.foldl writeCommit stored ↔ x ∈ stored ∨ x ∈ commits := by
  induction commits generalizing stored with
  | nil => simp
  | cons commit commits ih =>
    have hwrite := fun y => mem_writeCommit (hold commit (.head _)) (x := y)
    rw [List.foldl_cons, ih ?_ (fun a ha b hb => hnew a (.tail _ ha) b (.tail _ hb)), hwrite,
      List.mem_cons, or_assoc]
    intro a ha b hb e
    rcases (hwrite b).mp hb with hb | rfl
    · exact hold a (.tail _ ha) b hb e
    · exact hnew a (.tail _ ha) b (.head _) e

omit [Crates] in
/-- An object that is there stays. -/
theorem mem_foldl_writeCommit_of_mem [Yrs] {commits : List Commit} {stored : CommitMap} {x : Commit}
    (h : x ∈ stored) : x ∈ commits.foldl writeCommit stored := by
  induction commits generalizing stored with
  | nil => exact h
  | cons commit commits ih =>
    apply ih
    rw [writeCommit]
    split
    · exact h
    · next hnone =>
      refine KeyedMap.mem_insert.mpr (Or.inr ⟨h, fun e => hnone ?_⟩)
      rw [← e, KeyedMap.mem_def.mp h]
      rfl

omit [Crates] in
theorem isSome_foldl_writeCommit [Yrs] {commits : List Commit} {stored : CommitMap} {id : String}
    (h : (stored.get? id).isSome ∨ ∃ x ∈ commits, x.id = id) :
    ((commits.foldl writeCommit stored).get? id).isSome := by
  induction commits generalizing stored with
  | nil => simpa using h
  | cons commit commits ih =>
    apply ih
    by_cases hid : commit.id = id
    · refine Or.inl ?_
      rw [writeCommit]
      split
      · next hsome => exact hid ▸ hsome
      · rw [KeyedMap.get?_insert, if_pos hid]
        rfl
    · refine h.imp (fun hsome => ?_) fun ⟨x, hx, e⟩ => ?_
      · rw [writeCommit]
        split
        · exact hsome
        · rw [KeyedMap.get?_insert, if_neg hid]
          exact hsome
      · rcases List.mem_cons.mp hx with rfl | hx
        · exact absurd e hid
        · exact ⟨x, hx, e⟩

namespace Remote

section Batch

variable {commits : List Commit} {lane : Lane} {segment : CatalogSegment} {event : CatalogEvent}

theorem mem_laneSegment (hlane : ∀ x ∈ commits, x.lane = lane) :
    event ∈ (laneSegment lane commits).events ↔ ∃ x ∈ commits, event = x.event := by
  have hevent : ∀ x ∈ commits, x.event = ⟨lane.clientId, x.clientCounter, x.id, x.resource⟩ := by
    intro x hx
    rw [← hlane x hx]
    rfl
  simp only [laneSegment, List.mem_map, List.mem_insertionSort]
  constructor
  · rintro ⟨x, hx, rfl⟩
    exact ⟨x, hx, (hevent x hx).symm⟩
  · rintro ⟨x, hx, rfl⟩
    exact ⟨x, hx, (hevent x hx).symm⟩

theorem laneSegment_last (lane : Lane) (commits : List Commit) :
    (∀ event ∈ (laneSegment lane commits).events,
      event.counter ≤ (laneSegment lane commits).lastCounter) ∧
    (commits ≠ [] → ∃ x ∈ commits, (laneSegment lane commits).lastCounter = x.clientCounter) := by
  have hsorted := List.pairwise_insertionSort (fun a b : Commit => a.clientCounter ≤ b.clientCounter)
    commits
  have hmem := fun x => List.mem_insertionSort
    (fun a b : Commit => a.clientCounter ≤ b.clientCounter) (l := commits) (x := x)
  simp only [laneSegment]
  revert hsorted hmem
  generalize commits.insertionSort (fun a b => a.clientCounter ≤ b.clientCounter) = sorted
  intro hsorted hmem
  cases sorted using List.reverseRecOn with
  | nil =>
    refine ⟨by simp, fun h => ?_⟩
    obtain ⟨x, hx⟩ := List.exists_mem_of_ne_nil _ h
    exact absurd ((hmem x).mpr hx) (by simp)
  | append_singleton sorted last =>
    simp only [List.map_append, List.map_cons, List.map_nil, List.getLast?_append,
      List.getLast?_singleton, Option.some_or, Option.map_some, Option.getD_some]
    refine ⟨?_, fun _ => ⟨last, (hmem last).mp (by simp), rfl⟩⟩
    intro event he
    rw [List.mem_append, List.mem_map, List.mem_singleton] at he
    rcases he with ⟨x, hx, rfl⟩ | rfl
    · exact (List.pairwise_append.mp hsorted).2.2 x hx last (by simp)
    · exact le_rfl

theorem mem_batchSegments : segment ∈ batchSegments commits ↔
    ∃ x ∈ commits, segment = laneSegment x.lane (commits.filter fun y => y.lane = x.lane) := by
  simp only [batchSegments, List.mem_map, Map.mem_keys_unitOfList]
  constructor
  · rintro ⟨_, ⟨x, hx, rfl⟩, rfl⟩
    exact ⟨x, hx, rfl⟩
  · rintro ⟨x, hx, rfl⟩
    exact ⟨_, ⟨x, hx, rfl⟩, rfl⟩

/-- A segment of a batch lists commits of the batch, all of one lane, and ends at the
largest of their counters. -/
theorem batchSegment_spec (h : segment ∈ batchSegments commits) :
    (∀ event ∈ segment.events, (∃ x ∈ commits, event = x.event) ∧ event.lane = segment.lane ∧
      event.counter ≤ segment.lastCounter) ∧
    ∃ x ∈ commits, x.lane = segment.lane ∧ segment.lastCounter = x.clientCounter := by
  obtain ⟨x, hx, rfl⟩ := mem_batchSegments.mp h
  have hlane : ∀ y ∈ commits.filter fun y => y.lane = x.lane, y.lane = x.lane :=
    fun y hy => of_decide_eq_true (List.mem_filter.mp hy).2
  have hself : x ∈ commits.filter fun y => y.lane = x.lane := List.mem_filter.mpr ⟨hx, by simp⟩
  obtain ⟨hle, hlast⟩ := laneSegment_last x.lane (commits.filter fun y => y.lane = x.lane)
  constructor
  · intro event he
    obtain ⟨y, hy, rfl⟩ := (mem_laneSegment hlane).mp he
    exact ⟨⟨y, (List.mem_filter.mp hy).1, rfl⟩, hlane y hy, hle _ he⟩
  · obtain ⟨y, hy, hc⟩ := hlast (List.ne_nil_of_mem hself)
    exact ⟨y, (List.mem_filter.mp hy).1, hlane y hy, hc⟩

theorem exists_batchSegment {x : Commit} (hx : x ∈ commits) :
    ∃ segment ∈ batchSegments commits, x.event ∈ segment.events :=
  ⟨_, mem_batchSegments.mpr ⟨x, hx, rfl⟩,
    (mem_laneSegment fun y hy => of_decide_eq_true (List.mem_filter.mp hy).2).mpr
      ⟨x, List.mem_filter.mpr ⟨hx, by simp⟩, rfl⟩⟩

end Batch

theorem current_commitBatch (remote : Remote) (batch : CommitBatch) (scope : String) :
    (remote.commitBatch batch).current scope = remote.current scope := rfl

theorem covered_commitBatch (remote : Remote) (batch : CommitBatch) (lane : Lane) :
    (remote.commitBatch batch).covered lane = remote.covered lane := rfl

theorem mem_segments_commitBatch {remote : Remote} {batch : CommitBatch}
    {segment : CatalogSegment} : segment ∈ (remote.commitBatch batch).segments ↔
      segment ∈ remote.segments ∨ segment ∈ batchSegments batch.commits :=
  mem_foldl_writeSegment

theorem WellFormed.commitBatch {remote : Remote} (wf : remote.WellFormed) (batch : CommitBatch) :
    (remote.commitBatch batch).WellFormed where
  latest := wf.latest
  generation := wf.generation
  segment := by
    intro segment hs event he
    rcases mem_segments_commitBatch.mp hs with hs | hs
    · exact wf.segment segment hs event he
    · exact ((batchSegment_spec hs).1 event he).2

section Compaction

variable {remote : Remote} {compaction : CatalogCompaction}

theorem current_compactCatalog_of_ne {scope : String} (h : compaction.snapshot.scopeId ≠ scope) :
    (remote.compactCatalog compaction).current scope = remote.current scope := by
  simp only [current, compactCatalog, Map.get?_insert, if_neg h]

/-- The generation a compaction writes becomes current, unless its number was used. -/
theorem current_compactCatalog
    (h : ∀ dir, remote.snapshots[compaction.snapshot.scopeId]? = some dir →
      dir.generations[compaction.snapshot.generation]? = none) :
    (remote.compactCatalog compaction).current compaction.snapshot.scopeId =
      some compaction.snapshot := by
  simp only [current, compactCatalog, Map.get?_insert, if_true, Option.bind_some]
  rw [ExtTreeMap.getElem?_insertIfNew]
  split
  · rfl
  · next hmem =>
    cases hd : remote.snapshots[compaction.snapshot.scopeId]? with
    | none =>
      rw [hd] at hmem
      simp at hmem
    | some dir =>
      rw [hd, Option.getD_some, ExtTreeMap.mem_iff_isSome_getElem?, h dir hd] at hmem
      simp at hmem

theorem mem_segments_compactCatalog {segment : CatalogSegment} :
    segment ∈ (remote.compactCatalog compaction).segments ↔ segment ∈ remote.segments ∧
      reached (collectCursors compaction.snapshot.cursors) segment.lane < segment.lastCounter := by
  simp [compactCatalog]

theorem mem_commits_compactCatalog {x : Commit} :
    x ∈ (remote.compactCatalog compaction).commits ↔
      x ∈ remote.commits ∧ x.id ∉ compaction.obsoleteCommitIds :=
  KeyedMap.mem_eraseAll

theorem WellFormed.compactCatalog (wf : remote.WellFormed)
    (h : ∀ cursor ∈ compaction.snapshot.cursors, cursor.scopeId = compaction.snapshot.scopeId) :
    (remote.compactCatalog compaction).WellFormed where
  latest := by
    intro scope dir g hd hg
    simp only [Remote.compactCatalog, Map.get?_insert] at hd
    split at hd
    · obtain rfl := Option.some.inj hd
      obtain rfl := Option.some.inj hg
      rw [← ExtTreeMap.mem_iff_isSome_getElem?]
      exact ExtTreeMap.mem_insertIfNew_self
    · exact wf.latest hd hg
  generation := by
    intro scope dir g snapshot hd hg
    simp only [Remote.compactCatalog, Map.get?_insert] at hd
    split at hd
    · next hscope =>
      obtain rfl := Option.some.inj hd
      subst hscope
      rw [ExtTreeMap.getElem?_insertIfNew] at hg
      split at hg
      · obtain rfl := Option.some.inj hg
        exact ⟨rfl, h⟩
      · cases hold : remote.snapshots[compaction.snapshot.scopeId]? with
        | none => simp [hold] at hg
        | some dir =>
          rw [hold, Option.getD_some] at hg
          exact wf.generation hold hg
    · exact wf.generation hd hg
  segment := fun segment hs => wf.segment segment (mem_segments_compactCatalog.mp hs).1

end Compaction

end Remote

end Rollforward
