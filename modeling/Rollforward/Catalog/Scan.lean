import Rollforward.Lib.Fallible
import Rollforward.Remote
import Mathlib.Data.List.Induction

/-! What `scan_catalog` returns, in terms of the current snapshot of each scope
and of the segments beyond it. -/

namespace Rollforward

open Std Lib

theorem reached_insert (m : Map Lane Nat) (lane lane' : Lane) (n : Nat) :
    reached (m.insert lane n) lane' = if lane = lane' then n else reached m lane' := by
  rw [reached, Map.get?_insert]
  split <;> simp [reached]

@[simp] theorem reached_empty (lane : Lane) : reached ∅ lane = 0 := by simp [reached]

theorem reached_raiseCursor (m : Map Lane Nat) (lane lane' : Lane) (n : Nat) :
    reached (raiseCursor m lane n) lane' =
      if lane = lane' then max (reached m lane') n else reached m lane' := by
  rw [raiseCursor, reached_insert]
  split
  · next h =>
    subst h
    rw [reached]
    cases m[lane]? <;> simp
  · rfl

/-- A counter bounds a raised cursor when it bounds the old one and all that was
raised to. -/
theorem reached_raiseCursors_le {m : Map Lane Nat} {cursors : List CatalogCursor} {lane : Lane}
    {n : Nat} : reached (raiseCursors m cursors) lane ≤ n ↔
      reached m lane ≤ n ∧ ∀ cursor ∈ cursors, cursor.lane = lane → cursor.counter ≤ n := by
  induction cursors generalizing m with
  | nil => simp [raiseCursors]
  | cons cursor cursors ih =>
    rw [show raiseCursors m (cursor :: cursors) =
      raiseCursors (raiseCursor m cursor.lane cursor.counter) cursors from rfl, ih,
      reached_raiseCursor]
    by_cases h : cursor.lane = lane
    · simp only [h, if_true, List.forall_mem_cons, true_implies, Nat.max_le]
      exact and_assoc
    · simp [h]

theorem reached_le_raiseCursors (m : Map Lane Nat) (cursors : List CatalogCursor) (lane : Lane) :
    reached m lane ≤ reached (raiseCursors m cursors) lane :=
  (reached_raiseCursors_le.mp le_rfl).1

theorem reached_foldl_segments {segments : List CatalogSegment} {m : Map Lane Nat} {lane : Lane}
    {n : Nat} : reached (segments.foldl (fun m segment =>
        raiseCursor m segment.lane segment.lastCounter) m) lane ≤ n ↔
      reached m lane ≤ n ∧ ∀ segment ∈ segments, segment.lane = lane → segment.lastCounter ≤ n := by
  induction segments generalizing m with
  | nil => simp
  | cons segment segments ih =>
    rw [List.foldl_cons, ih, reached_raiseCursor]
    by_cases h : segment.lane = lane
    · simp only [h, if_true, List.forall_mem_cons, true_implies, Nat.max_le]
      exact and_assoc
    · simp [h]

/-- Collecting keeps the last cursor of each lane. -/
theorem reached_collectCursors (cursors : List CatalogCursor) (lane : Lane) :
    reached (collectCursors cursors) lane =
      (((cursors.filter fun cursor => cursor.lane = lane).getLast?).map
        CatalogCursor.counter).getD 0 := by
  rw [collectCursors]
  induction cursors using List.reverseRecOn with
  | nil => simp
  | append_singleton cursors cursor ih =>
    rw [List.foldl_append, List.foldl_cons, List.foldl_nil, reached_insert, ih]
    by_cases h : cursor.lane = lane <;> simp [h]

theorem exists_cursor_of_reached {cursors : List CatalogCursor} {lane : Lane}
    (h : reached (collectCursors cursors) lane ≠ 0) :
    ∃ cursor ∈ cursors, cursor.lane = lane ∧
      cursor.counter = reached (collectCursors cursors) lane := by
  rw [reached_collectCursors] at h ⊢
  cases hlast : (cursors.filter fun cursor => cursor.lane = lane).getLast? with
  | none => simp [hlast] at h
  | some cursor =>
    have hmem := List.mem_filter.mp (List.mem_of_getLast? hlast)
    exact ⟨cursor, hmem.1, by simpa using hmem.2, by simp⟩

theorem counter_eq_reached {m : Map Lane Nat} {cursor : CatalogCursor}
    (h : cursor ∈ cursorList m) : cursor.counter = reached m cursor.lane := by
  simp only [cursorList, List.mem_map, Prod.exists,
    ExtTreeMap.mem_toList_iff_getElem?_eq_some] at h
  obtain ⟨lane, n, h, rfl⟩ := h
  simp [reached, CatalogCursor.lane, h]

theorem reached_collect_cursorList (m : Map Lane Nat) (lane : Lane) :
    reached (collectCursors (cursorList m)) lane = reached m lane := by
  have hfind : ∀ n, (∃ cursor ∈ cursorList m, cursor.lane = lane ∧ cursor.counter = n) ↔
      m[lane]? = some n := by
    intro n
    simp only [cursorList, List.mem_map, Prod.exists, ExtTreeMap.mem_toList_iff_getElem?_eq_some]
    constructor
    · rintro ⟨_, ⟨l, k, h, rfl⟩, rfl, rfl⟩
      exact h
    · intro h
      exact ⟨_, ⟨lane, n, h, rfl⟩, rfl, rfl⟩
  by_cases h0 : reached (collectCursors (cursorList m)) lane = 0
  · rw [h0]
    cases hm : m[lane]? with
    | none => simp [reached, hm]
    | some n =>
      -- the lane is listed, so its last cursor is the stored counter
      obtain ⟨cursor, hc, hl, rfl⟩ := (hfind n).mpr hm
      have hne : (cursorList m).filter (fun cursor => cursor.lane = lane) ≠ [] :=
        List.ne_nil_of_mem (List.mem_filter.mpr ⟨hc, by simpa using hl⟩)
      have hlast := List.mem_filter.mp (List.getLast_mem hne)
      have := (hfind _).mp ⟨_, hlast.1, by simpa using hlast.2, rfl⟩
      rw [reached_collectCursors, List.getLast?_eq_getLast_of_ne_nil hne] at h0
      rw [hm] at this
      simp only [Option.map_some, Option.getD_some] at h0
      rw [reached, hm, Option.getD_some, Option.some.inj this, h0]
  · obtain ⟨cursor, hc, hl, he⟩ := exists_cursor_of_reached h0
    rw [← he, reached, (hfind _).mp ⟨cursor, hc, hl, rfl⟩, Option.getD_some]

section

variable {snapshots : List CatalogSnapshot} {lane : Lane}

theorem filter_lane_eq_nil {snapshot : CatalogSnapshot}
    (hscope : ∀ cursor ∈ snapshot.cursors, cursor.scopeId = snapshot.scopeId)
    (h : snapshot.scopeId ≠ lane.scopeId) :
    snapshot.cursors.filter (fun cursor => cursor.lane = lane) = [] := by
  rw [List.filter_eq_nil_iff]
  intro cursor hc hl
  have : cursor.lane.scopeId = lane.scopeId := by rw [of_decide_eq_true hl]
  exact h ((hscope cursor hc).symm.trans this)

theorem filter_lane_flatMap_nil
    (hscope : ∀ snapshot ∈ snapshots, ∀ cursor ∈ snapshot.cursors,
      cursor.scopeId = snapshot.scopeId)
    (h : ∀ snapshot ∈ snapshots, snapshot.scopeId ≠ lane.scopeId) :
    (snapshots.flatMap CatalogSnapshot.cursors).filter (fun cursor => cursor.lane = lane) = [] := by
  rw [List.filter_flatMap, List.flatMap_eq_nil_iff]
  intro snapshot hs
  exact filter_lane_eq_nil (hscope snapshot hs) (h snapshot hs)

theorem filter_lane_flatMap
    (hscope : ∀ snapshot ∈ snapshots, ∀ cursor ∈ snapshot.cursors,
      cursor.scopeId = snapshot.scopeId)
    (hdistinct : snapshots.Pairwise fun a b => a.scopeId ≠ b.scopeId)
    {snapshot : CatalogSnapshot} (hs : snapshot ∈ snapshots)
    (hlane : snapshot.scopeId = lane.scopeId) :
    (snapshots.flatMap CatalogSnapshot.cursors).filter (fun cursor => cursor.lane = lane) =
      snapshot.cursors.filter fun cursor => cursor.lane = lane := by
  induction snapshots with
  | nil => cases hs
  | cons first rest ih =>
    rw [List.pairwise_cons] at hdistinct
    rw [List.flatMap_cons, List.filter_append]
    rcases List.mem_cons.mp hs with rfl | hs
    · rw [filter_lane_flatMap_nil (fun s h => hscope s (.tail _ h))
        fun s h => hlane ▸ (hdistinct.1 s h).symm, List.append_nil]
    · rw [filter_lane_eq_nil (hscope first (.head _)) (hlane ▸ hdistinct.1 snapshot hs),
        ih (fun s h => hscope s (.tail _ h)) hdistinct.2 hs, List.nil_append]

end

variable [Crates]

namespace Remote

/-- The snapshot that `latest.json` of a scope points to. -/
def current (remote : Remote) (scope : String) : Option CatalogSnapshot :=
  remote.snapshots[scope]?.bind fun dir => dir.latest.bind fun g => dir.generations[g]?

/-- How far the current snapshot of the lane's scope reaches. -/
def covered (remote : Remote) (lane : Lane) : Nat :=
  ((remote.current lane.scopeId).map fun snapshot =>
    reached (collectCursors snapshot.cursors) lane).getD 0

structure WellFormed (remote : Remote) : Prop where
  latest : ∀ {scope : String} {dir : SnapshotDir} {g : Nat},
    remote.snapshots[scope]? = some dir → dir.latest = some g → dir.generations[g]?.isSome
  generation : ∀ {scope : String} {dir : SnapshotDir} {g : Nat} {snapshot : CatalogSnapshot},
    remote.snapshots[scope]? = some dir → dir.generations[g]? = some snapshot →
    snapshot.scopeId = scope ∧ ∀ cursor ∈ snapshot.cursors, cursor.scopeId = scope
  segment : ∀ segment ∈ remote.segments, ∀ event ∈ segment.events,
    event.lane = segment.lane ∧ event.counter ≤ segment.lastCounter

theorem current_eq_some {remote : Remote} {scope : String} {snapshot : CatalogSnapshot} :
    remote.current scope = some snapshot ↔ ∃ dir g, remote.snapshots[scope]? = some dir ∧
      dir.latest = some g ∧ dir.generations[g]? = some snapshot := by
  simp only [current, Option.bind_eq_some_iff]
  constructor
  · rintro ⟨dir, hd, g, hg, hs⟩
    exact ⟨dir, g, hd, hg, hs⟩
  · rintro ⟨dir, g, hd, hg, hs⟩
    exact ⟨dir, hd, g, hg, hs⟩

namespace WellFormed

variable {remote : Remote}

theorem current_scope (wf : remote.WellFormed) {scope : String} {snapshot : CatalogSnapshot}
    (h : remote.current scope = some snapshot) :
    snapshot.scopeId = scope ∧ ∀ cursor ∈ snapshot.cursors, cursor.scopeId = scope := by
  obtain ⟨dir, g, hd, -, hs⟩ := current_eq_some.mp h
  exact wf.generation hd hs

/-- Every scope's current snapshot, in scope order. -/
theorem loadSnapshots_eq (wf : remote.WellFormed) (scopes : List String) :
    remote.loadSnapshots scopes = .ok
      ((remote.snapshots.toList.filterMap fun entry => remote.current entry.1).filter
        fun snapshot => inScopes scopes snapshot.scopeId) := by
  have hload : ∀ entry ∈ remote.snapshots.toList,
      entry.2.loadLatest = .ok (remote.current entry.1) := by
    rintro ⟨scope, dir⟩ he
    rw [ExtTreeMap.mem_toList_iff_getElem?_eq_some] at he
    simp only [SnapshotDir.loadLatest, current, he, Option.bind_some]
    cases hl : dir.latest with
    | none => rfl
    | some g =>
      obtain ⟨snapshot, hs⟩ := Option.isSome_iff_exists.mp (wf.latest he hl)
      simp [hs]
  rw [loadSnapshots, mapM_of_forall_ok hload]
  simp only [bind, Except.bind, pure, Except.pure, List.flatMap_map, Except.ok.injEq]
  congr 1
  induction remote.snapshots.toList with
  | nil => rfl
  | cons entry entries ih =>
    rw [List.flatMap_cons, List.filterMap_cons, ih]
    cases remote.current entry.1 <;> rfl

variable {scopes : List String} {snapshots : List CatalogSnapshot}

theorem mem_loadSnapshots (wf : remote.WellFormed)
    (h : remote.loadSnapshots scopes = .ok snapshots) {snapshot : CatalogSnapshot} :
    snapshot ∈ snapshots ↔
      remote.current snapshot.scopeId = some snapshot ∧ inScopes scopes snapshot.scopeId := by
  rw [wf.loadSnapshots_eq, Except.ok.injEq] at h
  subst h
  simp only [List.mem_filter, List.mem_filterMap, Prod.exists,
    ExtTreeMap.mem_toList_iff_getElem?_eq_some]
  refine and_congr_left fun _ => ?_
  constructor
  · rintro ⟨scope, dir, -, hs⟩
    rwa [(wf.current_scope hs).1]
  · intro hs
    obtain ⟨dir, g, hd, -, -⟩ := current_eq_some.mp hs
    exact ⟨_, dir, hd, hs⟩

theorem loadSnapshots_pairwise (wf : remote.WellFormed)
    (h : remote.loadSnapshots scopes = .ok snapshots) :
    snapshots.Pairwise fun a b => a.scopeId ≠ b.scopeId := by
  rw [wf.loadSnapshots_eq, Except.ok.injEq] at h
  subst h
  refine List.Pairwise.filter _ (List.pairwise_filterMap.mpr ?_)
  refine ExtTreeMap.distinct_keys_toList.imp ?_
  intro a b hab s hs t ht
  rw [(wf.current_scope hs).1, (wf.current_scope ht).1]
  simpa using hab

theorem loadSnapshots_scoped (wf : remote.WellFormed)
    (h : remote.loadSnapshots scopes = .ok snapshots) :
    ∀ snapshot ∈ snapshots, ∀ cursor ∈ snapshot.cursors, cursor.scopeId = snapshot.scopeId :=
  fun _ hs => (wf.current_scope ((wf.mem_loadSnapshots h).mp hs).1).2

/-- The snapshots of the requested scopes reach, in each lane, as far as the lane's
own scope is covered. -/
theorem reached_snapshots (wf : remote.WellFormed)
    (h : remote.loadSnapshots scopes = .ok snapshots) (lane : Lane) :
    reached (collectCursors (snapshots.flatMap CatalogSnapshot.cursors)) lane =
      if inScopes scopes lane.scopeId then remote.covered lane else 0 := by
  rw [reached_collectCursors]
  by_cases hmem : ∃ snapshot ∈ snapshots, snapshot.scopeId = lane.scopeId
  · obtain ⟨snapshot, hs, hlane⟩ := hmem
    have hcur := (wf.mem_loadSnapshots h).mp hs
    rw [filter_lane_flatMap (wf.loadSnapshots_scoped h) (wf.loadSnapshots_pairwise h) hs hlane,
      ← reached_collectCursors, covered, ← hlane, hcur.1, if_pos hcur.2]
    rfl
  · rw [filter_lane_flatMap_nil (wf.loadSnapshots_scoped h) fun s hs e => hmem ⟨s, hs, e⟩]
    split
    · next hin =>
      rw [covered]
      cases hcur : remote.current lane.scopeId with
      | none => rfl
      | some snapshot =>
        have hsc := (wf.current_scope hcur).1
        exact absurd ⟨snapshot, (wf.mem_loadSnapshots h).mpr (hsc ▸ ⟨hcur, hin⟩), hsc⟩ hmem
    · rfl

theorem segmentCursor_lt (wf : remote.WellFormed)
    (h : remote.loadSnapshots scopes = .ok snapshots) {cursors : Map Lane Nat}
    {segment : CatalogSegment} (hscope : inScopes scopes segment.scopeId) {n : Nat} :
    segmentCursor cursors (collectCursors (snapshots.flatMap CatalogSnapshot.cursors)) segment < n ↔
      reached cursors segment.lane < n ∧ remote.covered segment.lane < n := by
  rw [segmentCursor, wf.reached_snapshots h, if_pos (show inScopes scopes segment.lane.scopeId from
    hscope), Nat.max_lt]

end WellFormed

/-- Where an event is listed for a reader with these cursors. -/
inductive Lists (remote : Remote) (scopes : List String) (cursors : Map Lane Nat)
    (event : CatalogEvent) : Prop
  | snapshot {snapshot : CatalogSnapshot} (current : remote.current snapshot.scopeId = some snapshot)
      (scope : inScopes scopes snapshot.scopeId) (listed : event ∈ snapshot.events)
      (unread : reached cursors event.lane < event.counter)
  | segment {segment : CatalogSegment} (stored : segment ∈ remote.segments)
      (listed : event ∈ segment.events) (unread : reached cursors event.lane < event.counter)
      (beyond : remote.covered event.lane < event.counter)

namespace WellFormed

variable {remote : Remote}

theorem mem_scan_events (wf : remote.WellFormed) {request : CatalogScanRequest}
    {delta : CatalogDelta} (h : remote.scanCatalog request = .ok delta) {event : CatalogEvent} :
    event ∈ delta.events ↔ Lists remote request.scopes (collectCursors request.cursors) event ∧
      inScopes request.scopes event.resource.scopeId := by
  have hload := wf.loadSnapshots_eq request.scopes
  rw [scanCatalog, hload] at h
  obtain rfl := Except.ok.inj h
  simp only [List.mem_insertionSort, List.mem_append, List.mem_filter, List.mem_flatMap,
    decide_eq_true_eq]
  constructor
  · rintro (⟨⟨snapshot, hs, he⟩, hc, hin⟩ | ⟨segment, ⟨hs, hscope, -⟩, he, hc, hin⟩)
    · have hcur := (wf.mem_loadSnapshots hload).mp (List.mem_filter.mpr hs)
      exact ⟨.snapshot hcur.1 hcur.2 he hc, hin⟩
    · rw [gt_iff_lt, wf.segmentCursor_lt hload hscope, ← (wf.segment _ hs _ he).1] at hc
      exact ⟨.segment hs he hc.1 hc.2, hin⟩
  · rintro ⟨hl, hin⟩
    cases hl with
    | snapshot hcur hscope he hc =>
      exact Or.inl ⟨⟨_, List.mem_filter.mp ((wf.mem_loadSnapshots hload).mpr ⟨hcur, hscope⟩), he⟩,
        hc, hin⟩
    | @segment segment hs he hc hb =>
      have hwf := wf.segment _ hs _ he
      have hscope : inScopes request.scopes segment.scopeId := by
        rw [← show event.resource.scopeId = segment.scopeId from congrArg Lane.scopeId hwf.1]
        exact hin
      rw [hwf.1] at hc hb
      have hlt := (wf.segmentCursor_lt hload hscope).mpr ⟨hc, hb⟩
      exact Or.inr ⟨segment, ⟨hs, hscope, hlt.trans_le hwf.2⟩, he, hlt, hin⟩

/-- What a new cursor is bounded by: the old ones, and in the requested scopes also
the snapshots and the segments. -/
theorem scan_cursor_le (wf : remote.WellFormed) {request : CatalogScanRequest}
    {delta : CatalogDelta} (h : remote.scanCatalog request = .ok delta) {cursor : CatalogCursor}
    (hcursor : cursor ∈ delta.cursors) {n : Nat}
    (hold : reached (collectCursors request.cursors) cursor.lane ≤ n)
    (hnew : inScopes request.scopes cursor.scopeId →
      (∀ snapshot, remote.current cursor.scopeId = some snapshot →
        ∀ old ∈ snapshot.cursors, old.lane = cursor.lane → old.counter ≤ n) ∧
      ∀ segment ∈ remote.segments, segment.lane = cursor.lane → segment.lastCounter ≤ n) :
    cursor.counter ≤ n := by
  have hload := wf.loadSnapshots_eq request.scopes
  rw [scanCatalog, hload] at h
  obtain rfl := Except.ok.inj h
  rw [counter_eq_reached hcursor, reached_foldl_segments, reached_raiseCursors_le]
  refine ⟨⟨hold, ?_⟩, ?_⟩
  · intro old hc hl
    obtain ⟨snapshot, hs, hc⟩ := List.mem_flatMap.mp hc
    have hcur := (wf.mem_loadSnapshots hload).mp hs
    have hscope : snapshot.scopeId = cursor.scopeId :=
      ((wf.current_scope hcur.1).2 old hc).symm.trans (congrArg Lane.scopeId hl)
    rw [hscope] at hcur
    exact (hnew hcur.2).1 snapshot hcur.1 old hc hl
  · intro segment hs hl
    rw [List.mem_filter, decide_eq_true_eq] at hs
    have hscope : segment.scopeId = cursor.scopeId := congrArg Lane.scopeId hl
    exact (hnew (hscope ▸ hs.2.1)).2 segment hs.1 hl

theorem scanCatalog_ok (wf : remote.WellFormed) (request : CatalogScanRequest) :
    ∃ delta, remote.scanCatalog request = .ok delta := by
  rw [scanCatalog, wf.loadSnapshots_eq]
  exact ⟨_, rfl⟩

end WellFormed

end Remote

end Rollforward
