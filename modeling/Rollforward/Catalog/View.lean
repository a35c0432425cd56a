import Rollforward.Catalog.Effects
import Rollforward.Runtime.Catalog
import Std.Data.String.ToNat

/-! What a client may rely on about its own commits and cursors: everything it
holds was published, its cursors reach no further than what was published, and a
commit that its cursors pass is one it holds, unless a compaction gave it up. -/

namespace Rollforward

open Std Lib

theorem append_colon_inj {a b c d : List Char} (hb : ':' ∉ b) (hd : ':' ∉ d)
    (h : a ++ ':' :: b = c ++ ':' :: d) : a = c ∧ b = d := by
  rcases List.append_eq_append_iff.mp h with ⟨e, rfl, he⟩ | ⟨e, rfl, he⟩
  · cases e with
    | nil => simpa using he
    | cons x e =>
      simp only [List.cons_append, List.cons.injEq] at he
      exact absurd (he.2 ▸ List.mem_append_right e List.mem_cons_self) hb
  · cases e with
    | nil => simpa [eq_comm] using he
    | cons x e =>
      simp only [List.cons_append, List.cons.injEq] at he
      exact absurd (he.2 ▸ List.mem_append_right e List.mem_cons_self) hd

theorem colon_notMem_digits (n : Nat) : ':' ∉ (toString n).toList := by
  intro h
  have := Nat.isDigit_of_mem_toDigits (b := 10) (by decide) (by decide) (by simpa using h)
  exact absurd this (by decide)

section Signed

variable [Yrs]

/-- The id names its author and counter; what follows the last colon is a digest. -/
def Commit.Signed (x : Commit) : Prop :=
  ∃ digest : String, ':' ∉ digest.toList ∧
    x.id = x.author ++ ":" ++ toString x.clientCounter ++ ":" ++ digest

theorem Commit.Signed.inj {x y : Commit} (hx : x.Signed) (hy : y.Signed) (h : x.id = y.id) :
    x.author = y.author ∧ x.clientCounter = y.clientCounter := by
  obtain ⟨d, hd, hxd⟩ := hx
  obtain ⟨e, he, hye⟩ := hy
  rw [hxd, hye] at h
  replace h := congrArg String.toList h
  simp only [String.toList_append, List.append_assoc] at h
  have hsplit := append_colon_inj (a := x.author.toList ++ ':' :: (toString x.clientCounter).toList)
    (c := y.author.toList ++ ':' :: (toString y.clientCounter).toList) hd he (by simpa using h)
  have hlast := append_colon_inj (colon_notMem_digits _) (colon_notMem_digits _) hsplit.1
  exact ⟨String.toList_injective hlast.1, Nat.repr_inj.mp (String.toList_injective hlast.2)⟩

end Signed

variable [Crates]

/-- A commit of the catalog that no compaction has given up. -/
def Live (published : List Commit) (obsoleted : List String) (x : Commit) : Prop :=
  x ∈ published ∧ x.id ∉ obsoleted

/-- The largest counter published in a lane. -/
def top (published : List Commit) (lane : Lane) : Nat :=
  published.foldr (fun x n => if x.lane = lane then max x.clientCounter n else n) 0

theorem top_le {published : List Commit} {lane : Lane} {n : Nat} :
    top published lane ≤ n ↔ ∀ x ∈ published, x.lane = lane → x.clientCounter ≤ n := by
  induction published with
  | nil => simp [top]
  | cons x published ih =>
    rw [top, List.foldr_cons, ← top, List.forall_mem_cons, ← ih]
    split
    · next h => simp [h]
    · next h => simp [h]

theorem le_top {published : List Commit} {x : Commit} (hx : x ∈ published) :
    x.clientCounter ≤ top published x.lane := top_le.mp le_rfl x hx rfl

theorem top_append_le (published batch : List Commit) (lane : Lane) :
    top published lane ≤ top (published ++ batch) lane := by
  rw [top_le]
  rintro x hx rfl
  exact le_top (List.mem_append_left _ hx)

/-- Cursors that were published in their lanes. -/
def Bounded (published : List Commit) (cursors : List CatalogCursor) : Prop :=
  ∀ cursor ∈ cursors, cursor.counter ≤ top published cursor.lane

structure View (published : List Commit) (obsoleted : List String) (commits : CommitMap)
    (cursors : List CatalogCursor) : Prop where
  held : ∀ x ∈ commits, x ∈ published
  bounded : Bounded published cursors
  knows : ∀ x, Live published obsoleted x →
    x.clientCounter ≤ reached (collectCursors cursors) x.lane → x ∈ commits

/-- New commits continue the counters of their authors. -/
def Fresh (published batch : List Commit) : Prop :=
  ∀ x ∈ batch, 0 < x.clientCounter ∧
    ∀ y ∈ published, y.author = x.author → y.clientCounter < x.clientCounter

section View

variable {published batch : List Commit} {obsoleted : List String} {commits : CommitMap}
variable {cursors : List CatalogCursor}

theorem Bounded.append (h : Bounded published cursors) : Bounded (published ++ batch) cursors :=
  fun cursor hc => (h cursor hc).trans (top_append_le ..)

theorem Bounded.reached_le (h : Bounded published cursors) (lane : Lane) :
    reached (collectCursors cursors) lane ≤ top published lane := by
  by_cases h0 : reached (collectCursors cursors) lane = 0
  · omega
  · obtain ⟨cursor, hc, rfl, he⟩ := exists_cursor_of_reached h0
    exact he ▸ h cursor hc

theorem Bounded.raise_le (h : Bounded published cursors) {m : Map Lane Nat} {lane : Lane}
    (hm : reached m lane ≤ top published lane) :
    reached (raiseCursors m cursors) lane ≤ top published lane :=
  reached_raiseCursors_le.mpr ⟨hm, fun cursor hc hl => hl ▸ h cursor hc⟩

theorem Fresh.top_lt (hf : Fresh published batch) {x : Commit} (hx : x ∈ batch) :
    top published x.lane < x.clientCounter := by
  obtain ⟨hpos, hlt⟩ := hf x hx
  have hle : top published x.lane ≤ x.clientCounter - 1 := by
    rw [top_le]
    intro y hy hl
    exact Nat.le_sub_one_of_lt (hlt y hy (congrArg Lane.clientId hl))
  omega

theorem Live.of_append {O : List String} {x : Commit}
    (h : Live published (obsoleted ++ O) x) : Live published obsoleted x ∧ x.id ∉ O := by
  obtain ⟨hx, hn⟩ := h
  rw [List.mem_append, not_or] at hn
  exact ⟨⟨hx, hn.1⟩, hn.2⟩

namespace View

theorem empty : View [] obsoleted ∅ [] where
  held := by simp
  bounded := by simp [Bounded]
  knows x hx := by cases hx.1

theorem publish (h : View published obsoleted commits cursors) (hf : Fresh published batch) :
    View (published ++ batch) obsoleted commits cursors where
  held x hx := List.mem_append_left _ (h.held x hx)
  bounded := h.bounded.append
  knows x hx hc := by
    rcases List.mem_append.mp hx.1 with hp | hb
    · exact h.knows x ⟨hp, hx.2⟩ hc
    · exact absurd ((h.bounded.reached_le _).trans_lt (hf.top_lt hb)) (Nat.not_lt.mpr hc)

theorem obsolete (h : View published obsoleted commits cursors) (O : List String) :
    View published (obsoleted ++ O) commits cursors where
  held := h.held
  bounded := h.bounded
  knows x hx := h.knows x hx.of_append.1

theorem eraseAll (h : View published obsoleted commits cursors) (O : List String) :
    View published (obsoleted ++ O) (commits.eraseAll O) cursors where
  held x hx := h.held x (KeyedMap.mem_eraseAll.mp hx).1
  bounded := h.bounded
  knows x hx hc := KeyedMap.mem_eraseAll.mpr ⟨h.knows x hx.of_append.1 hc, hx.of_append.2⟩

variable (ids : ∀ x ∈ published, ∀ y ∈ published, y.id = x.id → y = x)
include ids

theorem mem_insertAll (h : View published obsoleted commits cursors) {xs : List Commit}
    (hxs : ∀ x ∈ xs, x ∈ published) {x : Commit} :
    x ∈ commits.insertAll xs ↔ x ∈ commits ∨ x ∈ xs :=
  KeyedMap.mem_insertAll (fun v hv u hu => ids v (hxs v hv) u (h.held u hu))
    fun v hv u hu => ids v (hxs v hv) u (hxs u hu)

theorem insertAll (h : View published obsoleted commits cursors) {xs : List Commit}
    (hxs : ∀ x ∈ xs, x ∈ published) :
    View published obsoleted (commits.insertAll xs) cursors where
  held x hx := by
    rcases (h.mem_insertAll ids hxs).mp hx with hx | hx
    · exact h.held x hx
    · exact hxs x hx
  bounded := h.bounded
  knows x hx hc := (h.mem_insertAll ids hxs).mpr (Or.inl (h.knows x hx hc))

end View

end View

/-- Where the catalog still shows a commit: in the current snapshot of its scope, or
in a segment, beyond what that snapshot covers. -/
inductive Listed (remote : Remote) (x : Commit) : Prop
  | snapshot {snapshot : CatalogSnapshot}
      (current : remote.current x.resource.scopeId = some snapshot)
      (listed : x.event ∈ snapshot.events)
  | segment {segment : CatalogSegment} (stored : segment ∈ remote.segments)
      (listed : x.event ∈ segment.events) (beyond : remote.covered x.lane < x.clientCounter)

/-- A reader that has not passed a listed commit is shown it. -/
theorem Listed.mem_scan {remote : Remote} (wf : remote.WellFormed) {x : Commit}
    (h : Listed remote x) {request : CatalogScanRequest} {delta : CatalogDelta}
    (hscan : remote.scanCatalog request = .ok delta)
    (hscope : inScopes request.scopes x.resource.scopeId)
    (hunread : reached (collectCursors request.cursors) x.lane < x.clientCounter) :
    x.event ∈ delta.events := by
  refine (wf.mem_scan_events hscan).mpr ⟨?_, hscope⟩
  cases h with
  | snapshot hcur hev =>
    have hs := (wf.current_scope hcur).1
    exact .snapshot (hs ▸ hcur) (hs ▸ hscope) hev hunread
  | segment hs hev hb => exact .segment hs hev hunread hb

/-- The catalog: its snapshots and segments reach no further than what was published,
its objects are the live commits, and it lists every one of them. -/
structure Sound (remote : Remote) (published : List Commit) (obsoleted : List String) : Prop where
  wf : remote.WellFormed
  objects : ∀ x, x ∈ remote.commits ↔ Live published obsoleted x
  snapshots : ∀ {scope : String} {dir : SnapshotDir} {g : Nat} {snapshot : CatalogSnapshot},
    remote.snapshots[scope]? = some dir → dir.generations[g]? = some snapshot →
    Bounded published snapshot.cursors
  segments : ∀ segment ∈ remote.segments, segment.lastCounter ≤ top published segment.lane
  listed : ∀ x, Live published obsoleted x → Listed remote x

/-- A scan whose commits are still to be loaded. -/
structure Scanned (published : List Commit) (obsoleted : List String) (s : RuntimeState)
    (delta : CatalogDelta) : Prop where
  bounded : Bounded published delta.cursors
  knows : ∀ x, Live published obsoleted x →
    x.clientCounter ≤ reached (raiseCursors (collectCursors s.cursors) delta.cursors) x.lane →
    x ∈ s.commits ∨ x.event ∈ delta.events

/-- The view a runtime state is. -/
abbrev RuntimeState.Sees (s : RuntimeState) (published : List Commit) (obsoleted : List String) :
    Prop := View published obsoleted s.commits s.cursors

section Refresh

variable {remote : Remote} {published batch : List Commit} {obsoleted : List String}
variable {s : RuntimeState} {delta : CatalogDelta}

theorem Sound.scan (hr : Sound remote published obsoleted) (hs : s.Sees published obsoleted)
    {scopes : List String} (h : remote.scanCatalog ⟨scopes, s.cursors⟩ = .ok delta) :
    Scanned published obsoleted s delta where
  bounded := by
    intro cursor hc
    refine hr.wf.scan_cursor_le h hc (hs.bounded.reached_le _) fun _ => ⟨?_, ?_⟩
    · intro snapshot hcur old hold hl
      obtain ⟨dir, g, hd, -, hg⟩ := Remote.current_eq_some.mp hcur
      exact hl ▸ hr.snapshots hd hg old hold
    · intro segment hseg hl
      exact hl ▸ hr.segments segment hseg
  knows := by
    intro x hx hc
    by_cases hknown : x.clientCounter ≤ reached (collectCursors s.cursors) x.lane
    · exact Or.inl (hs.knows x hx hknown)
    by_cases hscope : inScopes scopes x.resource.scopeId
    · exact Or.inr ((hr.listed x hx).mem_scan hr.wf h hscope (Nat.not_le.mp hknown))
    · -- outside the requested scopes no cursor moves
      have hle : reached (raiseCursors (collectCursors s.cursors) delta.cursors) x.lane ≤
          reached (collectCursors s.cursors) x.lane := by
        refine reached_raiseCursors_le.mpr ⟨le_rfl, fun cursor hcur hl => ?_⟩
        refine hr.wf.scan_cursor_le h hcur (by rw [hl]) fun hin => absurd ?_ hscope
        rwa [← show cursor.scopeId = x.resource.scopeId from congrArg Lane.scopeId hl]
      exact absurd (hc.trans hle) hknown

theorem mem_loadCommits {ids : List String} {commits : List Commit}
    (h : remote.loadCommits ids = .ok commits) :
    (∀ x ∈ commits, x ∈ remote.commits ∧ x.id ∈ ids) ∧
      ∀ id ∈ ids, ∃ x ∈ commits, x.id = id ∧ x ∈ remote.commits := by
  constructor
  · intro x hx
    obtain ⟨id, hid, hx⟩ := exists_of_mem_mapM h hx
    cases hg : remote.commits.get? id with
    | none => simp [hg] at hx
    | some y =>
      obtain rfl : y = x := by simpa [hg] using hx
      exact ⟨KeyedMap.mem_of_get? hg, (KeyedMap.key_of_get? hg).symm ▸ hid⟩
  · intro id hid
    obtain ⟨x, hx, hf⟩ := mapM_mem h hid
    cases hg : remote.commits.get? id with
    | none => simp [hg] at hf
    | some y =>
      obtain rfl : y = x := by simpa [hg] using hf
      exact ⟨y, hx, KeyedMap.key_of_get? hg, KeyedMap.mem_of_get? hg⟩

theorem loadCommits_ok {ids : List String} (h : ∀ id ∈ ids, (remote.commits.get? id).isSome) :
    ∃ commits, remote.loadCommits ids = .ok commits := by
  refine exists_mapM fun id hid => ?_
  obtain ⟨x, hx⟩ := Option.isSome_iff_exists.mp (h id hid)
  exact ⟨x, by rw [hx]⟩

theorem Sound.mem_absorb (hr : Sound remote published obsoleted)
    (ids : ∀ x ∈ published, ∀ y ∈ published, y.id = x.id → y = x) (hs : s.Sees published obsoleted)
    {commits : List Commit} (h : remote.loadCommits (s.missingIds delta) = .ok commits)
    {x : Commit} : x ∈ (s.absorb commits delta).commits ↔ x ∈ s.commits ∨ x ∈ commits :=
  hs.mem_insertAll ids fun y hy => ((hr.objects y).mp ((mem_loadCommits h).1 y hy).1).1

/-- What was shown and loaded is held. -/
theorem Sound.mem_absorb_of_event (hr : Sound remote published obsoleted)
    (ids : ∀ x ∈ published, ∀ y ∈ published, y.id = x.id → y = x) (hs : s.Sees published obsoleted)
    {commits : List Commit} (h : remote.loadCommits (s.missingIds delta) = .ok commits)
    {x : Commit} (hx : x ∈ published) (hev : x.event ∈ delta.events) :
    x ∈ (s.absorb commits delta).commits := by
  rw [hr.mem_absorb ids hs h]
  cases hg : s.commits.get? x.id with
  | some y =>
    have hy := KeyedMap.mem_of_get? hg
    exact Or.inl (ids x hx y (hs.held y hy) (KeyedMap.key_of_get? hg) ▸ hy)
  | none =>
    have hmiss : x.id ∈ s.missingIds delta :=
      List.mem_map.mpr ⟨x.event, List.mem_filter.mpr ⟨hev, by simp [Commit.event, hg]⟩, rfl⟩
    obtain ⟨y, hy, hid, hobj⟩ := (mem_loadCommits h).2 _ hmiss
    exact Or.inr (ids x hx y ((hr.objects y).mp hobj).1 hid ▸ hy)

/-- Loading what a scan showed turns it into the view of the raised cursors. -/
theorem Scanned.absorb (hd : Scanned published obsoleted s delta)
    (hr : Sound remote published obsoleted) (hs : s.Sees published obsoleted)
    (ids : ∀ x ∈ published, ∀ y ∈ published, y.id = x.id → y = x) {commits : List Commit}
    (h : remote.loadCommits (s.missingIds delta) = .ok commits) :
    (s.absorb commits delta).Sees published obsoleted := by
  refine ⟨fun x hx => ?_, ?_, ?_⟩
  · rcases (hr.mem_absorb ids hs h).mp hx with hx | hx
    · exact hs.held x hx
    · exact ((hr.objects x).mp ((mem_loadCommits h).1 x hx).1).1
  · intro cursor hc
    rw [counter_eq_reached hc]
    exact hd.bounded.raise_le (hs.bounded.reached_le _)
  · intro x hx hc
    rw [RuntimeState.absorb, reached_collect_cursorList] at hc
    rcases hd.knows x hx hc with hk | hev
    · exact (hr.mem_absorb ids hs h).mpr (Or.inl hk)
    · exact hr.mem_absorb_of_event ids hs h hx.1 hev

theorem Scanned.publish (hd : Scanned published obsoleted s delta)
    (hs : s.Sees published obsoleted) (hf : Fresh published batch) :
    Scanned (published ++ batch) obsoleted s delta where
  bounded := hd.bounded.append
  knows := by
    intro x hx hc
    rcases List.mem_append.mp hx.1 with hp | hb
    · exact hd.knows x ⟨hp, hx.2⟩ hc
    · have hle := hd.bounded.raise_le (hs.bounded.reached_le x.lane)
      exact absurd (hle.trans_lt (hf.top_lt hb)) (Nat.not_lt.mpr hc)

theorem Scanned.obsolete (hd : Scanned published obsoleted s delta) (O : List String) :
    Scanned published (obsoleted ++ O) s delta where
  bounded := hd.bounded
  knows x hx := hd.knows x hx.of_append.1

end Refresh

section Catalog

variable {remote : Remote} {published : List Commit} {obsoleted : List String}

theorem Sound.empty : Sound {} [] [] where
  wf := ⟨by simp, by simp, by simp⟩
  objects x := by simp [Live]
  snapshots := by simp
  segments := by simp
  listed x hx := by cases hx.1

/-- Packs and acknowledgements are not part of the catalog. -/
theorem Sound.congr (hr : Sound remote published obsoleted) {remote' : Remote}
    (hcommits : remote'.commits = remote.commits) (hsegments : remote'.segments = remote.segments)
    (hsnapshots : remote'.snapshots = remote.snapshots) : Sound remote' published obsoleted := by
  have hcurrent : remote'.current = remote.current := by
    funext scope
    rw [Remote.current, hsnapshots, ← Remote.current]
  have hcovered : remote'.covered = remote.covered := by
    funext lane
    rw [Remote.covered, hcurrent, ← Remote.covered]
  refine ⟨⟨hsnapshots ▸ hr.wf.latest, hsnapshots ▸ hr.wf.generation, hsegments ▸ hr.wf.segment⟩,
    hcommits ▸ hr.objects, hsnapshots ▸ hr.snapshots, hsegments ▸ hr.segments, fun x hx => ?_⟩
  cases hr.listed x hx with
  | snapshot hc hev => exact .snapshot (hcurrent ▸ hc) hev
  | segment hs hev hb => exact .segment (hsegments ▸ hs) hev (hcovered ▸ hb)

theorem Sound.covered_le (hr : Sound remote published obsoleted) (lane : Lane) :
    remote.covered lane ≤ top published lane := by
  rw [Remote.covered]
  cases hcur : remote.current lane.scopeId with
  | none => simp
  | some snapshot =>
    obtain ⟨dir, g, hd, -, hg⟩ := Remote.current_eq_some.mp hcur
    exact (hr.snapshots hd hg).reached_le lane

theorem Sound.publish (hr : Sound remote published obsoleted) {batch : CommitBatch}
    (hf : Fresh published batch.commits)
    (ids : ∀ x ∈ published ++ batch.commits, ∀ y ∈ published ++ batch.commits, y.id = x.id → y = x)
    (hnew : ∀ x ∈ batch.commits, x.id ∉ obsoleted) :
    Sound (remote.commitBatch batch) (published ++ batch.commits) obsoleted where
  wf := hr.wf.commitBatch batch
  objects := by
    intro x
    rw [Remote.commitBatch, mem_foldl_writeCommit, hr.objects, Live, Live, List.mem_append,
      or_and_right]
    · refine or_congr_right ⟨fun h => ⟨h, hnew x h⟩, And.left⟩
    · intro x hx y hy
      exact ids x (List.mem_append_right _ hx) y (List.mem_append_left _ ((hr.objects y).mp hy).1)
    · intro x hx y hy
      exact ids x (List.mem_append_right _ hx) y (List.mem_append_right _ hy)
  snapshots hd hg := (hr.snapshots hd hg).append
  segments := by
    intro segment hs
    rcases Remote.mem_segments_commitBatch.mp hs with hs | hs
    · exact (hr.segments segment hs).trans (top_append_le ..)
    · obtain ⟨x, hx, hl, hc⟩ := (Remote.batchSegment_spec hs).2
      rw [hc, ← hl]
      exact le_top (List.mem_append_right _ hx)
  listed := by
    intro x hx
    rcases List.mem_append.mp hx.1 with hp | hb
    · cases hr.listed x ⟨hp, hx.2⟩ with
      | snapshot hcur hev => exact .snapshot hcur hev
      | segment hs hev hbey =>
        exact .segment (Remote.mem_segments_commitBatch.mpr (Or.inl hs)) hev hbey
    · obtain ⟨segment, hs, hev⟩ := Remote.exists_batchSegment hb
      refine .segment (Remote.mem_segments_commitBatch.mpr (Or.inr hs)) hev ?_
      exact (hr.covered_le x.lane).trans_lt (hf.top_lt hb)

/-- The compaction of a scope that a client asks for from its own state. -/
def RuntimeState.compaction (s : RuntimeState) (scope : String) (generation : Nat)
    (obsolete : List String) : CatalogCompaction where
  snapshot := s.catalogSnapshot scope generation obsolete
  obsoleteCommitIds := obsolete

/-- The compactor is not behind the snapshot it replaces: what only that snapshot
still lists, it holds itself.  And the generation number is a new one. -/
structure UpToDate (remote : Remote) (obsoleted : List String) (s : RuntimeState)
    (scope : String) (generation : Nat) : Prop where
  unused : ∀ dir, remote.snapshots[scope]? = some dir → dir.generations[generation]? = none
  holds : ∀ snapshot, remote.current scope = some snapshot → ∀ event ∈ snapshot.events,
    event.commitId ∉ obsoleted → (s.commits.get? event.commitId).isSome ∨
      ∃ segment ∈ remote.segments, event ∈ segment.events

section Compact

variable {s : RuntimeState} {scope : String} {generation : Nat} {O : List String}

theorem reached_catalogSnapshot (lane : Lane) :
    reached (collectCursors (s.catalogSnapshot scope generation O).cursors) lane =
      if lane.scopeId = scope then reached (collectCursors s.cursors) lane else 0 := by
  rw [reached_collectCursors, RuntimeState.catalogSnapshot, List.filter_filter]
  split
  · next h =>
    rw [reached_collectCursors]
    congr 4
    funext cursor
    by_cases hl : cursor.lane = lane
    · have : cursor.scopeId = scope := (congrArg Lane.scopeId hl).trans h
      simp [hl, this]
    · simp [hl]
  · next h =>
    rw [List.filter_eq_nil_iff.mpr]
    · rfl
    · intro cursor _ hc
      simp only [Bool.and_eq_true, decide_eq_true_eq] at hc
      exact h (hc.1 ▸ hc.2)

theorem mem_catalogSnapshot {x : Commit} (hx : x ∈ s.commits) (hscope : x.resource.scopeId = scope)
    (hO : x.id ∉ O) : x.event ∈ (s.catalogSnapshot scope generation O).events :=
  List.mem_map.mpr ⟨x, List.mem_filter.mpr ⟨KeyedMap.mem_values.mpr hx, by simp [hscope, hO]⟩, rfl⟩

theorem UpToDate.current_compactCatalog (hup : UpToDate remote obsoleted s scope generation) :
    (remote.compactCatalog (s.compaction scope generation O)).current scope =
      some (s.catalogSnapshot scope generation O) :=
  Remote.current_compactCatalog hup.unused

/-- A segment that lists a commit beyond the new snapshot is not removed. -/
theorem Sound.listed_compactCatalog (hr : Sound remote published obsoleted)
    {compaction : CatalogCompaction} {segment : CatalogSegment} {x : Commit}
    (hseg : segment ∈ remote.segments) (hev : x.event ∈ segment.events)
    (hunread : reached (collectCursors compaction.snapshot.cursors) x.lane < x.clientCounter)
    (hcovered : (remote.compactCatalog compaction).covered x.lane < x.clientCounter) :
    Listed (remote.compactCatalog compaction) x := by
  have hwf := hr.wf.segment segment hseg _ hev
  refine .segment (Remote.mem_segments_compactCatalog.mpr ⟨hseg, ?_⟩) hev hcovered
  rw [← hwf.1]
  exact hunread.trans_le hwf.2

theorem Sound.compact (hr : Sound remote published obsoleted) (hs : s.Sees published obsoleted)
    (ids : ∀ x ∈ published, ∀ y ∈ published, y.id = x.id → y = x)
    (hpos : ∀ x ∈ published, 0 < x.clientCounter)
    (hup : UpToDate remote obsoleted s scope generation) :
    Sound (remote.compactCatalog (s.compaction scope generation O)) published (obsoleted ++ O) where
  wf := hr.wf.compactCatalog fun cursor hc => of_decide_eq_true (List.mem_filter.mp hc).2
  objects := by
    intro x
    rw [Remote.mem_commits_compactCatalog, hr.objects, Live, Live, List.mem_append, not_or,
      and_assoc]
    rfl
  snapshots := by
    intro sc dir g snapshot hd hg
    simp only [Remote.compactCatalog, Map.get?_insert] at hd
    split at hd
    · next hsc =>
      obtain rfl := Option.some.inj hd
      rw [ExtTreeMap.getElem?_insertIfNew] at hg
      split at hg
      · obtain rfl := Option.some.inj hg
        exact fun cursor hc => hs.bounded cursor (List.mem_filter.mp hc).1
      · cases hold : remote.snapshots[scope]? with
        | none => simp [RuntimeState.compaction, RuntimeState.catalogSnapshot, hold] at hg
        | some dir =>
          simp only [RuntimeState.compaction, RuntimeState.catalogSnapshot, hold,
            Option.getD_some] at hg
          exact hr.snapshots hold hg
    · exact hr.snapshots hd hg
  segments segment h := hr.segments segment (Remote.mem_segments_compactCatalog.mp h).1
  listed := by
    intro x hx
    obtain ⟨hlive, hO⟩ := hx.of_append
    by_cases hscope : x.resource.scopeId = scope
    · by_cases hheld : x ∈ s.commits
      · subst hscope
        exact .snapshot hup.current_compactCatalog
          (mem_catalogSnapshot hheld rfl hO)
      -- not held, so beyond the compactor's cursors: only a segment can list it
      · have hunread : reached (collectCursors (s.catalogSnapshot scope generation O).cursors)
            x.lane < x.clientCounter := by
          rw [reached_catalogSnapshot, if_pos (show x.lane.scopeId = scope from hscope)]
          exact Nat.not_le.mp fun hc => hheld (hs.knows x hlive hc)
        have hcovered : (remote.compactCatalog (s.compaction scope generation O)).covered x.lane <
            x.clientCounter := by
          subst hscope
          rwa [Remote.covered, show x.lane.scopeId = x.resource.scopeId from rfl,
            hup.current_compactCatalog]
        cases hr.listed x hlive with
        | snapshot hc hev =>
          rcases hup.holds _ (hscope ▸ hc) _ hev hlive.2 with hsome | ⟨segment, hseg, hev⟩
          · obtain ⟨y, hy⟩ := Option.isSome_iff_exists.mp hsome
            have hmem := KeyedMap.mem_of_get? hy
            have := ids x hlive.1 y (hs.held y hmem) (KeyedMap.key_of_get? hy)
            exact absurd (this ▸ hmem) hheld
          · exact hr.listed_compactCatalog hseg hev hunread hcovered
        | segment hseg hev _ => exact hr.listed_compactCatalog hseg hev hunread hcovered
    · -- another scope: its snapshot and its segments stay
      have hcur : (remote.compactCatalog (s.compaction scope generation O)).current
          x.resource.scopeId = remote.current x.resource.scopeId :=
        Remote.current_compactCatalog_of_ne (Ne.symm hscope)
      cases hr.listed x hlive with
      | snapshot hc hev => exact .snapshot (hcur.trans hc) hev
      | segment hseg hev hb =>
        refine hr.listed_compactCatalog hseg hev ?_ ?_
        · rw [RuntimeState.compaction, reached_catalogSnapshot,
            if_neg (show x.lane.scopeId ≠ scope from hscope)]
          exact hpos x hlive.1
        · rwa [Remote.covered, show x.lane.scopeId = x.resource.scopeId from rfl, hcur]

end Compact

end Catalog

end Rollforward
