import Rollforward.Catalog.Refinement
import Rollforward.Sample

/-! `compact_catalog`, one file operation after the other.  Between removing `latest.json`
and putting the new one in its place, a scope has no snapshot at all. -/

namespace Rollforward

open Std Lib

section Steps

variable [Crates]

/-- The file operations of `compact_catalog`.  Temporary files of snapshots are read by
nobody. -/
inductive CompactOp
  | createDir
  | writeTemp
  | renameSnapshot
  | removeLatest
  | renameLatest
  | removeSegment (segment : CatalogSegment)
  | removeCommit (id : String)

namespace Remote

/-- The snapshots of one scope. -/
def dirOf (remote : Remote) (scope : String) : SnapshotDir := remote.snapshots[scope]?.getD {}

def editDir (remote : Remote) (scope : String) (f : SnapshotDir → SnapshotDir) : Remote :=
  { remote with snapshots := remote.snapshots.insert scope (f (remote.dirOf scope)) }

def compactStep (snapshot : CatalogSnapshot) (remote : Remote) : CompactOp → Remote
  | .createDir => remote.editDir snapshot.scopeId id
  | .writeTemp => remote
  | .renameSnapshot => remote.editDir snapshot.scopeId fun dir =>
      { dir with generations := dir.generations.insert snapshot.generation snapshot }
  | .removeLatest => remote.editDir snapshot.scopeId fun dir => { dir with latest := none }
  | .renameLatest => remote.editDir snapshot.scopeId fun dir =>
      { dir with latest := some snapshot.generation }
  | .removeSegment segment =>
    { remote with segments := remote.segments.filter fun other => other ≠ segment }
  | .removeCommit id => { remote with commits := remote.commits.erase id }

/-- What is written until the new snapshot is complete. -/
def prepareOps (remote : Remote) (snapshot : CatalogSnapshot) : List CompactOp :=
  let written := (remote.dirOf snapshot.scopeId).generations[snapshot.generation]?.isSome
  [.createDir] ++ (if written then [] else [.writeTemp, .renameSnapshot]) ++ [.writeTemp]

/-- A pointer that is there is removed first. -/
def removeOps (remote : Remote) (snapshot : CatalogSnapshot) : List CompactOp :=
  if (remote.dirOf snapshot.scopeId).latest.isSome then [.removeLatest] else []

/-- The segments that the new snapshot covers and the commits that are given up. -/
def cleanOps (remote : Remote) (compaction : CatalogCompaction) : List CompactOp :=
  let covered := collectCursors compaction.snapshot.cursors
  ((remote.segments.filter fun segment => segment.lastCounter ≤ reached covered segment.lane).map
    .removeSegment) ++ compaction.obsoleteCommitIds.map .removeCommit

def compactOps (remote : Remote) (compaction : CatalogCompaction) : List CompactOp :=
  remote.prepareOps compaction.snapshot ++ (remote.removeOps compaction.snapshot ++
    (.renameLatest :: remote.cleanOps compaction))

/-- The call is cut after so many operations. -/
def compactUntil (remote : Remote) (compaction : CatalogCompaction) (cut : Nat) : Remote :=
  ((remote.compactOps compaction).take cut).foldl (compactStep compaction.snapshot) remote

end Remote

end Steps

section Stages

variable [Crates] {remote : Remote} {compaction : CatalogCompaction} {scope : String}

namespace Remote

@[simp] theorem editDir_editDir (f g : SnapshotDir → SnapshotDir) :
    (remote.editDir scope f).editDir scope g = remote.editDir scope (g ∘ f) := by
  simp only [editDir, dirOf, Map.get?_insert, if_true, Option.getD_some, Function.comp_apply]
  congr 1
  apply ExtTreeMap.ext_getElem?
  intro k
  simp only [Map.get?_insert]
  split <;> rfl

theorem foldl_removeSegment {snapshot : CatalogSnapshot} {segments : List CatalogSegment} :
    (segments.map CompactOp.removeSegment).foldl (compactStep snapshot) remote =
      { remote with segments := remote.segments.filter fun other => other ∉ segments } := by
  induction segments generalizing remote with
  | nil => simp
  | cons segment segments ih =>
    rw [List.map_cons, List.foldl_cons, ih]
    simp only [compactStep, List.filter_filter]
    congr 1
    apply List.filter_congr
    intro other _
    simp [Bool.and_comm]

theorem foldl_removeCommit {snapshot : CatalogSnapshot} {ids : List String} :
    (ids.map CompactOp.removeCommit).foldl (compactStep snapshot) remote =
      { remote with commits := remote.commits.eraseAll ids } := by
  induction ids generalizing remote with
  | nil => rfl
  | cons id ids ih =>
    rw [List.map_cons, List.foldl_cons, ih]
    rfl

theorem editDir_congr {f g : SnapshotDir → SnapshotDir}
    (h : f (remote.dirOf scope) = g (remote.dirOf scope)) :
    remote.editDir scope f = remote.editDir scope g := by
  rw [editDir, editDir, h]

theorem foldl_prepareOps {snapshot : CatalogSnapshot} :
    (remote.prepareOps snapshot).foldl (compactStep snapshot) remote =
      remote.editDir snapshot.scopeId fun dir =>
        { dir with generations := dir.generations.insertIfNew snapshot.generation snapshot } := by
  simp only [prepareOps]
  split
  · next hused =>
    obtain ⟨old, hold⟩ := Option.isSome_iff_exists.mp hused
    refine editDir_congr ?_
    generalize remote.dirOf snapshot.scopeId = dir at hold
    obtain ⟨generations, latest⟩ := dir
    rw [id]
    congr 1
    apply ExtTreeMap.ext_getElem?
    intro k
    rw [Map.get?_insertIfNew]
    split
    · next hk => rw [← hk, hold, Option.getD_some]
    · rfl
  · next hunused =>
    simp only [List.cons_append, List.nil_append, List.foldl_cons, List.foldl_nil, compactStep,
      editDir_editDir]
    refine editDir_congr ?_
    simp only [Function.comp_apply, id]
    congr 1
    apply ExtTreeMap.ext_getElem?
    intro k
    rw [Map.get?_insert, Map.get?_insertIfNew]
    split
    · next hk =>
      rw [← hk, Option.not_isSome_iff_eq_none.mp hunused, Option.getD_none]
    · rfl

/-- The pointer is in place. -/
theorem foldl_renameLatest {snapshot : CatalogSnapshot} :
    (remote.prepareOps snapshot ++ (remote.removeOps snapshot ++ [CompactOp.renameLatest])).foldl
      (compactStep snapshot) remote = remote.editDir snapshot.scopeId fun dir =>
        { generations := dir.generations.insertIfNew snapshot.generation snapshot
          latest := some snapshot.generation } := by
  rw [List.foldl_append, foldl_prepareOps, removeOps]
  split
  · simp only [List.cons_append, List.nil_append, List.foldl_cons, List.foldl_nil, compactStep,
      editDir_editDir]
    rfl
  · simp only [List.nil_append, List.foldl_cons, List.foldl_nil, compactStep, editDir_editDir]
    rfl

/-- Cut after its last operation the call does what it does as a whole. -/
theorem compactUntil_all {cut : Nat} (h : (remote.compactOps compaction).length ≤ cut) :
    remote.compactUntil compaction cut = remote.compactCatalog compaction := by
  rw [compactUntil, List.take_of_length_le h, compactOps,
    show ∀ ops, CompactOp.renameLatest :: ops = [.renameLatest] ++ ops from fun _ => rfl,
    ← List.append_assoc, ← List.append_assoc, List.append_assoc (remote.prepareOps _),
    List.foldl_append, foldl_renameLatest, cleanOps, List.foldl_append, foldl_removeSegment,
    foldl_removeCommit, compactCatalog]
  congr 1
  apply List.filter_congr
  intro segment (hs : segment ∈ remote.segments)
  simp only [List.mem_filter, hs, true_and, decide_eq_true_eq]

/-- The files of the scope once the new snapshot is written. -/
def extended (remote : Remote) (snapshot : CatalogSnapshot) : Map Nat CatalogSnapshot :=
  (remote.dirOf snapshot.scopeId).generations.insertIfNew snapshot.generation snapshot

/-- Cut between removing the old pointer and putting the new one in its place. -/
theorem compactUntil_gap (h : (remote.dirOf compaction.snapshot.scopeId).latest.isSome) :
    remote.compactUntil compaction ((remote.prepareOps compaction.snapshot).length + 1) =
      remote.editDir compaction.snapshot.scopeId fun _ =>
        { generations := remote.extended compaction.snapshot, latest := none } := by
  rw [compactUntil, compactOps, removeOps, if_pos h, List.take_length_add_append,
    List.foldl_append, foldl_prepareOps]
  simp only [List.cons_append, List.take_succ_cons, List.take_zero, List.foldl_cons, List.foldl_nil,
    compactStep, editDir_editDir]
  exact editDir_congr rfl

/-- How the call leaves the folder when it is cut: with the old pointer, without a pointer,
or with the new one. -/
inductive Stage (remote : Remote) (compaction : CatalogCompaction) : Remote → Prop
  | start : Stage remote compaction remote
  | old (generations : Map Nat CatalogSnapshot)
      (files : generations = (remote.dirOf compaction.snapshot.scopeId).generations ∨
        generations = remote.extended compaction.snapshot) :
      Stage remote compaction (remote.editDir compaction.snapshot.scopeId fun dir =>
        { generations, latest := dir.latest })
  | gap (pointed : (remote.dirOf compaction.snapshot.scopeId).latest.isSome) :
      Stage remote compaction (remote.editDir compaction.snapshot.scopeId fun _ =>
        { generations := remote.extended compaction.snapshot, latest := none })
  | new (segments : List CatalogSegment) (commits : CommitMap)
      (within : ∀ segment ∈ segments, segment ∈ remote.segments)
      (kept : ∀ segment ∈ remote.segments, segment ∈ segments ∨
        segment.lastCounter ≤ reached (collectCursors compaction.snapshot.cursors) segment.lane) :
      Stage remote compaction { remote.editDir compaction.snapshot.scopeId fun _ =>
        { generations := remote.extended compaction.snapshot
          latest := some compaction.snapshot.generation } with segments, commits }

theorem stage_prepare (cut : Nat) : Stage remote compaction
    (((remote.prepareOps compaction.snapshot).take cut).foldl (compactStep compaction.snapshot)
      remote) := by
  have hold : Stage remote compaction (remote.editDir compaction.snapshot.scopeId id) := by
    have h : Stage remote compaction _ := .old _ (Or.inl rfl)
    rwa [editDir_congr (g := id)] at h
    rfl
  have hnew : Stage remote compaction (remote.editDir compaction.snapshot.scopeId fun dir =>
      { dir with generations :=
          dir.generations.insertIfNew compaction.snapshot.generation compaction.snapshot }) := by
    have h : Stage remote compaction _ := .old _ (Or.inr rfl)
    rwa [editDir_congr] at h
    rfl
  have hall : (remote.prepareOps compaction.snapshot).foldl _ remote = _ := foldl_prepareOps
  simp only [prepareOps] at hall ⊢
  split
  · next hused =>
    rcases cut with _ | _ | cut
    · exact .start
    · exact hold
    · rw [List.take_of_length_le (by simp)]
      exact hold
  · next hunused =>
    rw [if_neg hunused] at hall
    rcases cut with _ | _ | _ | _ | cut
    · exact .start
    · exact hold
    · exact hold
    · exact hall ▸ hnew
    · rw [List.take_of_length_le (by simp), hall]
      exact hnew

/-- Cut while it cleans up. -/
theorem stage_clean (n : Nat) : Stage remote compaction
    (((remote.prepareOps compaction.snapshot ++ (remote.removeOps compaction.snapshot ++
      [CompactOp.renameLatest])) ++ (remote.cleanOps compaction).take n).foldl
        (compactStep compaction.snapshot) remote) := by
  have hpointer : _ = remote.editDir compaction.snapshot.scopeId fun _ =>
      { generations := remote.extended compaction.snapshot
        latest := some compaction.snapshot.generation } :=
    foldl_renameLatest.trans (editDir_congr rfl)
  rw [List.foldl_append, hpointer, cleanOps, List.take_append, List.foldl_append, ← List.map_take,
    ← List.map_take, foldl_removeSegment, foldl_removeCommit]
  refine .new (remote.segments.filter fun other => other ∉ (remote.segments.filter fun segment =>
    segment.lastCounter ≤ reached (collectCursors compaction.snapshot.cursors) segment.lane).take n)
    _ (fun segment hs => (List.mem_filter.mp hs).1) fun segment hs => ?_
  by_cases hcov : segment.lastCounter ≤
      reached (collectCursors compaction.snapshot.cursors) segment.lane
  · exact Or.inr hcov
  · refine Or.inl (List.mem_filter.mpr ⟨hs, decide_eq_true fun hin => hcov ?_⟩)
    exact of_decide_eq_true (List.mem_filter.mp (List.mem_of_mem_take hin)).2

/-- A cut call leaves the folder in one of the stages. -/
theorem compactUntil_stage (cut : Nat) :
    Stage remote compaction (remote.compactUntil compaction cut) := by
  rcases Nat.lt_or_ge (remote.prepareOps compaction.snapshot).length cut with hlt | hle
  swap
  · rw [compactUntil, compactOps, List.take_append_of_le_length hle]
    exact stage_prepare cut
  by_cases hgap : (remote.dirOf compaction.snapshot.scopeId).latest.isSome ∧
      cut = (remote.prepareOps compaction.snapshot).length + 1
  · rw [hgap.2, compactUntil_gap hgap.1]
    exact .gap hgap.1
  -- the pointer is in place
  have hlen : (remote.removeOps compaction.snapshot).length +
      (remote.prepareOps compaction.snapshot).length < cut := by
    rw [removeOps]
    split
    · next hpointed =>
      have hne : cut ≠ (remote.prepareOps compaction.snapshot).length + 1 :=
        fun e => hgap ⟨hpointed, e⟩
      simp only [List.length_cons, List.length_nil]
      omega
    · simpa using hlt
  have hops : remote.compactOps compaction = (remote.prepareOps compaction.snapshot ++
      (remote.removeOps compaction.snapshot ++ [CompactOp.renameLatest])) ++
        remote.cleanOps compaction := by
    rw [compactOps]
    simp only [List.append_assoc, List.cons_append, List.nil_append]
  rw [compactUntil, hops, List.take_append, List.take_of_length_le]
  · exact stage_clean _
  · simp only [List.length_append, List.length_cons, List.length_nil]
    omega

end Remote

end Stages

section Discovery

variable [Crates] {remote : Remote} {compaction : CatalogCompaction} {scopes : List String}
variable {scope : String} {event : CatalogEvent}

namespace Remote

/-- A catalog as the clients build it: what a snapshot lists belongs to its scope. -/
structure Filed (remote : Remote) : Prop extends remote.WellFormed where
  placed : ∀ {scope : String} {dir : SnapshotDir} {g : Nat} {snapshot : CatalogSnapshot},
    remote.snapshots[scope]? = some dir → dir.generations[g]? = some snapshot →
    ∀ event ∈ snapshot.events, event.resource.scopeId = scope

/-- A client without cursors is told of the event. -/
def Discovers (remote : Remote) (scopes : List String) (event : CatalogEvent) : Prop :=
  ∃ delta, remote.scanCatalog ⟨scopes, []⟩ = .ok delta ∧ event ∈ delta.events

instance : Decidable (remote.Discovers scopes event) :=
  match h : remote.scanCatalog ⟨scopes, []⟩ with
  | .ok delta => decidable_of_iff (event ∈ delta.events) <| by simp [Discovers, h]
  | .error _ => .isFalse <| by simp [Discovers, h]

/-- The compaction is of a client that has read the whole catalog: it lists what can be
discovered in the scope and is not given up, with the cursors of a scan. -/
structure Comprehensive (remote : Remote) (compaction : CatalogCompaction) : Prop where
  placed : ∀ event ∈ compaction.snapshot.events,
    event.resource.scopeId = compaction.snapshot.scopeId
  events : ∀ event, remote.Discovers [] event →
    event.resource.scopeId = compaction.snapshot.scopeId →
    event.commitId ∉ compaction.obsoleteCommitIds → event ∈ compaction.snapshot.events
  cursors : ∃ request delta, inScopes request.scopes compaction.snapshot.scopeId ∧
    remote.scanCatalog request = .ok delta ∧ compaction.snapshot.cursors =
      delta.cursors.filter fun cursor => cursor.scopeId = compaction.snapshot.scopeId

theorem WellFormed.discovers_iff (wf : remote.WellFormed) :
    remote.Discovers scopes event ↔
      Lists remote scopes ∅ event ∧ inScopes scopes event.resource.scopeId := by
  obtain ⟨delta, hscan⟩ := wf.scanCatalog_ok ⟨scopes, []⟩
  refine Iff.trans ?_ (wf.mem_scan_events hscan)
  constructor
  · rintro ⟨delta', hscan', he⟩
    rwa [Except.ok.inj (hscan.symm.trans hscan')]
  · exact fun he => ⟨delta, hscan, he⟩

/-- A scan leaves no segment of its scopes behind. -/
theorem WellFormed.le_scan_cursors (wf : remote.WellFormed) {request : CatalogScanRequest}
    {delta : CatalogDelta} (h : remote.scanCatalog request = .ok delta)
    {segment : CatalogSegment} (hs : segment ∈ remote.segments)
    (hscope : inScopes request.scopes segment.scopeId) :
    segment.lastCounter ≤ reached (collectCursors delta.cursors) segment.lane := by
  have hload := wf.loadSnapshots_eq request.scopes
  rw [scanCatalog, hload] at h
  obtain rfl := Except.ok.inj h
  rw [reached_collect_cursorList]
  apply le_of_forall_ge
  intro n hn
  rw [reached_foldl_segments, reached_raiseCursors_le] at hn
  generalize (List.filter _ _ : List CatalogSnapshot) = snapshots at hn
  obtain ⟨⟨hold, hraised⟩, hnew⟩ := hn
  let known := collectCursors (snapshots.flatMap CatalogSnapshot.cursors)
  by_cases hlt : segmentCursor (collectCursors request.cursors) known segment < segment.lastCounter
  · apply hnew segment _ rfl
    apply List.mem_filter.mpr
    exact ⟨hs, decide_eq_true ⟨hscope, hlt⟩⟩
  · -- it was known before, to the reader or through a snapshot
    refine (Nat.not_lt.mp hlt).trans (Nat.max_le.mpr ⟨hold, ?_⟩)
    by_cases hzero : reached known segment.lane = 0
    · exact hzero.trans_le (Nat.zero_le n)
    · obtain ⟨cursor, hc, hl, hr⟩ := exists_cursor_of_reached hzero
      exact hr ▸ hraised cursor hc hl

theorem Comprehensive.scoped_cursors (h : remote.Comprehensive compaction) :
    ∀ cursor ∈ compaction.snapshot.cursors, cursor.scopeId = compaction.snapshot.scopeId := by
  obtain ⟨request, delta, -, -, hc⟩ := h.cursors
  intro cursor hcursor
  rw [hc] at hcursor
  exact of_decide_eq_true (List.mem_filter.mp hcursor).2

theorem Comprehensive.reached_other (h : remote.Comprehensive compaction) {lane : Lane}
    (hlane : lane.scopeId ≠ compaction.snapshot.scopeId) :
    reached (collectCursors compaction.snapshot.cursors) lane = 0 := by
  rw [reached_collectCursors, filter_lane_eq_nil h.scoped_cursors hlane.symm]
  rfl

/-- No segment of the scope survives the whole call. -/
theorem Comprehensive.covers (h : remote.Comprehensive compaction) (wf : remote.WellFormed)
    {segment : CatalogSegment} (hs : segment ∈ remote.segments)
    (hscope : segment.scopeId = compaction.snapshot.scopeId) :
    segment.lastCounter ≤ reached (collectCursors compaction.snapshot.cursors) segment.lane := by
  obtain ⟨request, delta, hin, hscan, hc⟩ := h.cursors
  apply (wf.le_scan_cursors hscan hs (hscope ▸ hin)).trans_eq
  rw [reached_collectCursors, reached_collectCursors, hc, List.filter_filter]
  congr 4
  funext cursor
  by_cases hl : cursor.lane = segment.lane
  · have : cursor.scopeId = compaction.snapshot.scopeId := (congrArg Lane.scopeId hl).trans hscope
    simp [hl, this]
  · simp [hl]

theorem current_eq_dirOf (scope : String) : remote.current scope =
    (remote.dirOf scope).latest.bind fun g => (remote.dirOf scope).generations[g]? := by
  rw [current, dirOf]
  cases remote.snapshots[scope]? <;> rfl

theorem current_editDir (f : SnapshotDir → SnapshotDir) : (remote.editDir scope f).current scope =
    (f (remote.dirOf scope)).latest.bind fun g => (f (remote.dirOf scope)).generations[g]? := by
  rw [current, editDir, Map.get?_insert, if_pos rfl]
  rfl

theorem current_editDir_of_ne {other : String} (h : other ≠ scope) (f : SnapshotDir → SnapshotDir) :
    (remote.editDir scope f).current other = remote.current other := by
  rw [current, editDir, Map.get?_insert, if_neg h.symm]
  rfl

/-- The scope's own directory is as the clients build it. -/
structure FiledDir (scope : String) (dir : SnapshotDir) : Prop where
  latest : ∀ {g : Nat}, dir.latest = some g → dir.generations[g]?.isSome
  generation : ∀ {g : Nat} {snapshot : CatalogSnapshot}, dir.generations[g]? = some snapshot →
    snapshot.scopeId = scope ∧ (∀ cursor ∈ snapshot.cursors, cursor.scopeId = scope) ∧
      ∀ event ∈ snapshot.events, event.resource.scopeId = scope

theorem Filed.dirOf (h : remote.Filed) (scope : String) : FiledDir scope (remote.dirOf scope) := by
  rw [Remote.dirOf]
  cases hd : remote.snapshots[scope]? with
  | none =>
    rw [Option.getD_none]
    constructor
    · intro g hg
      cases hg
    · intro g snapshot hg
      rw [ExtTreeMap.getElem?_empty] at hg
      cases hg
  | some dir =>
    refine ⟨h.latest hd, fun hg => ?_⟩
    exact ⟨(h.generation hd hg).1, (h.generation hd hg).2, h.placed hd hg⟩

theorem Filed.editDir (h : remote.Filed) {f : SnapshotDir → SnapshotDir}
    (hf : FiledDir scope (f (remote.dirOf scope))) : (remote.editDir scope f).Filed where
  latest := by
    intro other dir g hd hg
    simp only [Remote.editDir, Map.get?_insert] at hd
    split at hd
    · obtain rfl := Option.some.inj hd
      exact hf.latest hg
    · exact h.latest hd hg
  generation := by
    intro other dir g snapshot hd hg
    simp only [Remote.editDir, Map.get?_insert] at hd
    split at hd
    · next hscope =>
      obtain rfl := Option.some.inj hd
      subst hscope
      exact ⟨(hf.generation hg).1, (hf.generation hg).2.1⟩
    · exact h.generation hd hg
  segment := h.segment
  placed := by
    intro other dir g snapshot hd hg
    simp only [Remote.editDir, Map.get?_insert] at hd
    split at hd
    · next hscope =>
      obtain rfl := Option.some.inj hd
      subst hscope
      exact (hf.generation hg).2.2
    · exact h.placed hd hg

theorem Filed.of_segments (h : remote.Filed) {segments : List CatalogSegment} {commits : CommitMap}
    (hs : ∀ segment ∈ segments, segment ∈ remote.segments) :
    { remote with segments, commits : Remote }.Filed where
  latest := h.latest
  generation := h.generation
  segment segment hseg := h.segment segment (hs segment hseg)
  placed := h.placed

/-- The file that the new pointer names: the new snapshot, or one that was there under the
same generation. -/
def pointed (remote : Remote) (snapshot : CatalogSnapshot) : CatalogSnapshot :=
  (remote.dirOf snapshot.scopeId).generations[snapshot.generation]?.getD snapshot

theorem get?_extended (snapshot : CatalogSnapshot) :
    (remote.extended snapshot)[snapshot.generation]? = some (remote.pointed snapshot) := by
  rw [extended, Map.get?_insertIfNew, if_pos rfl, pointed]

/-- The pointer names the new generation. -/
def repointed (remote : Remote) (snapshot : CatalogSnapshot) : Remote :=
  remote.editDir snapshot.scopeId fun _ =>
    { generations := remote.extended snapshot, latest := some snapshot.generation }

theorem current_congr {other : Remote} (h : other.snapshots = remote.snapshots) (scope : String) :
    other.current scope = remote.current scope := by
  rw [current, h, current]

theorem current_repointed (snapshot : CatalogSnapshot) :
    (remote.repointed snapshot).current snapshot.scopeId = some (remote.pointed snapshot) := by
  rw [repointed, current_editDir]
  exact get?_extended snapshot

theorem Filed.extended (h : remote.Filed)
    (hcursors : ∀ cursor ∈ compaction.snapshot.cursors,
      cursor.scopeId = compaction.snapshot.scopeId)
    (hevents : ∀ event ∈ compaction.snapshot.events,
      event.resource.scopeId = compaction.snapshot.scopeId) {latest : Option Nat}
    (hlatest : ∀ {g : Nat}, latest = some g → (remote.extended compaction.snapshot)[g]?.isSome) :
    FiledDir compaction.snapshot.scopeId ⟨remote.extended compaction.snapshot, latest⟩ := by
  refine ⟨hlatest, ?_⟩
  intro g snapshot hg
  have hdir := h.dirOf compaction.snapshot.scopeId
  rw [Remote.extended, Map.get?_insertIfNew] at hg
  split at hg
  · cases hold : (remote.dirOf compaction.snapshot.scopeId).generations[g]? with
    | none =>
      rw [hold, Option.getD_none] at hg
      obtain rfl := Option.some.inj hg
      exact ⟨rfl, hcursors, hevents⟩
    | some old =>
      rw [hold, Option.getD_some] at hg
      obtain rfl := Option.some.inj hg
      exact hdir.generation hold
  · exact hdir.generation hg

theorem Filed.empty : ({} : Remote).Filed where
  latest := by simp
  generation := by simp
  segment := by simp
  placed := by simp

theorem Filed.commitBatch (h : remote.Filed) (batch : CommitBatch) :
    (remote.commitBatch batch).Filed :=
  { h.toWellFormed.commitBatch batch with placed := h.placed }

theorem Filed.repointed (h : remote.Filed)
    (hcursors : ∀ cursor ∈ compaction.snapshot.cursors,
      cursor.scopeId = compaction.snapshot.scopeId)
    (hevents : ∀ event ∈ compaction.snapshot.events,
      event.resource.scopeId = compaction.snapshot.scopeId) :
    (remote.repointed compaction.snapshot).Filed := by
  apply h.editDir
  apply h.extended hcursors hevents
  intro g hg
  obtain rfl := Option.some.inj hg
  rw [get?_extended]
  rfl

theorem Filed.compactCatalog (h : remote.Filed)
    (hcursors : ∀ cursor ∈ compaction.snapshot.cursors,
      cursor.scopeId = compaction.snapshot.scopeId)
    (hevents : ∀ event ∈ compaction.snapshot.events,
      event.resource.scopeId = compaction.snapshot.scopeId) :
    (remote.compactCatalog compaction).Filed :=
  (h.repointed hcursors hevents).of_segments fun _ hs => (mem_segments_compactCatalog.mp hs).1

/-- The old pointer keeps naming a file. -/
theorem isSome_extended {snapshot : CatalogSnapshot} {g : Nat}
    (h : (remote.dirOf snapshot.scopeId).generations[g]?.isSome) :
    (remote.extended snapshot)[g]? = (remote.dirOf snapshot.scopeId).generations[g]? := by
  rw [extended, Map.get?_insertIfNew]
  split
  · obtain ⟨old, hold⟩ := Option.isSome_iff_exists.mp h
    rw [hold, Option.getD_some]
  · rfl

theorem Filed.stage (h : remote.Filed) (hc : remote.Comprehensive compaction) {cut : Remote}
    (hstage : Stage remote compaction cut) : cut.Filed := by
  have hdir := h.dirOf compaction.snapshot.scopeId
  cases hstage with
  | start => exact h
  | old generations files =>
    apply h.editDir
    rcases files with rfl | rfl
    · exact hdir
    · apply h.extended hc.scoped_cursors hc.placed
      intro g hg
      rw [isSome_extended (hdir.latest hg)]
      exact hdir.latest hg
  | gap pointed =>
    apply h.editDir
    apply h.extended hc.scoped_cursors hc.placed
    intro g hg
    cases hg
  | new segments commits within kept =>
    exact (h.repointed hc.scoped_cursors hc.placed).of_segments within

/-- With the old pointer the catalog reads as before. -/
theorem Filed.current_old (h : remote.Filed) {generations : Map Nat CatalogSnapshot}
    (files : generations = (remote.dirOf compaction.snapshot.scopeId).generations ∨
      generations = remote.extended compaction.snapshot) (scope : String) :
    (remote.editDir compaction.snapshot.scopeId fun dir =>
      { generations, latest := dir.latest }).current scope = remote.current scope := by
  by_cases hscope : scope = compaction.snapshot.scopeId
  · subst hscope
    rw [current_editDir, current_eq_dirOf]
    cases hl : (remote.dirOf compaction.snapshot.scopeId).latest with
    | none => rfl
    | some g =>
      rw [Option.bind_some, Option.bind_some]
      rcases files with rfl | rfl
      · rfl
      · exact isSome_extended ((h.dirOf _).latest hl)
  · exact current_editDir_of_ne hscope _

theorem Lists.unread {cursors : Map Lane Nat} (h : Lists remote scopes cursors event) :
    reached cursors event.lane < event.counter := by
  cases h with
  | snapshot current scope listed unread => exact unread
  | segment stored listed unread beyond => exact unread

/-- A scan of all scopes lists what a scan of some does. -/
theorem Lists.widen {cursors : Map Lane Nat} (h : Lists remote scopes cursors event) :
    Lists remote [] cursors event := by
  cases h with
  | snapshot current scope listed unread => exact .snapshot current rfl listed unread
  | segment stored listed unread beyond => exact .segment stored listed unread beyond

theorem Lists.congr {other : Remote} (hcur : ∀ scope, other.current scope = remote.current scope)
    (hseg : other.segments = remote.segments) {cursors : Map Lane Nat}
    (h : Lists remote scopes cursors event) : Lists other scopes cursors event := by
  cases h with
  | snapshot current scope listed unread =>
    exact .snapshot ((hcur _).trans current) scope listed unread
  | segment stored listed unread beyond =>
    apply Lists.segment (hseg ▸ stored) listed unread
    rwa [covered, hcur]

/-- What the current snapshot of the scope lists is also listed by a segment. -/
def Doubled (remote : Remote) (compaction : CatalogCompaction) : Prop :=
  ∀ snapshot, remote.current compaction.snapshot.scopeId = some snapshot →
    ∀ event ∈ snapshot.events, 0 < event.counter →
      event.commitId ∉ compaction.obsoleteCommitIds → ∃ segment ∈ remote.segments,
        event ∈ segment.events

/-- A file that is already there under the new generation lists what the new one would. -/
def Superseding (remote : Remote) (compaction : CatalogCompaction) : Prop :=
  ∀ snapshot, (remote.dirOf compaction.snapshot.scopeId).generations[
      compaction.snapshot.generation]? = some snapshot →
    ∀ event, remote.Discovers [] event → event.resource.scopeId = compaction.snapshot.scopeId →
      event.commitId ∉ compaction.obsoleteCommitIds → event ∈ snapshot.events

theorem Filed.current_placed (h : remote.Filed) {snapshot : CatalogSnapshot}
    (hcur : remote.current scope = some snapshot) (he : event ∈ snapshot.events) :
    event.resource.scopeId = scope := by
  obtain ⟨dir, g, hd, -, hs⟩ := current_eq_some.mp hcur
  exact h.placed hd hs event he

section Cut

variable {cut : Remote}
variable (hother : ∀ scope ≠ compaction.snapshot.scopeId, cut.current scope = remote.current scope)

include hother

theorem covered_of_ne {lane : Lane} (h : lane.scopeId ≠ compaction.snapshot.scopeId) :
    cut.covered lane = remote.covered lane := by
  rw [covered, hother _ h, covered]

/-- Without a pointer only segments list what belongs to the scope. -/
theorem Filed.lists_gap (h : remote.Filed) (hdoubled : remote.Doubled compaction)
    (hself : cut.current compaction.snapshot.scopeId = none)
    (hsegments : cut.segments = remote.segments) (hl : Lists remote scopes ∅ event)
    (hobs : event.commitId ∉ compaction.obsoleteCommitIds) : Lists cut scopes ∅ event := by
  by_cases hscope : event.resource.scopeId = compaction.snapshot.scopeId
  · have hcovered : cut.covered event.lane = 0 := by
      rw [covered, show event.lane.scopeId = _ from hscope, hself]
      rfl
    cases hl with
    | snapshot current scope listed unread =>
      rw [reached_empty] at unread
      have hsame := h.current_placed current listed
      rw [← hsame, hscope] at current
      obtain ⟨segment, hs, he⟩ := hdoubled _ current event listed unread hobs
      exact .segment (hsegments ▸ hs) he (by rwa [reached_empty]) (by rwa [hcovered])
    | segment stored listed unread beyond =>
      refine .segment (hsegments ▸ stored) listed unread ?_
      rw [hcovered]
      exact Nat.zero_lt_of_lt beyond
  · cases hl with
    | snapshot current scope listed unread =>
      have hne := h.current_placed current listed ▸ hscope
      exact .snapshot ((hother _ hne).trans current) scope listed unread
    | segment stored listed unread beyond =>
      refine .segment (hsegments ▸ stored) listed unread ?_
      rwa [covered_of_ne hother (show event.lane.scopeId ≠ _ from hscope)]

/-- With the new pointer the new snapshot lists all that belongs to the scope. -/
theorem Filed.lists_new (h : remote.Filed) (hc : remote.Comprehensive compaction)
    (hsup : remote.Superseding compaction)
    (hself : cut.current compaction.snapshot.scopeId = some (remote.pointed compaction.snapshot))
    (kept : ∀ segment ∈ remote.segments, segment ∈ cut.segments ∨
      segment.lastCounter ≤ reached (collectCursors compaction.snapshot.cursors) segment.lane)
    (hfound : remote.Discovers scopes event)
    (hobs : event.commitId ∉ compaction.obsoleteCommitIds) : Lists cut scopes ∅ event := by
  obtain ⟨hl, hin⟩ := h.discovers_iff.mp hfound
  by_cases hscope : event.resource.scopeId = compaction.snapshot.scopeId
  · have hfound : remote.Discovers [] event := h.discovers_iff.mpr ⟨hl.widen, rfl⟩
    have hpointed : (remote.pointed compaction.snapshot).scopeId = compaction.snapshot.scopeId ∧
        event ∈ (remote.pointed compaction.snapshot).events := by
      rw [pointed]
      cases hold : (remote.dirOf compaction.snapshot.scopeId).generations[
          compaction.snapshot.generation]? with
      | none => exact ⟨rfl, hc.events event hfound hscope hobs⟩
      | some old => exact ⟨((h.dirOf _).generation hold).1, hsup old hold event hfound hscope hobs⟩
    refine .snapshot (hpointed.1 ▸ hself) ?_ hpointed.2 hl.unread
    rwa [hpointed.1, ← hscope]
  · cases hl with
    | snapshot current scope listed unread =>
      have hne := h.current_placed current listed ▸ hscope
      exact .snapshot ((hother _ hne).trans current) scope listed unread
    | segment stored listed unread beyond =>
      have hlane : event.lane.scopeId ≠ compaction.snapshot.scopeId := hscope
      rcases kept _ stored with hin | hgone
      · refine .segment hin listed unread ?_
        rwa [covered_of_ne hother hlane]
      · have hwf := h.segment _ stored event listed
        rw [← hwf.1, hc.reached_other hlane] at hgone
        omega

end Cut

theorem Filed.lists_stage (h : remote.Filed) (hc : remote.Comprehensive compaction)
    (hsup : remote.Superseding compaction) (hdoubled : remote.Doubled compaction) {cut : Remote}
    (hstage : Stage remote compaction cut) (hfound : remote.Discovers scopes event)
    (hobs : event.commitId ∉ compaction.obsoleteCommitIds) : Lists cut scopes ∅ event := by
  have hl := (h.discovers_iff.mp hfound).1
  cases hstage with
  | start => exact hl
  | old generations files => exact hl.congr (h.current_old files) rfl
  | gap pointed =>
    apply h.lists_gap (fun scope hne => current_editDir_of_ne hne _) hdoubled _ rfl hl hobs
    rw [current_editDir]
    rfl
  | new segments commits within kept =>
    have hrepointed := @current_congr _ (remote.repointed compaction.snapshot) _ rfl
    refine Filed.lists_new ?_ h hc hsup ((hrepointed _).trans (current_repointed _)) kept hfound hobs
    intro scope hne
    exact (hrepointed scope).trans (current_editDir_of_ne hne _)

/-- In the gap what belongs to the scope is listed by segments alone. -/
theorem Filed.doubled_of_gap (h : remote.Filed) (hc : remote.Comprehensive compaction)
    (hsafe : ∀ cut event, remote.Discovers [] event →
      event.commitId ∉ compaction.obsoleteCommitIds →
      (remote.compactUntil compaction cut).Discovers [] event) :
    remote.Doubled compaction := by
  intro snapshot hcur event he hpos hobs
  have hscope := h.current_placed hcur he
  have hlatest : (remote.dirOf compaction.snapshot.scopeId).latest.isSome := by
    rw [current_eq_dirOf] at hcur
    obtain ⟨g, hg, -⟩ := Option.bind_eq_some_iff.mp hcur
    rw [hg]
    rfl
  have hfound : remote.Discovers [] event := by
    rw [h.discovers_iff]
    refine ⟨.snapshot ?_ rfl he (by rwa [reached_empty]), rfl⟩
    rwa [(h.current_scope hcur).1]
  have hgap := hsafe ((remote.prepareOps compaction.snapshot).length + 1) event hfound hobs
  have hfiled := h.stage hc (compactUntil_stage ((remote.prepareOps compaction.snapshot).length + 1))
  rw [compactUntil_gap hlatest] at hgap hfiled
  cases (hfiled.discovers_iff.mp hgap).1 with
  | snapshot current scope listed unread =>
    rw [← hfiled.current_placed current listed, hscope, current_editDir] at current
    cases current
  | segment stored listed unread beyond => exact ⟨_, stored, listed⟩

/-- After the whole call the snapshot that the pointer names lists what belongs to the scope. -/
theorem Filed.superseding_of_all (h : remote.Filed) (hc : remote.Comprehensive compaction)
    (hsafe : ∀ cut event, remote.Discovers [] event →
      event.commitId ∉ compaction.obsoleteCommitIds →
      (remote.compactUntil compaction cut).Discovers [] event) :
    remote.Superseding compaction := by
  intro old hold event hfound hscope hobs
  have hall := hsafe (remote.compactOps compaction).length event hfound hobs
  have hfiled := h.stage hc (compactUntil_stage (remote.compactOps compaction).length)
  rw [compactUntil_all le_rfl] at hall hfiled
  have hself : (remote.compactCatalog compaction).current compaction.snapshot.scopeId =
      some (remote.pointed compaction.snapshot) := by
    rw [← current_repointed]
    exact current_congr rfl _
  rw [pointed, hold, Option.getD_some] at hself
  cases (hfiled.discovers_iff.mp hall).1 with
  | snapshot current scope listed unread =>
    rw [← hfiled.current_placed current listed, hscope, hself] at current
    rwa [Option.some.inj current]
  | segment stored listed unread beyond =>
    obtain ⟨hs, hleft⟩ := mem_segments_compactCatalog.mp stored
    have hlane := (h.segment _ hs event listed).1
    have hcovered := hc.covers h.toWellFormed hs ((congrArg Lane.scopeId hlane).symm.trans hscope)
    omega

/-- A crash at any point loses nothing exactly if nothing hangs on the old snapshot alone and
the new generation, if it was used before, was used for as much. -/
theorem compactUntil_loses_nothing (hfiled : remote.Filed) (hcomp : remote.Comprehensive compaction) :
    (∀ cut scopes, ∃ delta,
      (remote.compactUntil compaction cut).scanCatalog ⟨scopes, []⟩ = .ok delta ∧
        ∀ event, remote.Discovers scopes event → event.commitId ∉ compaction.obsoleteCommitIds →
          event ∈ delta.events) ↔
      remote.Doubled compaction ∧ remote.Superseding compaction := by
  constructor
  · intro hsafe
    have hdiscovers : ∀ cut event, remote.Discovers [] event →
        event.commitId ∉ compaction.obsoleteCommitIds →
        (remote.compactUntil compaction cut).Discovers [] event := by
      intro cut event hfound hobs
      obtain ⟨delta, hscan, hall⟩ := hsafe cut []
      exact ⟨delta, hscan, hall event hfound hobs⟩
    exact ⟨hfiled.doubled_of_gap hcomp hdiscovers, hfiled.superseding_of_all hcomp hdiscovers⟩
  · rintro ⟨hdoubled, hsup⟩ cut scopes
    have hstage : Stage remote compaction _ := compactUntil_stage cut
    have wf := (hfiled.stage hcomp hstage).toWellFormed
    obtain ⟨delta, hscan⟩ := wf.scanCatalog_ok ⟨scopes, []⟩
    refine ⟨delta, hscan, fun event hfound hobs => (wf.mem_scan_events hscan).mpr ⟨?_, ?_⟩⟩
    · exact hfiled.lists_stage hcomp hsup hdoubled hstage hfound hobs
    · exact (hfiled.discovers_iff.mp hfound).2

end Remote

theorem World.step_filed {S : Setting} {w w' : World} (hinv : w.Inv) (h : w.remote.Filed) {l : Label}
    (hs : w.step S l = some w') : w'.remote.Filed := by
  cases l with
  | start c command =>
    rw [World.step] at hs
    split at hs
    · obtain rfl := Option.some.inj hs
      exact h
    · cases hs
  | answer c a =>
    obtain ⟨s, q, k, r, w₁, hp, hr, rfl⟩ := World.answer_cases hs
    have hcall := (hinv.clients c).meets
    rw [hp] at hcall
    have hask : Ask c _ _ s q := hcall.1.2
    suffices w₁.remote.Filed from this
    cases World.respond_effect hr with
    | batch => exact h.commitBatch _
    | compact =>
      obtain ⟨⟨scope, generation, hcomp⟩, -⟩ := hask
      rw [hcomp]
      apply h.compactCatalog
      · intro cursor hc
        exact of_decide_eq_true (List.mem_filter.mp hc).2
      · intro event he
        obtain ⟨x, hx, rfl⟩ := List.mem_map.mp he
        exact (of_decide_eq_true (List.mem_filter.mp hx).2).1
    | other inert same memory =>
      constructor
      · constructor
        · rw [same.snapshots]
          exact h.latest
        · rw [same.snapshots]
          exact h.generation
        · rw [same.segments]
          exact h.segment
      · rw [same.snapshots]
        exact h.placed
    | _ => exact h
  | edit c key file =>
    obtain rfl := Option.some.inj hs
    exact h
  | crash c =>
    obtain rfl := Option.some.inj hs
    exact h

/-- The catalogs that clients build are such catalogs. -/
theorem World.Reachable.filed {S : Setting} {ok : World → Label → Prop} {w : World}
    (h : w.Reachable S ok) : w.remote.Filed := by
  induction h with
  | refl => exact Remote.Filed.empty
  | tail hrun hstep ih =>
    obtain ⟨l, -, hs⟩ := hstep
    exact World.step_filed (World.Reachable.inv hrun) ih hs

end Discovery

section Samples

open Sample

attribute [local instance] crates

def firstCommit : Commit := Commit.create (key "note") [] "c" 1 0 .delete

/-- A catalog with one segment. -/
def oneSegment : Remote := ({} : Remote).commitBatch { commits := [firstCommit] }

def reader : RuntimeState := { commits := (∅ : CommitMap).insert firstCommit, cursors := [⟨"c", "s", 1⟩] }

/-- The segment was given up for a snapshot. -/
def oneSnapshot : Remote := oneSegment.compactCatalog (reader.compaction "s" 1 [])

/-- The reader has read the whole of either catalog. -/
theorem comprehensive_of_scan {remote : Remote} (generation : Nat)
    (h : ((remote.scanCatalog ⟨[], []⟩).map fun delta => (delta.events, delta.cursors)) =
      .ok ([firstCommit.event], reader.cursors)) :
    remote.Comprehensive (reader.compaction "s" generation []) := by
  cases hscan : remote.scanCatalog ⟨[], []⟩ with
  | error error =>
    rw [hscan] at h
    cases h
  | ok delta =>
  rw [hscan] at h
  obtain ⟨hevents, hcursors⟩ := Prod.mk.inj (Except.ok.inj h)
  have hplaced : ∀ event ∈ (reader.catalogSnapshot "s" 0 []).events,
      event.resource.scopeId = "s" := by decide +kernel
  have hlisted : firstCommit.event ∈ (reader.catalogSnapshot "s" 0 []).events := by decide +kernel
  have hkept : (reader.catalogSnapshot "s" 0 []).cursors =
      reader.cursors.filter fun cursor => cursor.scopeId = "s" := rfl
  refine ⟨hplaced, ?_, ⟨_, delta, rfl, hscan, hcursors ▸ hkept⟩⟩
  rintro event ⟨delta', hscan', he⟩ - -
  rw [hscan] at hscan'
  obtain rfl := Except.ok.inj hscan'
  rw [hevents] at he
  obtain rfl := List.mem_singleton.mp he
  exact hlisted

theorem oneSegment_filed : oneSegment.Filed := Remote.Filed.empty.commitBatch _

theorem oneSegment_comprehensive : oneSegment.Comprehensive (reader.compaction "s" 1 []) :=
  comprehensive_of_scan 1 (by decide +kernel)

theorem oneSnapshot_filed : oneSnapshot.Filed :=
  oneSegment_filed.compactCatalog oneSegment_comprehensive.scoped_cursors
    oneSegment_comprehensive.placed

/-- With a segment and no snapshot nothing is lost. -/
theorem compactUntil_loses_nothing_first : ∃ (remote : Remote) (compaction : CatalogCompaction),
    remote.Filed ∧ remote.Comprehensive compaction ∧ ∀ cut scopes, ∃ delta,
      (remote.compactUntil compaction cut).scanCatalog ⟨scopes, []⟩ = .ok delta ∧
        ∀ event, remote.Discovers scopes event → event.commitId ∉ compaction.obsoleteCommitIds →
          event ∈ delta.events := by
  refine ⟨oneSegment, reader.compaction "s" 1 [], oneSegment_filed, oneSegment_comprehensive, ?_⟩
  apply (Remote.compactUntil_loses_nothing oneSegment_filed oneSegment_comprehensive).mpr
  have hdir : oneSegment.snapshots = ∅ := rfl
  constructor
  · intro snapshot hcur
    rw [Remote.current, hdir] at hcur
    simp at hcur
  · intro snapshot hold
    rw [Remote.dirOf, hdir] at hold
    simp at hold

theorem oneSnapshot_comprehensive : oneSnapshot.Comprehensive (reader.compaction "s" 2 []) :=
  comprehensive_of_scan 2 (by decide +kernel)

/-- The pointer is removed before the new one is in its place: the only snapshot that lists the
commit is out of reach. -/
theorem compactUntil_loses_snapshot : ∃ (remote : Remote) (compaction : CatalogCompaction)
    (event : CatalogEvent) (cut : Nat), remote.Filed ∧ remote.Comprehensive compaction ∧
      remote.Discovers [] event ∧ event.commitId ∉ compaction.obsoleteCommitIds ∧
      ¬ (remote.compactUntil compaction cut).Discovers [] event := by
  refine ⟨oneSnapshot, reader.compaction "s" 2 [], firstCommit.event, 5, oneSnapshot_filed,
    oneSnapshot_comprehensive, ?_, List.not_mem_nil, ?_⟩
  · decide +kernel
  · decide +kernel

end Samples

end Rollforward
