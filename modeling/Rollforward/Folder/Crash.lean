import Rollforward.Folder.Backing
import Rollforward.Folder.Compaction

/-! A crash inside `commit_batch`.  A file that is being written may be left cut short; readers
list it with the others and cannot parse it. -/

namespace Rollforward

open Std Lib

section Crash

variable [Crates]

/-- What a crash leaves: an index or a segment may be cut short, with what `serde_json` has to
say about it. -/
structure Folder where
  remote : Remote
  tornIndex : Option String := none
  tornSegment : Option String := none

namespace Folder

/-- The snapshots are read before the segments. -/
def scanCatalog (folder : Folder) (request : CatalogScanRequest) :
    Except SyncError CatalogDelta := do
  let _ ← folder.remote.loadSnapshots request.scopes
  match folder.tornSegment with
  | some message => .error (.serdeError message)
  | none => folder.remote.scanCatalog request

def loadCommits (folder : Folder) (ids : List String) : Except SyncError (List Commit) :=
  folder.remote.loadCommits ids

def lookupChunks (folder : Folder) (hashes : List String) :
    Except SyncError (List ChunkLocation) :=
  match folder.tornIndex with
  | some message => .error (.serdeError message)
  | none => .ok (folder.remote.lookupChunks hashes)

def Discovers (folder : Folder) (event : CatalogEvent) : Prop :=
  ∃ delta, folder.scanCatalog ⟨[], []⟩ = .ok delta ∧ event ∈ delta.events

end Folder

/-- Objects that readers list and parse. -/
def StoredObject.Parsed : StoredObject → Prop
  | .index _ | .segment _ => True
  | .pack _ | .commit _ => False

namespace Remote

/-- The temporary file of an object is cut short. -/
def tear (process : Nat) (remote : Remote) (message : String) : StoredObject → Folder
  | .index index =>
    { remote := { remote with indexes := remote.indexes.erase (tempName index.id process) }
      tornIndex := some message }
  | .segment _ => { remote, tornSegment := some message }
  | .pack _ | .commit _ => { remote }

/-- `commit_batch` is cut after so many operations, or within the write that comes next. -/
def crash (remote : Remote) (process : Nat) (batch : CommitBatch) (cut : Nat)
    (torn : Option String) : Folder :=
  let reached := remote.runOps process ((writeOps batch.objects).take cut)
  match torn, (writeOps batch.objects)[cut]? with
  | some message, some (.writeTemp object) =>
    if reached.stores object then { remote := reached } else reached.tear process message object
  | _, _ => { remote := reached }

/-- The crash cuts short an object that readers parse and that was not there. -/
def Tears (remote : Remote) (process : Nat) (batch : CommitBatch) (cut : Nat)
    (torn : Option String) : Prop :=
  torn.isSome ∧ ∃ object : StoredObject, object.Parsed ∧
    (writeOps batch.objects)[cut]? = some (.writeTemp object) ∧
    ¬ (remote.runOps process ((writeOps batch.objects).take cut)).stores object

end Remote

/-- The segment that an operation puts into the catalog. -/
def FileOp.segment? : FileOp → Option CatalogSegment
  | .writeTemp (.segment segment) | .rename (.segment segment) => some segment
  | _ => none

/-- The catalog once these segments are written. -/
def Remote.withSegments (remote : Remote) (segments : List CatalogSegment) : Remote :=
  { remote with segments := segments.foldl writeSegment remote.segments }

/-- The segments that were reached. -/
def CommitBatch.segmentsUntil (batch : CommitBatch) (cut : Nat) : List CatalogSegment :=
  ((writeOps batch.objects).take cut).filterMap FileOp.segment?

/-- Readers get on as before, a segment is there as a whole or not at all, and what became
visible is complete. -/
structure Unbroken (before : Remote) (batch : CommitBatch) (after : Folder) : Prop where
  scan : ∃ stored, (∀ segment ∈ stored, segment ∈ Remote.batchSegments batch.commits) ∧
    ∀ request, ∃ delta, after.scanCatalog request = .ok delta ∧
      (before.withSegments stored).scanCatalog request = .ok delta
  load : ∀ ids commits, before.loadCommits ids = .ok commits → after.loadCommits ids = .ok commits
  lookup : ∀ hashes, ∃ locations, after.lookupChunks hashes = .ok locations ∧
    (∀ location ∈ locations, after.remote.packs[location.packId]?.isSome) ∧
    ∀ hash ∈ hashes, before.Listed hash → hash ∈ locations.map ChunkLocation.hash
  visible : ∀ x ∈ batch.commits, ¬ before.Discovers [] x.event → after.Discovers x.event →
    (after.loadCommits [x.id]).isOk ∧ ∀ locations,
      after.lookupChunks x.change.chunkHashes = .ok locations →
        ∀ hash ∈ x.change.chunkHashes, hash ∈ locations.map ChunkLocation.hash

end Crash

section Writes

variable [Crates] {remote : Remote} {process : Nat} {objects : List StoredObject} {ops : List FileOp}

namespace Remote

theorem snapshots_runOps : (remote.runOps process ops).snapshots = remote.snapshots := by
  induction ops generalizing remote with
  | nil => rfl
  | cons op ops ih =>
    refine ih.trans ?_
    cases op with
    | writeTemp object =>
      rw [fileStep]
      split
      · rfl
      · cases object <;> rfl
    | rename object =>
      rw [fileStep]
      split
      · rfl
      · cases object <;> rfl
    | removePack id | removeIndex id => rfl

theorem segments_fileStep (op : FileOp) : (fileStep process remote op).segments =
    op.segment?.toList.foldl writeSegment remote.segments := by
  cases op with
  | removePack id | removeIndex id => rfl
  | writeTemp object | rename object =>
    rw [fileStep]
    split
    · next hs =>
      cases object with
      | segment segment => exact (if_pos (of_decide_eq_true hs)).symm
      | _ => rfl
    · cases object <;> rfl

/-- Every operation on a segment puts it into the catalog. -/
theorem segments_runOps : (remote.runOps process ops).segments =
    (ops.filterMap FileOp.segment?).foldl writeSegment remote.segments := by
  induction ops generalizing remote with
  | nil => rfl
  | cons op ops ih =>
    refine ih.trans ?_
    rw [segments_fileStep, List.filterMap_cons]
    cases op.segment? <;> rfl

theorem commits_fileStep {object : StoredObject} {op : FileOp}
    (hop : op = .writeTemp object ∨ op = .rename object) {id : String} {x : Commit}
    (h : remote.commits.get? id = some x) :
    (fileStep process remote op).commits.get? id = some x := by
  rcases hop with rfl | rfl
  · rw [fileStep]
    split
    · exact h
    · cases object <;> exact h
  · rw [fileStep]
    split
    · exact h
    · next hs =>
      cases object with
      | commit commit =>
        have hnone : ¬ (remote.commits.get? commit.id).isSome := hs
        rw [rename, writeCommit, if_neg hnone, KeyedMap.get?_insert, if_neg]
        · exact h
        · rintro rfl
          exact hnone (h ▸ rfl)
      | _ => exact h

/-- A stored commit stays as it is. -/
theorem commits_runOps (hops : ∀ op ∈ ops, op ∈ writeOps objects) {id : String} {x : Commit}
    (h : remote.commits.get? id = some x) :
    (remote.runOps process ops).commits.get? id = some x := by
  induction ops generalizing remote with
  | nil => exact h
  | cons op ops ih =>
    obtain ⟨hop, hops⟩ := List.forall_mem_cons.mp hops
    obtain ⟨object, -, hkind⟩ := mem_writeOps hop
    exact ih hops (commits_fileStep hkind h)

theorem indexes_fileStep {object : StoredObject} {op : FileOp}
    (hop : op = .writeTemp object ∨ op = .rename object) {name : String} {index : PackIndex}
    (hname : '.' ∉ name.toList) (h : remote.indexes[name]? = some index) :
    (fileStep process remote op).indexes[name]? = some index := by
  rcases hop with rfl | rfl
  · rw [fileStep]
    split
    · exact h
    · cases object with
      | index new =>
        rw [writeTemp, Map.get?_insert, if_neg (ne_tempName hname).symm]
        exact h
      | _ => exact h
  · rw [fileStep]
    split
    · exact h
    · next hs =>
      cases object with
      | index new =>
        have hnone : ¬ remote.indexes[new.id]?.isSome := hs
        rw [rename, Map.get?_insert, if_neg, Map.get?_erase, if_neg (ne_tempName hname).symm]
        · exact h
        · rintro rfl
          exact hnone (h ▸ rfl)
      | _ => exact h

/-- A stored index stays as it is. -/
theorem indexes_runOps (hops : ∀ op ∈ ops, op ∈ writeOps objects) {name : String}
    {index : PackIndex} (hname : '.' ∉ name.toList) (h : remote.indexes[name]? = some index) :
    (remote.runOps process ops).indexes[name]? = some index := by
  induction ops generalizing remote with
  | nil => exact h
  | cons op ops ih =>
    obtain ⟨hop, hops⟩ := List.forall_mem_cons.mp hops
    obtain ⟨object, -, hkind⟩ := mem_writeOps hop
    exact ih hops (indexes_fileStep hkind hname h)

theorem scanCatalog_congr {other : Remote} (hsnapshots : other.snapshots = remote.snapshots)
    (hsegments : other.segments = remote.segments) (request : CatalogScanRequest) :
    other.scanCatalog request = remote.scanCatalog request := by
  rw [scanCatalog, loadSnapshots, hsnapshots, hsegments]
  rfl

theorem runOps_segments {segments : List CatalogSegment}
    (hops : ∀ op ∈ ops, op ∈ writeOps (segments.map .segment)) :
    ∃ stored, remote.runOps process ops = { remote with segments := stored } := by
  induction ops generalizing remote with
  | nil => exact ⟨remote.segments, rfl⟩
  | cons op ops ih =>
    obtain ⟨hop, hops⟩ := List.forall_mem_cons.mp hops
    obtain ⟨object, hobject, hkind⟩ := mem_writeOps hop
    obtain ⟨segment, -, rfl⟩ := List.mem_map.mp hobject
    have hstep : ∃ stored, fileStep process remote op = { remote with segments := stored } := by
      rcases hkind with rfl | rfl
      · rw [fileStep]
        split
        · exact ⟨remote.segments, rfl⟩
        · exact ⟨_, rfl⟩
      · rw [fileStep]
        split
        · exact ⟨remote.segments, rfl⟩
        · exact ⟨_, rfl⟩
    obtain ⟨first, hfirst⟩ := hstep
    obtain ⟨stored, hstored⟩ := ih hops
    refine ⟨stored, Eq.trans hstored ?_⟩
    rw [hfirst]

/-- Once a segment is reached, all else is written. -/
theorem Tidy.runOps_of_segment (h : remote.Tidy) {batch : CommitBatch}
    (hplain : ∀ object ∈ batch.objects, object.Plain) {cut : Nat} {segment : CatalogSegment}
    (hsegment : segment ∈ batch.segmentsUntil cut) : ∃ segments,
      remote.runOps process ((writeOps batch.objects).take cut) =
        { remote.commitBatch batch with segments } := by
  let rest := batch.packs.map StoredObject.pack ++ (batch.indexes.map .index ++
    batch.commits.map .commit)
  let last := (batchSegments batch.commits).map StoredObject.segment
  have hobjects : batch.objects = rest ++ last := by
    simp only [CommitBatch.objects, rest, last, List.append_assoc]
  have hops : writeOps batch.objects = writeOps rest ++ writeOps last := by
    rw [hobjects]
    exact List.flatMap_append
  have hlt : (writeOps rest).length < cut := by
    by_contra hle
    rw [CommitBatch.segmentsUntil, hops, List.take_append_of_le_length (Nat.not_lt.mp hle)]
      at hsegment
    obtain ⟨op, hop, hsome⟩ := List.mem_filterMap.mp hsegment
    obtain ⟨object, hobject, hkind⟩ := mem_writeOps (List.mem_of_mem_take hop)
    cases object with
    | segment segment => simp [rest] at hobject
    | _ => rcases hkind with rfl | rfl <;> cases hsome
  have hrest : ∀ object ∈ rest, object.Plain := fun object hobject =>
    hplain object (hobjects ▸ List.mem_append_left _ hobject)
  -- neither the whole call nor its part does more than write segments after the rest
  have hbatch : ∃ all, remote.commitBatch batch =
      { rest.foldl Remote.write remote with segments := all } := by
    have hlast := foldl_write segments (fun remote segments => { remote with segments }) .segment
      (fun _ _ => rfl) (fun _ _ => rfl) (fun _ _ _ => rfl) (fun _ => rfl)
      (batchSegments batch.commits) (rest.foldl Remote.write remote)
    refine ⟨_, Eq.trans ?_ hlast⟩
    rw [commitBatch_eq_foldl, hobjects]
    exact List.foldl_append
  have hcut : ∃ stored, (rest.foldl Remote.write remote).runOps process
      ((writeOps last).take (cut - (writeOps rest).length)) =
        { rest.foldl Remote.write remote with segments := stored } :=
    runOps_segments fun op hop => List.mem_of_mem_take hop
  obtain ⟨all, hall⟩ := hbatch
  obtain ⟨stored, hstored⟩ := hcut
  refine ⟨stored, ?_⟩
  rw [hops, List.take_append, List.take_of_length_le hlt.le, Remote.runOps, List.foldl_append,
    hall]
  exact (congrArg (List.foldl _ · _) (h.runOps hrest)).trans hstored

end Remote

end Writes

section Safety

variable [Crates] {remote : Remote} {process cut : Nat} {batch : CommitBatch} {torn : Option String}

theorem CommitBatch.Packed.plain (h : batch.Packed) (hhex : ∀ data, '.' ∉ (blake3 data).toList) :
    ∀ object ∈ batch.objects, object.Plain := by
  have hpack : ∀ pack ∈ batch.packs, '.' ∉ pack.id.toList := by
    intro pack hpack
    rw [h.packs pack hpack]
    exact hhex pack.data
  intro object hobject
  cases object with
  | pack pack =>
    exact hpack pack (by simpa [CommitBatch.objects] using hobject)
  | index index =>
    obtain ⟨pack, hp, hid, -⟩ := h.indexes index (by simpa [CommitBatch.objects] using hobject)
    rw [StoredObject.Plain, ← hid]
    exact hpack pack hp
  | commit | segment => trivial

namespace Remote

theorem Stocked.tidy (h : remote.Stocked) (hhex : ∀ data, '.' ∉ (blake3 data).toList) :
    remote.Tidy where
  packs name hname := by
    obtain ⟨data, hdata⟩ := Option.isSome_iff_exists.mp hname
    rw [h.packs name data hdata]
    exact hhex data
  indexes name hname := by
    obtain ⟨index, hindex⟩ := Option.isSome_iff_exists.mp hname
    obtain ⟨data, hdata, -⟩ := h.indexes name index hindex
    rw [h.packs name data hdata]
    exact hhex data

theorem Stocked.backed (h : remote.Stocked) (hhex : ∀ data, '.' ∉ (blake3 data).toList) :
    remote.Backed := by
  intro name index hindex _
  obtain ⟨data, hdata, hsealed⟩ := h.indexes name index hindex
  rw [hsealed.packId]
  refine ⟨?_, hdata ▸ rfl⟩
  rw [h.packs name data hdata]
  exact hhex data

theorem crash_of_not_tears (h : ¬ remote.Tears process batch cut torn) :
    remote.crash process batch cut torn =
      { remote := remote.runOps process ((writeOps batch.objects).take cut) } := by
  simp only [crash]
  split
  · next message object hop =>
    split
    · rfl
    · next hs =>
      cases object with
      | pack | commit => rfl
      | index index => exact absurd ⟨rfl, .index index, trivial, hop, hs⟩ h
      | segment segment => exact absurd ⟨rfl, .segment segment, trivial, hop, hs⟩ h
  · rfl

theorem crash_of_tears (h : remote.Tears process batch cut torn) :
    (remote.crash process batch cut torn).tornIndex.isSome ∨
      (remote.crash process batch cut torn).tornSegment.isSome := by
  obtain ⟨htorn, object, hparsed, hop, hs⟩ := h
  obtain ⟨message, rfl⟩ := Option.isSome_iff_exists.mp htorn
  simp only [crash, hop, if_neg hs]
  cases object with
  | pack | commit => exact hparsed.elim
  | index => exact Or.inl rfl
  | segment => exact Or.inr rfl

theorem segmentsUntil_subset {segment : CatalogSegment} (h : segment ∈ batch.segmentsUntil cut) :
    segment ∈ batchSegments batch.commits := by
  obtain ⟨op, hop, hsome⟩ := List.mem_filterMap.mp h
  obtain ⟨object, hobject, hkind⟩ := mem_writeOps (List.mem_of_mem_take hop)
  cases object with
  | segment stored =>
    have heq : stored = segment := by
      rcases hkind with rfl | rfl <;> exact Option.some.inj hsome
    simpa [CommitBatch.objects, heq] using hobject
  | _ => rcases hkind with rfl | rfl <;> cases hsome

theorem Filed.withSegments (h : remote.Filed) {stored : List CatalogSegment}
    (hstored : ∀ segment ∈ stored, segment ∈ batchSegments batch.commits) :
    (remote.withSegments stored).Filed where
  latest := h.latest
  generation := h.generation
  segment := by
    intro segment hs event he
    rcases mem_foldl_writeSegment.mp hs with hs | hs
    · exact h.segment segment hs event he
    · exact ((batchSegment_spec (hstored segment hs)).1 event he).2
  placed := h.placed

/-- What becomes discoverable is listed by a segment that was reached. -/
theorem Filed.reached_of_discovers (h : remote.Filed) {event : CatalogEvent}
    (hnew : ¬ remote.Discovers [] event)
    (hfound : (remote.withSegments (batch.segmentsUntil cut)).Discovers [] event) :
    ∃ segment, segment ∈ batch.segmentsUntil cut := by
  have hfiled : (remote.withSegments (batch.segmentsUntil cut)).Filed :=
    h.withSegments fun _ hs => segmentsUntil_subset hs
  obtain ⟨hl, hin⟩ := hfiled.discovers_iff.mp hfound
  rw [h.discovers_iff] at hnew
  cases hl with
  | snapshot current scope listed unread =>
    exact absurd ⟨.snapshot current scope listed unread, hin⟩ hnew
  | @segment segment stored listed unread beyond =>
    rcases mem_foldl_writeSegment.mp stored with hold | hreached
    · exact absurd ⟨.segment hold listed unread beyond, hin⟩ hnew
    · exact ⟨segment, hreached⟩

/-- Whatever becomes visible has its chunks: listed before, or by an index that is written. -/
def Completes (remote : Remote) (batch : CommitBatch) (cut : Nat) : Prop :=
  ∀ x ∈ batch.commits, ¬ remote.Discovers [] x.event →
    (remote.withSegments (batch.segmentsUntil cut)).Discovers [] x.event →
    ∀ hash ∈ x.change.chunkHashes, remote.Listed hash ∨
      ∃ index ∈ batch.indexes, batch.Lands remote index ∧ index.data.Lists hash

section Reached

variable (hfiled : remote.Filed)

include hfiled

theorem Filed.scan_reached (request : CatalogScanRequest) :
    ({ remote := remote.runOps process ((writeOps batch.objects).take cut) } : Folder).scanCatalog
      request = (remote.withSegments (batch.segmentsUntil cut)).scanCatalog request := by
  have hload : (remote.runOps process ((writeOps batch.objects).take cut)).loadSnapshots
      request.scopes = remote.loadSnapshots request.scopes := by
    rw [loadSnapshots, snapshots_runOps, loadSnapshots]
  simp only [Folder.scanCatalog]
  rw [hload, hfiled.loadSnapshots_eq]
  have hsegments : (remote.runOps process ((writeOps batch.objects).take cut)).segments =
      (remote.withSegments (batch.segmentsUntil cut)).segments := segments_runOps
  have hsnapshots : (remote.runOps process ((writeOps batch.objects).take cut)).snapshots =
      (remote.withSegments (batch.segmentsUntil cut)).snapshots := snapshots_runOps
  exact scanCatalog_congr hsnapshots hsegments request

/-- What is visible then was not visible before and hence is complete but for its chunks. -/
theorem Filed.reached_visible (htidy : remote.Tidy)
    (hplain : ∀ object ∈ batch.objects, object.Plain) {event : CatalogEvent}
    (hnew : ¬ remote.Discovers [] event)
    (hfound : ({ remote := remote.runOps process ((writeOps batch.objects).take cut) } :
      Folder).Discovers event) :
    (remote.withSegments (batch.segmentsUntil cut)).Discovers [] event ∧ ∃ segments,
      remote.runOps process ((writeOps batch.objects).take cut) =
        { remote.commitBatch batch with segments } := by
  obtain ⟨delta, hscan, he⟩ := hfound
  rw [hfiled.scan_reached] at hscan
  have hwith : (remote.withSegments (batch.segmentsUntil cut)).Discovers [] event :=
    ⟨delta, hscan, he⟩
  obtain ⟨segment, hsegment⟩ := hfiled.reached_of_discovers hnew hwith
  exact ⟨hwith, htidy.runOps_of_segment hplain hsegment⟩

end Reached

theorem Filed.unbroken (hfiled : remote.Filed) (hstocked : remote.Stocked)
    (hhex : ∀ data, '.' ∉ (blake3 data).toList) (hpacked : batch.Packed)
    (hcomplete : remote.Completes batch cut) :
    Unbroken remote batch
      { remote := remote.runOps process ((writeOps batch.objects).take cut) } where
  scan := by
    refine ⟨batch.segmentsUntil cut, fun _ hs => segmentsUntil_subset hs, fun request => ?_⟩
    have hwith : (remote.withSegments (batch.segmentsUntil cut)).Filed :=
      hfiled.withSegments fun _ hs => segmentsUntil_subset hs
    obtain ⟨delta, hscan⟩ := hwith.scanCatalog_ok request
    exact ⟨delta, (hfiled.scan_reached request).trans hscan, hscan⟩
  load := by
    intro ids commits hload
    rw [loadCommits, mapM_eq_ok] at hload
    rw [Folder.loadCommits, loadCommits, mapM_eq_ok]
    refine hload.imp fun id x hid => ?_
    cases hget : remote.commits.get? id with
    | none =>
      rw [hget] at hid
      cases hid
    | some y =>
      rw [hget] at hid
      rw [commits_runOps (fun op hop => List.mem_of_mem_take hop) hget]
      exact hid
  lookup := by
    intro hashes
    refine ⟨_, rfl, fun location hl => ?_, fun hash hh hlisted => ?_⟩
    · exact ((hstocked.backed hhex).commit hhex hpacked cut).lookup hl
    · rw [mem_lookupChunks hh]
      obtain ⟨name, index, hindex, hl⟩ := hlisted
      refine ⟨name, index, ?_, hl⟩
      apply indexes_runOps (fun op hop => List.mem_of_mem_take hop) _ hindex
      exact (hstocked.tidy hhex).indexes name (hindex ▸ rfl)
  visible := by
    intro x hx hnew hfound
    obtain ⟨hwith, segments, hreached⟩ := hfiled.reached_visible (hstocked.tidy hhex)
      (hpacked.plain hhex) hnew hfound
    constructor
    · have hstored : ∀ id ∈ [x.id], ((remote.runOps process
          ((writeOps batch.objects).take cut)).commits.get? id).isSome := by
        intro id hid
        rw [hreached]
        apply isSome_foldl_writeCommit
        exact Or.inr ⟨x, hx, (List.mem_singleton.mp hid).symm⟩
      obtain ⟨commits, hload⟩ := loadCommits_ok hstored
      rw [Folder.loadCommits, hload]
      rfl
    · rintro locations hlookup hash hh
      obtain rfl := Except.ok.inj hlookup
      rw [mem_lookupChunks hh, hreached]
      exact listed_commitBatch.mpr (hcomplete x hx hnew hwith hash hh)

/-- A crash inside `commit_batch` breaks no reader exactly if it cuts short no index and no
segment, and what it makes visible has its chunks. -/
theorem unbroken_iff (hfiled : remote.Filed) (hstocked : remote.Stocked)
    (hhex : ∀ data, '.' ∉ (blake3 data).toList) (hpacked : batch.Packed) :
    Unbroken remote batch (remote.crash process batch cut torn) ↔
      ¬ remote.Tears process batch cut torn ∧ remote.Completes batch cut := by
  constructor
  · intro hsafe
    have hwhole : ¬ remote.Tears process batch cut torn := by
      intro htears
      rcases crash_of_tears htears with hindex | hsegment
      · obtain ⟨message, hmessage⟩ := Option.isSome_iff_exists.mp hindex
        obtain ⟨locations, hlookup, -⟩ := hsafe.lookup []
        rw [Folder.lookupChunks, hmessage] at hlookup
        cases hlookup
      · obtain ⟨message, hmessage⟩ := Option.isSome_iff_exists.mp hsegment
        obtain ⟨stored, -, hscan⟩ := hsafe.scan
        obtain ⟨delta, hscan, -⟩ := hscan ⟨[], []⟩
        simp only [Folder.scanCatalog, hmessage] at hscan
        cases hload : (remote.crash process batch cut torn).remote.loadSnapshots [] with
        | error error =>
          rw [hload] at hscan
          cases hscan
        | ok snapshots =>
          rw [hload] at hscan
          cases hscan
    refine ⟨hwhole, fun x hx hnew hwith hash hh => ?_⟩
    rw [crash_of_not_tears hwhole] at hsafe
    have hfound : ({ remote := remote.runOps process ((writeOps batch.objects).take cut) } :
        Folder).Discovers x.event := by
      obtain ⟨delta, hscan, he⟩ := hwith
      exact ⟨delta, (hfiled.scan_reached _).trans hscan, he⟩
    obtain ⟨-, segments, hreached⟩ := hfiled.reached_visible (hstocked.tidy hhex)
      (hpacked.plain hhex) hnew hfound
    have hlisted := (hsafe.visible x hx hnew hfound).2 _ rfl hash hh
    rw [mem_lookupChunks hh, hreached] at hlisted
    exact listed_commitBatch.mp hlisted
  · rintro ⟨hwhole, hcomplete⟩
    rw [crash_of_not_tears hwhole]
    exact hfiled.unbroken hstocked hhex hpacked hcomplete

end Remote

/-- Wherever `commit_batch` is cut in whatever run, readers get on exactly if no index and no
segment is cut short and what becomes visible has its chunks. -/
theorem World.crash_unbroken (hinj : Function.Injective (blake3 : Bytes → String))
    (hcdc : FastcdcTiles) (hhex : ∀ data, '.' ∉ (blake3 data).toList) {S : Setting}
    {ok : World → Label → Prop} {w : World} {c : String} (h : w.Reachable S ok) {s : RuntimeState}
    {k : Except SyncError Unit → Prog host RuntimeState (Except SyncError Unit)}
    (hcall : (w.clients c).prog = .call s (.commitBatch batch) k) :
    Unbroken w.remote batch (w.remote.crash process batch cut torn) ↔
      ¬ w.remote.Tears process batch cut torn ∧ w.remote.Completes batch cut :=
  Remote.unbroken_iff h.filed (h.stocked hinj hcdc) hhex (h.relies.packed hcdc hcall)

end Safety

section Scripts

open Sample

attribute [local instance] crates

/-- One client that is about to publish its first two files, cut between any two
operations. -/
theorem World.crash_unbroken_first : ∃ w batch,
    World.Reachable {} World.Unmaintained w ∧ batchOf w "A" = some batch ∧
      batch.commits.length = 2 ∧ ∀ cut, Unbroken w.remote batch (w.remote.crash 7 batch cut none) := by
  obtain ⟨w, hw, hp⟩ := exists_reachable {} World.Unmaintained
    [.step (.edit "A" (key "a") (text "a" "t2")), .step (.edit "A" (key "b") (text "b" "t3")),
      .step (.start "A" (.reconcile ⟨["s"]⟩)), .answers "A" 8]
    (fun w => (batchOf w "A").any fun batch =>
      batch.commits.length = 2 ∧ ∀ x ∈ batch.commits, ∀ hash ∈ x.change.chunkHashes,
        ∃ index ∈ batch.indexes, batch.Lands w.remote index ∧ index.data.Lists hash)
    (by decide +kernel)
  obtain ⟨batch, hb, hlodges⟩ := (Option.any_eq_true _ _).mp hp
  obtain ⟨htwo, hlodges⟩ := of_decide_eq_true hlodges
  obtain ⟨s, k, hcall⟩ := call_of_batchOf hb
  refine ⟨w, batch, hw, hb, htwo, fun cut => ?_⟩
  apply (World.crash_unbroken hex_injective fastcdcTiles dot_notMem_hex hw hcall).mpr
  constructor
  · rintro ⟨htorn, -⟩
    cases htorn
  · intro x hx _ _ hash hh
    exact Or.inr (hlodges x hx hash hh)

/-- The write of the segment is cut short, and no scan gets past it. -/
theorem World.crash_breaks_scan : ∃ w batch cut message,
    World.Reachable {} World.Unmaintained w ∧ batchOf w "A" = some batch ∧
      (w.remote.scanCatalog ⟨[], []⟩).isOk ∧
      ¬ ((w.remote.crash 7 batch cut (some message)).scanCatalog ⟨[], []⟩).isOk := by
  obtain ⟨w, hw, hp⟩ := exists_reachable {} World.Unmaintained
    [.step (.edit "A" (key "a") (text "a" "t2")), .step (.edit "A" (key "b") (text "b" "t3")),
      .step (.start "A" (.reconcile ⟨["s"]⟩)), .answers "A" 8]
    (fun w => (batchOf w "A").any fun batch => (w.remote.scanCatalog ⟨[], []⟩).isOk ∧
      ¬ ((w.remote.crash 7 batch 8 (some "EOF while parsing")).scanCatalog ⟨[], []⟩).isOk)
    (by decide +kernel)
  obtain ⟨batch, hb, hp⟩ := (Option.any_eq_true _ _).mp hp
  exact ⟨w, batch, 8, _, hw, hb, of_decide_eq_true hp⟩

end Scripts

end Rollforward
