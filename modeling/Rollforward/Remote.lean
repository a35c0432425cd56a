import Rollforward.State

/-! `v2_remote.rs`: the local-folder remote.  A directory of objects is an
ordered map from what its file names are made of; `write_immutable` keeps the
object that is already there. -/

namespace Rollforward

open Std Lib

structure CatalogSegment where
  clientId : String
  scopeId : String
  firstCounter : Nat
  lastCounter : Nat
  events : List CatalogEvent
  deriving DecidableEq

def CatalogSegment.lane (segment : CatalogSegment) : Lane := ⟨segment.clientId, segment.scopeId⟩

/-- One scope's directory of snapshots: a file per generation and `latest.json`. -/
structure SnapshotDir where
  generations : Map Nat CatalogSnapshot := ∅
  latest : Option Nat := none

/-- The snapshot that `latest.json` names, if there is one. -/
def SnapshotDir.loadLatest (dir : SnapshotDir) : Except SyncError (Option CatalogSnapshot) :=
  match dir.latest with
  | none => .ok none
  | some generation =>
    match dir.generations[generation]? with
    | some snapshot => .ok (some snapshot)
    | none => .error (.ioError "No such file or directory")

structure Remote [Yrs] where
  commits : CommitMap := ∅
  packs : Map String Bytes := ∅
  indexes : Map String PackIndex := ∅
  segments : List CatalogSegment := []
  snapshots : Map String SnapshotDir := ∅
  acknowledgements : Map String ResourceAck := ∅

/-- Collect cursors into a map; a later cursor of the same lane replaces an earlier. -/
def collectCursors (cursors : List CatalogCursor) : Map Lane Nat :=
  cursors.foldl (fun m cursor => m.insert cursor.lane cursor.counter) ∅

/-- `entry(lane).and_modify(max).or_insert(counter)`. -/
def raiseCursor (m : Map Lane Nat) (lane : Lane) (counter : Nat) : Map Lane Nat :=
  m.insert lane (match m[lane]? with
    | some value => max value counter
    | none => counter)

def raiseCursors (m : Map Lane Nat) (cursors : List CatalogCursor) : Map Lane Nat :=
  cursors.foldl (fun m cursor => raiseCursor m cursor.lane cursor.counter) m

def cursorList (m : Map Lane Nat) : List CatalogCursor :=
  m.toList.map fun (lane, counter) => ⟨lane.clientId, lane.scopeId, counter⟩

/-- The counter a map of cursors has reached in a lane. -/
def reached (m : Map Lane Nat) (lane : Lane) : Nat := m[lane]?.getD 0

def eventOrder (left right : CatalogEvent) : Prop :=
  left.clientId < right.clientId ∨ (left.clientId = right.clientId ∧ left.counter ≤ right.counter)

instance : DecidableRel eventOrder := fun _ _ => inferInstanceAs (Decidable (_ ∨ _))

/-- `write_immutable` of a pack: the object that is already there stays. -/
def writePack (packs : Map String Bytes) (pack : PackObject) : Map String Bytes :=
  packs.insertIfNew pack.id pack.data

def writeIndex (indexes : Map String PackIndex) (index : PackIndexObject) : Map String PackIndex :=
  indexes.insertIfNew index.id index.data

def writeCommit [Yrs] (commits : CommitMap) (commit : Commit) : CommitMap :=
  if (commits.get? commit.id).isSome then commits else commits.insert commit

/-- A segment's file name is made of its content. -/
def writeSegment (segments : List CatalogSegment) (segment : CatalogSegment) :
    List CatalogSegment :=
  if segment ∈ segments then segments else segments ++ [segment]

variable [Crates]

namespace Remote

def loadSnapshots (remote : Remote) (scopes : List String) :
    Except SyncError (List CatalogSnapshot) := do
  let snapshots ← remote.snapshots.toList.mapM fun entry => entry.2.loadLatest
  return (snapshots.flatMap Option.toList).filter fun snapshot =>
    inScopes scopes snapshot.scopeId

/-- How far a segment is already known: by the reader or through a snapshot. -/
def segmentCursor (cursors covered : Map Lane Nat) (segment : CatalogSegment) : Nat :=
  max (reached cursors segment.lane) (reached covered segment.lane)

def scanCatalog (remote : Remote) (request : CatalogScanRequest) :
    Except SyncError CatalogDelta := do
  let cursors := collectCursors request.cursors
  let snapshots ← remote.loadSnapshots request.scopes
  let snapshotCursors := snapshots.flatMap CatalogSnapshot.cursors
  let covered := collectCursors snapshotCursors
  let snapshotEvents := (snapshots.flatMap CatalogSnapshot.events).filter fun event =>
    event.counter > reached cursors event.lane ∧ inScopes request.scopes event.resource.scopeId
  let segments := remote.segments.filter fun segment =>
    inScopes request.scopes segment.scopeId ∧
      segmentCursor cursors covered segment < segment.lastCounter
  let segmentEvents := segments.flatMap fun segment =>
    segment.events.filter fun event =>
      event.counter > segmentCursor cursors covered segment ∧
        inScopes request.scopes event.resource.scopeId
  let next := segments.foldl (fun m segment => raiseCursor m segment.lane segment.lastCounter)
    (raiseCursors cursors snapshotCursors)
  return {
    events := (snapshotEvents ++ segmentEvents).insertionSort eventOrder
    cursors := cursorList next
    snapshotCursors }

def loadCommits (remote : Remote) (ids : List String) : Except SyncError (List Commit) :=
  ids.mapM fun id =>
    match remote.commits.get? id with
    | some commit => .ok commit
    | none => .error (.ioError "No such file or directory")

/-- The segment one author's commits of one scope are listed in. -/
def laneSegment (lane : Lane) (commits : List Commit) : CatalogSegment :=
  let events := (commits.insertionSort fun a b => a.clientCounter ≤ b.clientCounter).map fun commit =>
    { clientId := lane.clientId, counter := commit.clientCounter, commitId := commit.id,
      resource := commit.resource : CatalogEvent }
  { clientId := lane.clientId
    scopeId := lane.scopeId
    firstCounter := (events.head?.map CatalogEvent.counter).getD 0
    lastCounter := (events.getLast?.map CatalogEvent.counter).getD 0
    events }

def batchSegments (commits : List Commit) : List CatalogSegment :=
  let lanes : Map Lane Unit := ExtTreeMap.unitOfList (commits.map Commit.lane) compare
  lanes.keys.map fun lane => laneSegment lane (commits.filter fun commit => commit.lane = lane)

/-- The calls write the packs first and the segments last. -/
def commitBatch (remote : Remote) (batch : CommitBatch) : Remote :=
  { remote with
    packs := batch.packs.foldl writePack remote.packs
    indexes := batch.indexes.foldl writeIndex remote.indexes
    commits := batch.commits.foldl writeCommit remote.commits
    segments := (batchSegments batch.commits).foldl writeSegment remote.segments }

/-- What an index says about the wanted hashes; the first index to name a hash is kept. -/
def findChunks (wanted : List String) (found : Map String ChunkLocation) (index : PackIndex) :
    Map String ChunkLocation :=
  index.chunks.foldl (fun found chunk =>
    if chunk.hash ∈ wanted then
      found.insertIfNew chunk.hash ⟨chunk.hash, index.packId, chunk.offset, chunk.length⟩
    else found) found

/-- `lookup_chunks` over the index objects in the order the directory lists them. -/
def lookupIn (listing : List PackIndex) (hashes : List String) : List ChunkLocation :=
  (listing.foldl (findChunks hashes) ∅).toList.map Prod.snd

def lookupChunks (remote : Remote) (hashes : List String) : List ChunkLocation :=
  lookupIn (remote.indexes.toList.map Prod.snd) hashes

def readRange (remote : Remote) (range : PackRange) : Except SyncError RangeData :=
  match remote.packs[range.packId]? with
  | none => .error (.ioError "No such file or directory")
  | some pack =>
    let data := (pack.drop range.offset).take range.length
    if data.length < range.length then .error (.ioError "failed to fill whole buffer")
    else if blake3 data ≠ range.hash then .error (.corrupt range.hash)
    else .ok ⟨range.hash, data⟩

def readRanges (remote : Remote) (ranges : List PackRange) : Except SyncError (List RangeData) :=
  ranges.mapM remote.readRange

def writeAcknowledgements (remote : Remote) (acknowledgements : List ResourceAck) : Remote :=
  { remote with acknowledgements := acknowledgements.foldl (fun m ack =>
      m.insert (ack.clientId ++ "\x00" ++ ack.resource.encoded) ack) remote.acknowledgements }

def listAcknowledgements (remote : Remote) (resources : List ResourceKey) : List ResourceAck :=
  (remote.acknowledgements.toList.map Prod.snd).filter fun ack =>
    resources.isEmpty || ack.resource ∈ resources

def listPackIds (remote : Remote) : List String := remote.packs.keys

def deletePackObjects (remote : Remote) (packIds : List String) : Remote :=
  { remote with
    packs := packIds.foldl (fun m id => m.erase id) remote.packs
    indexes := packIds.foldl (fun m id => m.erase id) remote.indexes }

def compactCatalog (remote : Remote) (compaction : CatalogCompaction) : Remote :=
  let snapshot := compaction.snapshot
  let dir := remote.snapshots[snapshot.scopeId]?.getD {}
  let covered := collectCursors snapshot.cursors
  { remote with
    snapshots := remote.snapshots.insert snapshot.scopeId
      { generations := dir.generations.insertIfNew snapshot.generation snapshot
        latest := some snapshot.generation }
    segments := remote.segments.filter fun segment =>
      ¬ segment.lastCounter ≤ reached covered segment.lane
    commits := remote.commits.eraseAll compaction.obsoleteCommitIds }

end Remote

end Rollforward
