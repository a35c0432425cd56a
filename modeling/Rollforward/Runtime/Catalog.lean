import Rollforward.Runtime.Host

/-! `runtime.rs`: refreshing from the catalog, the local inventory, the plan, and
the publishing of single commits. -/

namespace Rollforward

open Std Lib Comp

variable [Crates]

/-- Count the events a snapshot does not cover yet. -/
def RuntimeState.countEvents (state : RuntimeState) (delta : CatalogDelta) : RuntimeState :=
  let coverage := collectCursors delta.snapshotCursors
  let count := fun (m : Map String Nat) (event : CatalogEvent) =>
    if event.counter ≤ reached coverage event.lane then m
    else m.insert event.resource.scopeId (m[event.resource.scopeId]?.getD 0 + 1)
  { state with
    catalogEventsSinceSnapshot := delta.events.foldl count state.catalogEventsSinceSnapshot }

def RuntimeState.missingIds (state : RuntimeState) (delta : CatalogDelta) : List String :=
  (delta.events.filter fun event => (state.commits.get? event.commitId).isNone).map
    CatalogEvent.commitId

def RuntimeState.absorb (state : RuntimeState) (commits : List Commit) (delta : CatalogDelta) :
    RuntimeState :=
  { state with
    commits := state.commits.insertAll commits
    cursors := cursorList (raiseCursors (collectCursors state.cursors) delta.cursors) }

def refreshRemote (scopes : List String) : Sync Unit := do
  let state ← Comp.get
  let delta ← Sync.scanCatalog { scopes, cursors := state.cursors }
  Comp.modify fun state => state.countEvents delta
  let state ← Comp.get
  let commits ← Sync.loadCommits (state.missingIds delta)
  Comp.modify fun state => state.absorb commits delta

def hexDigit (c : Char) : Nat :=
  if c.isDigit then c.toNat - '0'.toNat else c.toNat - 'a'.toNat + 10

/-- The first two bytes of a hex digest, read as a big-endian `u16`. -/
def digestSuffix (hex : String) : Nat :=
  (hex.toList.take 4).foldl (fun n c => n * 16 + hexDigit c) 0

def SyncRuntime.snapshotGeneration (rt : SyncRuntime) (millis : Int) : Nat :=
  (millis.toNat <<< 16) % 2 ^ 64 ||| digestSuffix (blake3 (textBytes rt.clientId)) % 2 ^ 16

/-- The catalog generation a client writes for a scope from its own state. -/
def RuntimeState.catalogSnapshot (state : RuntimeState) (scope : String) (generation : Nat)
    (obsolete : List String) : CatalogSnapshot where
  generation
  scopeId := scope
  events := (state.commits.values.filter fun commit =>
    commit.resource.scopeId = scope ∧ commit.id ∉ obsolete).map Commit.event
  cursors := state.cursors.filter fun cursor => cursor.scopeId = scope

def RuntimeState.dueScopes (state : RuntimeState) : List String :=
  (state.catalogEventsSinceSnapshot.toList.filter fun (_, events) => events ≥ 10000).map Prod.fst

def snapshotScope (rt : SyncRuntime) (scope : String) : Sync Unit := do
  let state ← Comp.get
  let generation := rt.snapshotGeneration (← Sync.nowMillis)
  Sync.compactCatalog {
    snapshot := state.catalogSnapshot scope generation []
    obsoleteCommitIds := [] }
  Comp.modify fun state => { state with
    catalogEventsSinceSnapshot := state.catalogEventsSinceSnapshot.insert scope 0 }

def snapshotLargeCatalogs (rt : SyncRuntime) : Sync Unit := do
  let state ← Comp.get
  state.dueScopes.foldlM (fun _ scope => snapshotScope rt scope) ()

/-- The content id a baseline vouches for while the version token is unchanged. -/
def RuntimeState.cachedId (state : RuntimeState) (key : ResourceKey) (versionToken : String) :
    Option String :=
  match (state.baselines.get? key.encoded).map StoredBaseline.state with
  | some (.present contentId localVersion _) =>
    if localVersion = versionToken then some contentId else none
  | _ => none

def RuntimeState.fillCached (state : RuntimeState) (resource : LocalResource) : LocalResource :=
  match resource.state with
  | .present contentId size versionToken =>
    if contentId = "" then
      let contentId := (state.cachedId resource.key versionToken).getD ""
      { resource with state := .present contentId size versionToken }
    else resource
  | _ => resource

/-- Listed without a content id, and no baseline vouches for one. -/
def RuntimeState.needsRead (state : RuntimeState) (resource : LocalResource) : Bool :=
  match resource.state with
  | .present contentId _ versionToken =>
    contentId = "" ∧ state.cachedId resource.key versionToken = none
  | _ => false

def contentMap (contents : List ResourceContent) : Map ResourceKey ResourceContent :=
  ExtTreeMap.ofList (contents.map fun content => (content.key, content)) compare

def fillRead (contents : Map ResourceKey ResourceContent) (resource : LocalResource) :
    Except SyncError LocalResource :=
  match resource.state with
  | .present contentId _ versionToken =>
    if contentId = "" then
      match contents[resource.key]? with
      | some content =>
        let state := .present (blake3 content.data) content.data.length versionToken
        .ok { resource with state }
      | none => .error (.ioError ("local replica did not return " ++ resource.key.encoded))
    else .ok resource
  | _ => .ok resource

def localInventory (scopes : List String) : Sync (List LocalResource) := do
  let state ← Comp.get
  let resources ← Sync.listResources scopes
  let reads := (resources.filter state.needsRead).map LocalResource.key
  let resources := resources.map state.fillCached
  if reads = [] then return resources
  else
    let contents ← Sync.readResources reads
    Comp.ofExcept (resources.mapM (fillRead (contentMap contents)))

/-- Content conflicts on text resources are merged, not reported. -/
def mergeTextConflict (locals : List LocalResource) (operation : PlanOperation) : PlanOperation :=
  match operation with
  | .conflict record =>
    let kinds : Map ResourceKey ResourceKind :=
      ExtTreeMap.ofList (locals.map fun resource => (resource.key, resource.kind)) compare
    if record.kind = .contentVsContent ∧ kinds[record.resource]? = some .text then
      match locals.find? fun resource => resource.key = record.resource with
      | some resource => .upload resource.key resource.state
      | none => operation
    else operation
  | _ => operation

def priorityOrder (policy : TextMergePolicy) (left right : PlanOperation) : Prop :=
  left.key.scopeId < right.key.scopeId ∨ (left.key.scopeId = right.key.scopeId ∧
    (policy.resourcePriority left.key < policy.resourcePriority right.key ∨
      (policy.resourcePriority left.key = policy.resourcePriority right.key ∧
        left.key.resourceId ≤ right.key.resourceId)))

instance (policy : TextMergePolicy) : DecidableRel (priorityOrder policy) :=
  fun _ _ => inferInstanceAs (Decidable (_ ∨ _))

def RuntimeState.buildPlan (state : RuntimeState) (rt : SyncRuntime) (scopes : List String)
    (locals : List LocalResource) : Except SyncError (List PlanOperation) := do
  let plan := planInventory (locals.map fun resource => (resource.key, resource.state))
    (state.baselinePairs scopes) (← state.remotePairs scopes)
  let plan := plan.map (mergeTextConflict locals)
  match rt.textMergePolicy with
  | some policy => return plan.insertionSort (priorityOrder policy)
  | none => return plan

def chunkRanges (locations : List ChunkLocation) (hashes : List String) :
    Except SyncError (List PackRange) :=
  let locations : Map String ChunkLocation :=
    ExtTreeMap.ofList (locations.map fun location => (location.hash, location)) compare
  hashes.mapM fun hash =>
    match locations[hash]? with
    | some location => .ok ⟨hash, location.packId, location.offset, location.length⟩
    | none => .error (.ioError ("chunk " ++ hash ++ " is missing"))

def joinRanges (ranges : List RangeData) (hashes : List String) : Except SyncError Bytes := do
  let chunks : Map String Bytes :=
    ExtTreeMap.ofList (ranges.map fun range => (range.hash, range.data)) compare
  let parts ← hashes.mapM fun hash =>
    match chunks[hash]? with
    | some data => .ok data
    | none => .error (.ioError ("range " ++ hash ++ " was not returned"))
  return parts.flatten

def fetchChunks (chunkHashes : List String) : Sync Bytes := do
  let locations ← Sync.lookupChunks chunkHashes
  let ranges ← Comp.ofExcept (chunkRanges locations chunkHashes)
  let data ← Sync.readRanges ranges
  Comp.ofExcept (joinRanges data chunkHashes)

def contentForRemote (key : ResourceKey) (selectedHead : Option String) : Sync Bytes := do
  let state ← Comp.get
  match selectedHead.or (state.heads key).head? with
  | none => Comp.throw (.ioError ("remote resource " ++ key.encoded ++ " has no head"))
  | some head =>
    match state.commits.get? head with
    | none => Comp.throw (.ioError ("missing commit " ++ head))
    | some commit =>
      match commit.change with
      | .delete => Comp.throw (.ioError (key.encoded ++ " is deleted"))
      | .textDelta _ => do
        let doc ← Comp.ofExcept (state.textDocAt key head)
        return textBytes (TextDoc.content doc)
      | .binarySnapshot _ _ chunkHashes => fetchChunks chunkHashes

def nextCounter : Sync Nat := do
  Comp.modify fun state => { state with counter := state.counter + 1 }
  let state ← Comp.get
  return state.counter

/-- The snapshot a binary file is committed as. -/
def binarySnapshot (data : Bytes) : ResourceChange :=
  .binarySnapshot (blake3 data) data.length ((chunkData data).map fun chunk => chunk.1.hash)

/-- The chunks that the remote does not hold yet. -/
def newChunks (chunks : List (ChunkInfo × Bytes)) (existing : List ChunkLocation) :
    List (ChunkInfo × Bytes) :=
  chunks.filter fun chunk => chunk.1.hash ∉ existing.map ChunkLocation.hash

/-- The objects a batch uploads for its new chunks. -/
def packBatch (chunks : List (ChunkInfo × Bytes)) : CommitBatch where
  packs := (buildPacks chunks).map fun (id, data, _) => { id, data }
  indexes := (buildPacks chunks).map fun (id, _, index) => { id, data := index }

/-- The content of a commit made by `publish_bytes`, with the packs it needs. -/
def prepareChange (key : ResourceKey) (kind : ResourceKind) (data : Bytes) :
    Sync (ResourceChange × CommitBatch) :=
  match kind with
  | .binary => do
    let chunks := chunkData data
    let existing ← Sync.lookupChunks (chunks.map fun chunk => chunk.1.hash)
    return (binarySnapshot data, packBatch (newChunks chunks existing))
  | .text => do
    let state ← Comp.get
    let document ← Comp.ofExcept (state.textDoc key)
    let text ← Comp.ofExcept (fromUtf8 data)
    let client ← Sync.randomClientId
    return (.textDelta (TextDoc.setText client document text).2, {})

/-- Publish one commit in a batch of its own and record it. -/
def publishCommit (rt : SyncRuntime) (key : ResourceKey) (parents : List String) (counter : Nat)
    (change : ResourceChange) (batch : CommitBatch) : Sync Commit := do
  let timestamp ← Sync.nowMillis
  let commit := Commit.create key parents rt.clientId counter timestamp change
  Sync.commitBatch { batch with commits := [commit] }
  Comp.modify fun state => { state with commits := state.commits.insert commit }
  return commit

def publishBytes (rt : SyncRuntime) (key : ResourceKey) (kind : ResourceKind) (data : Bytes)
    (parents : List String) : Sync Commit := do
  let counter ← nextCounter
  let (change, batch) ← prepareChange key kind data
  publishCommit rt key parents counter change batch

def publishDelete (rt : SyncRuntime) (key : ResourceKey) (parents : List String) :
    Sync Commit := do
  let counter ← nextCounter
  publishCommit rt key parents counter .delete {}

def precondition (localState : ReplicaState) : MutationPrecondition :=
  match localState.versionToken with
  | some versionToken => .version versionToken
  | none => .missing

/-- One local mutation; anything but `Applied` is an error. -/
def applyMutation (mutation : LocalMutation) (noResult : String)
    (refused : Option String → String) : Sync LocalApplyResult := do
  let results ← Sync.applyMutations [mutation]
  match results with
  | [] => Comp.throw (.ioError noResult)
  | result :: _ =>
    if result.status = .applied then return result
    else Comp.throw (.ioError (refused result.error))

end Rollforward
