import Rollforward.Runtime.Reconcile

/-! `runtime.rs`: `resolve` and `rollback`. -/

namespace Rollforward

open Std Lib

variable [Crates]

/-- The state the inventory of the key's scope lists it in. -/
def currentState (key : ResourceKey) : Sync ReplicaState := do
  let locals ← localInventory [key.scopeId]
  return ((locals.find? fun resource => resource.key = key).map LocalResource.state).getD .missing

/-- The first resource a single read returns. -/
def readOne (key : ResourceKey) : Sync ResourceContent := do
  match ← Sync.readResources [key] with
  | content :: _ => return content
  | [] => Comp.throw (.ioError "local conflict side disappeared")

/-- Drop a conflict that no longer describes the resource. -/
def staleConflict (conflictId : String) : Sync α := do
  Comp.modify fun state => { state with conflicts := state.conflicts.erase conflictId }
  Sync.saveRuntimeState
  Comp.throw .conflictNeedResolution

def preservedData (key : ResourceKey) (source : VersionChoice) : Sync Bytes :=
  match source with
  | .ours => do
    let content ← readOne key
    return content.data
  | .remote commitId => contentForRemote key (some commitId)
  | .delete => Comp.throw (.ioError "a deletion cannot be preserved as a copy")

def preserveCopy (key : ResourceKey) (preserved : PreservedVersion) : Sync Unit := do
  let data ← preservedData key preserved.source
  let _ ← applyMutation (.createCopy preserved.target data)
    "local replica returned no copy result" (·.getD "copy target already exists")
  return ()

/-- The texts of the errors a local mutation fails with. -/
structure Refusal where
  noResult : String
  refused : Option String → String

def removeLocal (key : ResourceKey) (current : ReplicaState) (refusal : Refusal) : Sync Unit :=
  if current.isAbsent then return ()
  else do
    let _ ← applyMutation (.applyDelete key (precondition current)) refusal.noResult refusal.refused
    return ()

/-- Publish a deletion over `parents`, after removing the local file if there is one. -/
def commitDelete (rt : SyncRuntime) (key : ResourceKey) (current : ReplicaState)
    (parents : List String) (refusal : Refusal) : Sync Unit := do
  removeLocal key current refusal
  let commit ← publishDelete rt key parents
  Comp.modify fun state => state.setDeletedBaseline key [commit.id]

/-- Write the content of the commit `head` locally and publish it over `parents`. -/
def commitContent (rt : SyncRuntime) (key : ResourceKey) (head : String) (change : ResourceChange)
    (current : ReplicaState) (parents : List String) (refusal : Refusal) : Sync Unit := do
  let data ← contentForRemote key (some head)
  let kind := if change.isText then .text else .binary
  let result ← applyMutation (.writePresent key data (precondition current))
    refusal.noResult refusal.refused
  let commit ← publishBytes rt key kind data parents
  Comp.modify fun state => state.setPresentBaseline key (blake3 data)
    (result.versionToken.getD "") [commit.id]

/-- Make the version `selected` the current one again. -/
def commitVersion (rt : SyncRuntime) (key : ResourceKey) (selected : Commit)
    (current : ReplicaState) (parents : List String) (delete write : Refusal) : Sync Unit :=
  match selected.change with
  | .delete => commitDelete rt key current parents delete
  | change => commitContent rt key selected.id change current parents write

def resolveDelete : Refusal where
  noResult := "local replica returned no delete result"
  refused error := error.getD "delete precondition failed"

def resolveWrite : Refusal where
  noResult := "local replica returned no write result"
  refused error := error.getD "write precondition failed"

def choosePrimary (rt : SyncRuntime) (record : ConflictRecord) (current : ReplicaState)
    (heads : List String) (primary : VersionChoice) : Sync Unit :=
  let key := record.resource
  match primary with
  | .ours => do
    let content ← readOne key
    let commit ← publishBytes rt key content.kind content.data heads
    Comp.modify fun state => state.setPresentBaseline key (blake3 content.data)
      content.versionToken [commit.id]
  | .delete => commitDelete rt key current heads resolveDelete
  | .remote commitId =>
    if commitId ∉ record.remoteHeads then
      Comp.throw (.ioError "selected remote version is no longer a head")
    else do
      let state ← Comp.get
      match state.commits.get? commitId with
      | none => Comp.throw (.ioError "selected remote commit is unavailable")
      | some selected => commitVersion rt key selected current heads resolveDelete resolveWrite

def resolve (rt : SyncRuntime) (request : ResolveConflictRequest) : Sync SyncReport := do
  let state ← Comp.get
  match state.conflicts.get? request.conflictId with
  | none => Comp.throw (.ioError "conflict no longer exists")
  | some record =>
    let heads := state.heads record.resource
    if heads ≠ record.remoteHeads then staleConflict request.conflictId
    else
      let current ← currentState record.resource
      if current.versionToken ≠ record.localState.versionToken ∨
          current.contentId ≠ record.localState.contentId then
        staleConflict request.conflictId
      else
        request.preserved.foldlM (fun _ preserved => preserveCopy record.resource preserved) ()
        choosePrimary rt record current heads request.primary
        Comp.modify fun state =>
          { state with conflicts := state.conflicts.erase request.conflictId }
        Sync.saveRuntimeState
        reconcile rt ⟨[record.resource.scopeId]⟩

def rollbackRefusal (refused : String) : Refusal where
  noResult := "local replica returned no rollback result"
  refused _ := refused

def rollback (rt : SyncRuntime) (request : RollbackRequest) : Sync SyncReport := do
  let key := request.resource
  let state ← Comp.get
  match (state.commits.get? request.commitId).filter fun commit => commit.resource = key with
  | none => Comp.throw (.ioError "rollback version is unavailable")
  | some selected =>
    let current ← currentState key
    let parents := state.heads key
    commitVersion rt key selected current parents
      (rollbackRefusal "rollback delete precondition failed")
      (rollbackRefusal "rollback write precondition failed")
    Sync.saveRuntimeState
    reconcile rt ⟨[key.scopeId]⟩

end Rollforward
