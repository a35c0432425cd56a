import Rollforward.Lib.Program
import Rollforward.Remote

/-! `adapter.rs` and `v2_store.rs`: everything the runtime calls out to.  Between
two calls a runtime only touches its own `RuntimeState`. -/

namespace Rollforward

open Std Lib

section

variable [Yrs]

inductive Req
  | scanCatalog (request : CatalogScanRequest)
  | loadCommits (ids : List String)
  | commitBatch (batch : CommitBatch)
  | lookupChunks (hashes : List String)
  | readRanges (ranges : List PackRange)
  | writeAcknowledgements (acknowledgements : List ResourceAck)
  | listAcknowledgements (resources : List ResourceKey)
  | listPackIds
  | deletePackObjects (packIds : List String)
  | compactCatalog (compaction : CatalogCompaction)
  | listResources (scopes : List String)
  | readResources (keys : List ResourceKey)
  | applyMutations (mutations : List LocalMutation)
  | saveRuntimeState
  | nowMillis
  | randomClientId

@[reducible] def Req.Resp : Req → Type
  | .scanCatalog _ => Except SyncError CatalogDelta
  | .loadCommits _ => Except SyncError (List Commit)
  | .commitBatch _ => Except SyncError Unit
  | .lookupChunks _ => Except SyncError (List ChunkLocation)
  | .readRanges _ => Except SyncError (List RangeData)
  | .writeAcknowledgements _ => Except SyncError Unit
  | .listAcknowledgements _ => Except SyncError (List ResourceAck)
  | .listPackIds => Except SyncError (List String)
  | .deletePackObjects _ => Except SyncError Unit
  | .compactCatalog _ => Except SyncError Unit
  | .listResources _ => Except SyncError (List LocalResource)
  | .readResources _ => Except SyncError (List ResourceContent)
  | .applyMutations _ => Except SyncError (List LocalApplyResult)
  | .saveRuntimeState => Except SyncError Unit
  | .nowMillis => Int
  | .randomClientId => Nat

@[reducible] def host : Interface := ⟨Req, Req.Resp⟩

/-- A computation of the runtime.  Each call shows the state at that moment, so
`saveRuntimeState` needs no argument. -/
abbrev Sync (α : Type) := Comp host RuntimeState SyncError α

abbrev SyncEvent := Event host RuntimeState

namespace Sync

def scanCatalog (request : CatalogScanRequest) : Sync CatalogDelta :=
  Comp.request (Req.scanCatalog request) id

def loadCommits (ids : List String) : Sync (List Commit) :=
  Comp.request (Req.loadCommits ids) id

def commitBatch (batch : CommitBatch) : Sync Unit :=
  Comp.request (Req.commitBatch batch) id

def lookupChunks (hashes : List String) : Sync (List ChunkLocation) :=
  Comp.request (Req.lookupChunks hashes) id

def readRanges (ranges : List PackRange) : Sync (List RangeData) :=
  Comp.request (Req.readRanges ranges) id

def writeAcknowledgements (acknowledgements : List ResourceAck) : Sync Unit :=
  Comp.request (Req.writeAcknowledgements acknowledgements) id

def listAcknowledgements (resources : List ResourceKey) : Sync (List ResourceAck) :=
  Comp.request (Req.listAcknowledgements resources) id

def listPackIds : Sync (List String) :=
  Comp.request Req.listPackIds id

def deletePackObjects (packIds : List String) : Sync Unit :=
  Comp.request (Req.deletePackObjects packIds) id

def compactCatalog (compaction : CatalogCompaction) : Sync Unit :=
  Comp.request (Req.compactCatalog compaction) id

def listResources (scopes : List String) : Sync (List LocalResource) :=
  Comp.request (Req.listResources scopes) id

def readResources (keys : List ResourceKey) : Sync (List ResourceContent) :=
  Comp.request (Req.readResources keys) id

def applyMutations (mutations : List LocalMutation) : Sync (List LocalApplyResult) :=
  Comp.request (Req.applyMutations mutations) id

def saveRuntimeState : Sync Unit :=
  Comp.request Req.saveRuntimeState id

def nowMillis : Sync Int := Comp.request Req.nowMillis .ok

def randomClientId : Sync Nat := Comp.request Req.randomClientId .ok

end Sync

end

inductive TextMergeResult
  | notHandled
  | merged (data : Bytes)
  | conflict (reason : String)

structure TextMergePolicy where
  resourcePriority : ResourceKey → Int
  mergeText : ResourceKey → Bytes → Bytes → Bytes → Except SyncError TextMergeResult

structure SyncRuntime where
  clientId : String
  textMergePolicy : Option TextMergePolicy := none

end Rollforward
