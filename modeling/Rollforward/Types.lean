import Rollforward.Lib.KeyedMap
import Mathlib.Data.List.Dedup
import Mathlib.Data.List.Sort
import Mathlib.Data.String.Basic

/-! The flat records of `v2_types.rs`.  Fields that no operation reads
(`created_at`, operation ids, telemetry) are left out. -/

namespace Rollforward

open Std Lib

abbrev Bytes := List UInt8

/-- The `yrs` crate behind `TextDoc`.  `insert` takes the client id that a
`Doc` draws at random when it is created. -/
class Yrs where
  Update : Type
  Doc : Type
  StateVector : Type
  new : Doc
  getString : Doc → String
  removeRange : Doc → Nat → Nat → Doc
  insert : Nat → Doc → Nat → String → Doc
  stateVector : Doc → StateVector
  noState : StateVector
  encodeStateAsUpdate : Doc → StateVector → Update
  applyUpdate : Doc → Update → Except String Doc

inductive SyncError
  | ioError (msg : String)
  | conflictNeedResolution
  | serdeError (msg : String)
  | corrupt (hash : String)
  deriving DecidableEq

structure ResourceKey where
  scopeId : String
  resourceId : String
  deriving DecidableEq

namespace ResourceKey

def encoded (key : ResourceKey) : String := key.scopeId ++ "\x00" ++ key.resourceId

instance : Ord ResourceKey :=
  ⟨compareLex (compareOn ResourceKey.scopeId) (compareOn ResourceKey.resourceId)⟩

instance : TransOrd ResourceKey :=
  inferInstanceAs (TransCmp (compareLex (compareOn ResourceKey.scopeId)
    (compareOn ResourceKey.resourceId)))

instance : LawfulEqOrd ResourceKey where
  compare_self := by
    intro a
    change ((compare a.scopeId a.scopeId).then (compare a.resourceId a.resourceId)) = .eq
    simp
  eq_of_compare := by
    intro a b h
    change ((compare a.scopeId b.scopeId).then (compare a.resourceId b.resourceId)) = .eq at h
    rw [Ordering.then_eq_eq, Std.compare_eq_iff_eq, Std.compare_eq_iff_eq] at h
    cases a; cases b
    simpa using h

end ResourceKey

inductive ResourceKind
  | binary | text
  deriving DecidableEq

inductive ReplicaState
  | missing
  | present (contentId : String) (size : Nat) (versionToken : String)
  | deleted (versionToken : String)
  deriving DecidableEq

namespace ReplicaState

def contentId : ReplicaState → Option String
  | .present contentId _ _ => some contentId
  | _ => none

def versionToken : ReplicaState → Option String
  | .present _ _ versionToken | .deleted versionToken => some versionToken
  | .missing => none

/-- `matches!(state, Missing | Deleted { .. })`. -/
def isAbsent : ReplicaState → Bool
  | .present .. => false
  | .missing | .deleted _ => true

end ReplicaState

inductive BaselineState
  | present (contentId : String) (localVersion : String) (remoteHeads : List String)
  | deleted (remoteHeads : List String)
  deriving DecidableEq

inductive RemoteResourceState
  | missing
  | present (contentId : String) (size : Nat) (heads : List String)
  | deleted (heads : List String)
  | forked (heads : List String)
  deriving DecidableEq

/-- `sort` followed by `dedup`. -/
def sortDedup (xs : List String) : List String := (xs.insertionSort (· ≤ ·)).dedup

theorem mem_sortDedup {xs : List String} {x : String} : x ∈ sortDedup xs ↔ x ∈ xs := by
  rw [sortDedup, List.mem_dedup, List.mem_insertionSort]

namespace RemoteResourceState

def mkPresent (contentId : String) (size : Nat) (heads : List String) : RemoteResourceState :=
  .present contentId size (sortDedup heads)

def heads : RemoteResourceState → List String
  | .present _ _ heads | .deleted heads | .forked heads => heads
  | .missing => []

def contentId : RemoteResourceState → Option String
  | .present contentId _ _ => some contentId
  | _ => none

end RemoteResourceState

inductive ConflictKind
  | initialDivergence
  | contentVsContent
  | deleteVsModify
  | modifyVsDelete
  | remoteFork
  | preconditionFailed
  deriving DecidableEq

structure ConflictRecord where
  id : String
  resource : ResourceKey
  kind : ConflictKind
  localState : ReplicaState
  remoteHeads : List String
  deriving DecidableEq

inductive PlanOperation
  | noop (key : ResourceKey)
  | establishBaseline (key : ResourceKey) (localState : ReplicaState) (remoteHeads : List String)
  | establishDeletedBaseline (key : ResourceKey) (remoteHeads : List String)
  | upload (key : ResourceKey) (localState : ReplicaState)
  | download (key : ResourceKey) (remote : RemoteResourceState)
  | publishDelete (key : ResourceKey)
  | applyDelete (key : ResourceKey) (localState : ReplicaState) (remoteHeads : List String)
  | conflict (record : ConflictRecord)
  deriving DecidableEq

namespace PlanOperation

def key : PlanOperation → ResourceKey
  | .noop key | .establishBaseline key _ _ | .establishDeletedBaseline key _ | .upload key _
  | .download key _ | .publishDelete key | .applyDelete key _ _ => key
  | .conflict record => record.resource

def isConflict : PlanOperation → Bool
  | .conflict _ => true
  | _ => false

def isUpload : PlanOperation → Bool
  | .upload .. | .publishDelete _ => true
  | _ => false

end PlanOperation

inductive ResourceChange [Yrs]
  | binarySnapshot (contentId : String) (size : Nat) (chunkHashes : List String)
  | textDelta (delta : Yrs.Update)
  | delete

namespace ResourceChange

variable [Yrs]

def isText : ResourceChange → Bool
  | .textDelta _ => true
  | _ => false

def isDelete : ResourceChange → Bool
  | .delete => true
  | _ => false

def snapshot? : ResourceChange → Option (String × Nat)
  | .binarySnapshot contentId size _ => some (contentId, size)
  | _ => none

def chunkHashes : ResourceChange → List String
  | .binarySnapshot _ _ chunkHashes => chunkHashes
  | _ => []

end ResourceChange

structure Commit [Yrs] where
  id : String
  resource : ResourceKey
  parents : List String
  author : String
  clientCounter : Nat
  timestamp : Int
  change : ResourceChange

/-- Who wrote, and where: the pair every cursor of the catalog is kept under. -/
structure Lane where
  clientId : String
  scopeId : String
  deriving DecidableEq

namespace Lane

instance : Ord Lane := ⟨compareLex (compareOn Lane.clientId) (compareOn Lane.scopeId)⟩

instance : TransOrd Lane :=
  inferInstanceAs (TransCmp (compareLex (compareOn Lane.clientId) (compareOn Lane.scopeId)))

instance : LawfulEqOrd Lane where
  compare_self := by
    intro a
    change ((compare a.clientId a.clientId).then (compare a.scopeId a.scopeId)) = .eq
    simp
  eq_of_compare := by
    intro a b h
    change ((compare a.clientId b.clientId).then (compare a.scopeId b.scopeId)) = .eq at h
    rw [Ordering.then_eq_eq, Std.compare_eq_iff_eq, Std.compare_eq_iff_eq] at h
    cases a; cases b
    simpa using h

end Lane

def Commit.lane [Yrs] (commit : Commit) : Lane := ⟨commit.author, commit.resource.scopeId⟩

structure CatalogCursor where
  clientId : String
  scopeId : String
  counter : Nat
  deriving DecidableEq

def CatalogCursor.lane (cursor : CatalogCursor) : Lane := ⟨cursor.clientId, cursor.scopeId⟩

structure CatalogScanRequest where
  scopes : List String
  cursors : List CatalogCursor

structure CatalogEvent where
  clientId : String
  counter : Nat
  commitId : String
  resource : ResourceKey
  deriving DecidableEq

def CatalogEvent.lane (event : CatalogEvent) : Lane := ⟨event.clientId, event.resource.scopeId⟩

def Commit.event [Yrs] (commit : Commit) : CatalogEvent where
  clientId := commit.author
  counter := commit.clientCounter
  commitId := commit.id
  resource := commit.resource

structure CatalogDelta where
  events : List CatalogEvent
  cursors : List CatalogCursor
  snapshotCursors : List CatalogCursor

structure CatalogSnapshot where
  generation : Nat
  scopeId : String
  events : List CatalogEvent
  cursors : List CatalogCursor

structure CatalogCompaction where
  snapshot : CatalogSnapshot
  obsoleteCommitIds : List String

structure ChunkInfo where
  hash : String
  offset : Nat
  length : Nat
  deriving DecidableEq

structure PackedChunk where
  hash : String
  offset : Nat
  length : Nat
  deriving DecidableEq

structure PackIndex where
  packId : String
  chunks : List PackedChunk
  deriving DecidableEq

structure PackObject where
  id : String
  data : Bytes

/-- The stored bytes of an index object are its JSON; the model keeps the value. -/
structure PackIndexObject where
  id : String
  data : PackIndex

structure CommitBatch [Yrs] where
  commits : List Commit := []
  packs : List PackObject := []
  indexes : List PackIndexObject := []

structure ChunkLocation where
  hash : String
  packId : String
  offset : Nat
  length : Nat
  deriving DecidableEq

structure PackRange where
  hash : String
  packId : String
  offset : Nat
  length : Nat

structure RangeData where
  hash : String
  data : Bytes

structure ResourceAck where
  clientId : String
  resource : ResourceKey
  observedHeads : List String
  pinnedCommits : List String

structure LocalResource where
  key : ResourceKey
  kind : ResourceKind
  state : ReplicaState

structure ResourceContent where
  key : ResourceKey
  kind : ResourceKind
  versionToken : String
  data : Bytes

inductive MutationPrecondition
  | missing
  | version (versionToken : String)
  deriving DecidableEq

inductive LocalMutation
  | writePresent (key : ResourceKey) (data : Bytes) (precondition : MutationPrecondition)
  | applyDelete (key : ResourceKey) (precondition : MutationPrecondition)
  | createCopy (key : ResourceKey) (data : Bytes)

def LocalMutation.key : LocalMutation → ResourceKey
  | .writePresent key _ _ | .applyDelete key _ | .createCopy key _ => key

inductive ApplyStatus
  | applied | preconditionFailed | failed
  deriving DecidableEq

structure LocalApplyResult where
  key : ResourceKey
  status : ApplyStatus
  versionToken : Option String
  error : Option String

structure SyncRequest where
  scopes : List String

inductive ScopeStatus
  | complete | partialDone | blocked | failed
  deriving DecidableEq

structure ScopeReport where
  scopeId : String
  status : ScopeStatus
  conflicts : Nat
  failures : Nat

structure SyncReport where
  uploaded : Nat := 0
  downloaded : Nat := 0
  deletedRemote : Nat := 0
  deletedLocal : Nat := 0
  unchanged : Nat := 0
  conflicts : Nat := 0
  failures : Nat := 0
  scopes : List ScopeReport := []

inductive VersionChoice
  | ours
  | delete
  | remote (commitId : String)

structure PreservedVersion where
  source : VersionChoice
  target : ResourceKey

structure ResolveConflictRequest where
  conflictId : String
  primary : VersionChoice
  preserved : List PreservedVersion

structure RollbackRequest where
  resource : ResourceKey
  commitId : String

structure MaintenanceRequest where
  scopes : List String
  historyRetentionVersions : Nat

structure V2MaintenanceReport where
  resources : Nat := 0
  commitsDeleted : Nat := 0
  deferred : Nat := 0
  packsDeleted : Nat := 0

/-- The crates outside the repository that the engine computes with:
`blake3::hash(..).to_hex()`, the cut points of `FastCDC`, and the JSON that
commit and conflict ids are hashed from. -/
class Crates extends Yrs where
  blake3 : Bytes → String
  fastcdc : Bytes → Nat → Nat → Nat → List (Nat × Nat)
  commitBytes : ResourceKey → List String → String → Nat → Int → ResourceChange → Bytes
  conflictBytes : ResourceKey → ConflictKind → ReplicaState → List String → Bytes

variable [Crates]

def blake3 (data : Bytes) : String := Crates.blake3 data

def ConflictRecord.new (resource : ResourceKey) (kind : ConflictKind)
    (localState : ReplicaState) (remote : RemoteResourceState) : ConflictRecord :=
  let heads := remote.heads.insertionSort (· ≤ ·)
  { id := blake3 (Crates.conflictBytes resource kind localState heads)
    resource, kind, localState, remoteHeads := heads }

def Commit.create (resource : ResourceKey) (parents : List String) (author : String)
    (clientCounter : Nat) (timestamp : Int) (change : ResourceChange) : Commit :=
  let parents := sortDedup parents
  let digest := blake3 (Crates.commitBytes resource parents author clientCounter timestamp change)
  { id := author ++ ":" ++ toString clientCounter ++ ":" ++ digest
    resource, parents, author, clientCounter, timestamp, change }

end Rollforward
