import Rollforward.Runtime.Resolve

/-! `runtime.rs`: `maintain` and `retire_client`. -/

namespace Rollforward

open Std Lib

variable [Crates]

def newestFirst (left right : Commit) : Prop :=
  right.timestamp < left.timestamp ∨ (left.timestamp = right.timestamp ∧ right.id ≤ left.id)

instance : DecidableRel newestFirst := fun _ _ => inferInstanceAs (Decidable (_ ∨ _))

namespace RuntimeState

def conflicted (state : RuntimeState) (key : ResourceKey) : Bool :=
  (state.heads key).length ≠ 1 ||
    state.conflicts.values.any (fun conflict => conflict.resource = key) ||
    (state.activeRun.map fun run => run.operations.any (· = key)).getD false

/-- The recorded kind of a resource, else the one its last commit (in id order) shows. -/
def resourceKind (state : RuntimeState) (key : ResourceKey) : ResourceKind :=
  state.kinds[key.encoded]?.getD <|
    match (state.resourceCommits key).getLast?.map Commit.change with
    | some (.textDelta _) => .text
    | _ => .binary

def activeClients (state : RuntimeState) (rt : SyncRuntime) (key : ResourceKey) : List String :=
  (((state.resourceCommits key).map Commit.author).filter fun client =>
    client ∉ state.retiredClients) ++ [rt.clientId]

def allAcknowledged (state : RuntimeState) (rt : SyncRuntime) (acks : List ResourceAck)
    (key : ResourceKey) (checkpoint : String) : Bool :=
  (state.activeClients rt key).all fun client => acks.any fun ack =>
    ack.clientId = client && ack.resource = key &&
      ack.observedHeads.any fun head => state.isDescendant head checkpoint

/-- The newest versions by timestamp, the checkpoint, and whatever a client pinned. -/
def retained (state : RuntimeState) (versions : Nat) (acks : List ResourceAck)
    (key : ResourceKey) (checkpoint : String) : List String :=
  let ordered := (state.resourceCommits key).insertionSort newestFirst
  let pinned := (acks.filter fun ack => ack.resource = key).flatMap ResourceAck.pinnedCommits
  (ordered.take versions).map Commit.id ++ [checkpoint] ++ pinned

def obsolete (state : RuntimeState) (versions : Nat) (acks : List ResourceAck)
    (key : ResourceKey) (checkpoint : String) : List String :=
  ((state.resourceCommits key).map Commit.id).filter fun id =>
    id ∉ state.retained versions acks key checkpoint

def dropCheckpoint (state : RuntimeState) (key : ResourceKey) : RuntimeState :=
  { state with checkpoints := state.checkpoints.erase key.encoded }

/-- The chunks that some stored snapshot is made of. -/
def liveHashes (state : RuntimeState) : List String :=
  state.commits.values.flatMap fun commit => commit.change.chunkHashes

end RuntimeState

/-- What the pass over the keys has decided so far. -/
structure Survey where
  report : V2MaintenanceReport := {}
  obsoleteByScope : Map String (List String) := ∅

def Survey.defer (survey : Survey) : Survey :=
  let report := survey.report
  { survey with report := { report with deferred := report.deferred + 1 } }

def Survey.add (survey : Survey) (scope : String) (obsolete : List String) : Survey :=
  let known := survey.obsoleteByScope[scope]?.getD []
  { survey with obsoleteByScope := survey.obsoleteByScope.insert scope (known ++ obsolete) }

/-- Publish the content of the head once more, as the commit others must acknowledge. -/
def publishCheckpoint (rt : SyncRuntime) (key : ResourceKey) (head : String) : Sync Commit := do
  let state ← Comp.get
  match state.commits.get? head with
  | none => Comp.throw (.ioError ("missing head commit " ++ head))
  | some selected =>
    match selected.change with
    | .delete => publishDelete rt key [head]
    | _ => do
      let content ← contentForRemote key (some head)
      publishBytes rt key .binary content [head]

def startCheckpoint (rt : SyncRuntime) (key : ResourceKey) (head : String) : Sync Unit := do
  let commit ← publishCheckpoint rt key head
  Comp.modify fun state =>
    { state with checkpoints := state.checkpoints.insert { key, commitId := commit.id } }
  Sync.writeAcknowledgements
    [{ clientId := rt.clientId, resource := key, observedHeads := [commit.id], pinnedCommits := [] }]

def surveyKey (rt : SyncRuntime) (versions : Nat) (acks : List ResourceAck) (survey : Survey)
    (key : ResourceKey) : Sync Survey := do
  let state ← Comp.get
  if (state.resourceCommits key).length ≤ versions then
    Comp.modify fun state => state.dropCheckpoint key
    return survey
  else if state.conflicted key || state.resourceKind key = .text then
    return survey.defer
  else
    match state.checkpoints.get? key.encoded with
    | none =>
      startCheckpoint rt key ((state.heads key).headD "")
      return survey.defer
    | some checkpoint =>
      if !state.allAcknowledged rt acks key checkpoint.commitId then
        return survey.defer
      else
        let obsolete := state.obsolete versions acks key checkpoint.commitId
        if obsolete = [] then
          Comp.modify fun state => state.dropCheckpoint key
          return survey
        else
          return survey.add key.scopeId obsolete

def compactScope (rt : SyncRuntime) (report : V2MaintenanceReport)
    (entry : String × List String) : Sync V2MaintenanceReport := do
  let (scope, obsolete) := entry
  let state ← Comp.get
  let generation := rt.snapshotGeneration (← Sync.nowMillis)
  Sync.compactCatalog {
    snapshot := state.catalogSnapshot scope generation obsolete
    obsoleteCommitIds := obsolete }
  Comp.modify fun state => { state with
    commits := state.commits.eraseAll obsolete
    checkpoints := state.checkpoints.retain fun checkpoint => checkpoint.key.scopeId ≠ scope }
  return { report with commitsDeleted := report.commitsDeleted + obsolete.length }

def collectPacks (report : V2MaintenanceReport) : Sync V2MaintenanceReport := do
  let state ← Comp.get
  let locations ← Sync.lookupChunks state.liveHashes
  let packs ← Sync.listPackIds
  let dead := packs.filter fun pack => pack ∉ locations.map ChunkLocation.packId
  if dead = [] then return report
  else
    Sync.deletePackObjects dead
    return { report with packsDeleted := dead.length }

def maintain (rt : SyncRuntime) (request : MaintenanceRequest) : Sync V2MaintenanceReport :=
  if request.historyRetentionVersions = 0 then return {}
  else do
    refreshRemote []
    let state ← Comp.get
    let keys := state.remoteKeys request.scopes
    let acks ← Sync.listAcknowledgements keys
    let survey ← keys.foldlM (surveyKey rt request.historyRetentionVersions acks)
      { report := { resources := keys.length } }
    let report ← survey.obsoleteByScope.toList.foldlM (compactScope rt) survey.report
    let report ← collectPacks report
    Sync.saveRuntimeState
    return report

def retireClient (clientId : String) : Sync Unit := do
  Comp.modify fun state =>
    { state with retiredClients := clientId :: state.retiredClients }
  Sync.saveRuntimeState

end Rollforward
