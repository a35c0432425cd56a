import Rollforward.Runtime.Catalog

/-! `runtime.rs`: `execute` and `reconcile`. -/

namespace Rollforward

open Std Lib

variable [Crates]

/-- What a run has counted so far. -/
structure Tally where
  report : SyncReport := {}
  failures : Map String Nat := ∅

def Tally.fail (tally : Tally) (scope : String) : Tally where
  report := { tally.report with failures := tally.report.failures + 1 }
  failures := tally.failures.insert scope (tally.failures[scope]?.getD 0 + 1)

def reportScopes (request : SyncRequest) (plan : List PlanOperation) (failures : Map String Nat) :
    List ScopeReport :=
  request.scopes.map fun scope =>
    let conflicts := (plan.filter fun operation =>
      operation.key.scopeId = scope ∧ operation.isConflict).length
    let failed := failures[scope]?.getD 0
    { scopeId := scope
      status := if failed > 0 then .failed else if conflicts > 0 then .partialDone else .complete
      conflicts, failures := failed }

/-- Clear the conflicts of the requested scopes and record the planned ones. -/
def RuntimeState.recordConflicts (state : RuntimeState) (request : SyncRequest)
    (plan : List PlanOperation) : RuntimeState :=
  let records := plan.filterMap fun operation =>
    match operation with
    | .conflict record => some record
    | _ => none
  let kept := state.conflicts.retain fun conflict => conflict.resource.scopeId ∉ request.scopes
  { state with conflicts := kept.insertAll records }

/-- The uploads of a plan, prepared: what failed, what a policy merged, and the
chunks of the binary files. -/
structure Prepared where
  allChunks : List (ChunkInfo × Bytes) := []
  manifests : Map ResourceKey (List String) := ∅
  failedUploadKeys : List ResourceKey := []
  mergedTexts : Map ResourceKey Bytes := ∅
  tally : Tally := {}

/-- What a merge policy is asked about: only text, against an acknowledged
baseline whose heads have moved. -/
def mergeInput (rt : SyncRuntime) (state : RuntimeState) (key : ResourceKey)
    (content : ResourceContent) : Option (TextMergePolicy × Yrs.Update) :=
  match content.kind, rt.textMergePolicy,
      (state.baselines.get? key.encoded).map StoredBaseline.state,
      state.textStates[key.encoded]? with
  | .text, some policy, some (.present _ _ remoteHeads), some full =>
    if remoteHeads ≠ state.heads key then some (policy, full) else none
  | _, _, _, _ => none

/-- The verdict of the merge policy on one upload, `notHandled` when it is not asked. -/
def askPolicy (rt : SyncRuntime) (state : RuntimeState) (key : ResourceKey)
    (content : ResourceContent) : Except SyncError TextMergeResult :=
  match mergeInput rt state key content with
  | none => .ok .notHandled
  | some (policy, full) => do
    let base ← TextDoc.fromBaselineAndDeltas (some full) []
    let remote ← state.textDoc key
    policy.mergeText key (textBytes (TextDoc.content base)) content.data
      (textBytes (TextDoc.content remote))

def Prepared.failUpload (prepared : Prepared) (key : ResourceKey) : Prepared :=
  { prepared with
    failedUploadKeys := key :: prepared.failedUploadKeys
    tally := prepared.tally.fail key.scopeId }

def Prepared.addChunks (prepared : Prepared) (key : ResourceKey) (content : ResourceContent) :
    Prepared :=
  match content.kind with
  | .text => prepared
  | .binary =>
    let chunks := chunkData content.data
    { prepared with
      manifests := prepared.manifests.insert key (chunks.map fun chunk => chunk.1.hash)
      allChunks := prepared.allChunks ++ chunks }

def prepareUpload (rt : SyncRuntime) (contents : Map ResourceKey ResourceContent)
    (prepared : Prepared) (operation : PlanOperation) : Sync Prepared :=
  match operation with
  | .upload key localState =>
    match contents[key]? with
    | none => return prepared.failUpload key
    | some content =>
      if localState.versionToken ≠ some content.versionToken then
        return prepared.failUpload key
      else do
        let state ← Comp.get
        match ← Comp.ofExcept (askPolicy rt state key content) with
        | .notHandled => return prepared.addChunks key content
        | .merged data =>
          let _ ← Comp.ofExcept (fromUtf8 data)
          let prepared := { prepared with mergedTexts := prepared.mergedTexts.insert key data }
          return prepared.addChunks key content
        | .conflict _ =>
          let remote ← Comp.ofExcept (state.remoteState key)
          let record := ConflictRecord.new key .contentVsContent localState remote
          Comp.modify fun state => { state with conflicts := state.conflicts.insert record }
          let report := prepared.tally.report
          let report := { report with conflicts := report.conflicts + 1 }
          return { prepared with
            failedUploadKeys := key :: prepared.failedUploadKeys
            tally := { prepared.tally with report } }
  | _ => return prepared

/-- The document a local text is turned into a delta against. -/
def uploadBase (state : RuntimeState) (prepared : Prepared) (key : ResourceKey) :
    Except SyncError Yrs.Doc :=
  if prepared.mergedTexts[key]?.isSome then state.textDoc key
  else
    match (state.baselines.get? key.encoded).bind fun _ => state.textStates[key.encoded]? with
    | some full => TextDoc.fromBaselineAndDeltas (some full) []
    | none => .ok Yrs.new

def uploadChange (prepared : Prepared) (key : ResourceKey) (content : ResourceContent) :
    Sync ResourceChange :=
  match content.kind with
  | .binary =>
    let chunkHashes := prepared.manifests[key]?.getD []
    return .binarySnapshot (blake3 content.data) content.data.length chunkHashes
  | .text => do
    let state ← Comp.get
    let doc ← Comp.ofExcept (uploadBase state prepared key)
    let text ← Comp.ofExcept (fromUtf8 (prepared.mergedTexts[key]?.getD content.data))
    let client ← Sync.randomClientId
    return .textDelta (TextDoc.setText client doc text).2

def operationChange (contents : Map ResourceKey ResourceContent) (prepared : Prepared)
    (operation : PlanOperation) : Sync (Option ResourceChange) :=
  match operation with
  | .publishDelete _ => return some .delete
  | .upload key _ =>
    match contents[key]? with
    | some content => return some (← uploadChange prepared key content)
    | none => return none
  | _ => return none

def createCommit (rt : SyncRuntime) (contents : Map ResourceKey ResourceContent)
    (prepared : Prepared) (created : List Commit) (operation : PlanOperation) :
    Sync (List Commit) :=
  let key := operation.key
  if key ∈ prepared.failedUploadKeys then return created
  else do
    let parents := (← Comp.get).heads key
    let counter ← nextCounter
    match ← operationChange contents prepared operation with
    | none => return created
    | some change =>
      let timestamp ← Sync.nowMillis
      return created ++ [Commit.create key parents rt.clientId counter timestamp change]

def localMap (locals : List LocalResource) : Map ResourceKey LocalResource :=
  ExtTreeMap.ofList (locals.map fun resource => (resource.key, resource)) compare

def localStateOf (locals : List LocalResource) (key : ResourceKey) : ReplicaState :=
  ((localMap locals)[key]?.map LocalResource.state).getD .missing

/-- Write the merged text back and move the baseline, if the replica lets it. -/
def writeBack (locals : List LocalResource) (tally : Tally) (key : ResourceKey)
    (heads : List String) : Sync Tally := do
  let merged ← Comp.ofExcept ((← Comp.get).textDoc key)
  let data := textBytes (TextDoc.content merged)
  let results ← Sync.applyMutations
    [.writePresent key data (precondition (localStateOf locals key))]
  match results.head?.filter fun result => result.status = .applied with
  | some result =>
    Comp.modify fun state =>
      { state with
        textStates := state.textStates.insert key.encoded (TextDoc.fullUpdate merged)
      }.setPresentBaseline key (blake3 data) (result.versionToken.getD "") heads
    let report := tally.report
    return { tally with report := { report with uploaded := report.uploaded + 1 } }
  | none => return tally

def afterCommit (locals : List LocalResource) (tally : Tally) (commit : Commit) :
    Sync Tally := do
  let key := commit.resource
  Comp.modify fun state => { state with commits := state.commits.insert commit }
  let heads := (← Comp.get).heads key
  match commit.change with
  | .delete =>
    Comp.modify fun state => state.setDeletedBaseline key heads
    let report := tally.report
    return { tally with report := { report with deletedRemote := report.deletedRemote + 1 } }
  | .binarySnapshot contentId _ _ =>
    let versionToken := (localStateOf locals key).versionToken.getD ""
    Comp.modify fun state => state.setPresentBaseline key contentId versionToken heads
    let report := tally.report
    return { tally with report := { report with uploaded := report.uploaded + 1 } }
  | .textDelta _ => writeBack locals tally key heads

def isTextCommit (state : RuntimeState) (id : Option String) : Bool :=
  ((id.bind state.commits.get?).map fun commit => commit.change.isText).getD false

/-- The lookup a download announces its transfer with. -/
def announceDownload (remote : RemoteResourceState) : Sync Unit := do
  let state ← Comp.get
  match (remote.heads.head?.bind state.commits.get?).map Commit.change with
  | some (.binarySnapshot _ _ chunkHashes) =>
    let _ ← Sync.lookupChunks chunkHashes
    return ()
  | _ => return ()

/-- Keep the document of all deltas as the one the local text stands for. -/
def recordText (key : ResourceKey) : Sync Unit := do
  let state ← Comp.get
  let document ← Comp.ofExcept (state.textDoc key)
  Comp.modify fun state => { state with
    textStates := state.textStates.insert key.encoded (TextDoc.fullUpdate document) }

def noteText (key : ResourceKey) (selected : Option String) : Sync Unit := do
  let state ← Comp.get
  if isTextCommit state selected then do
    recordText key
    Comp.modify fun state => { state with kinds := state.kinds.insert key.encoded .text }
  else return ()

def download (locals : List LocalResource) (tally : Tally) (key : ResourceKey)
    (remote : RemoteResourceState) : Sync Tally := do
  announceDownload remote
  let data ← contentForRemote key none
  let result ← applyMutation
    (.writePresent key data (precondition (localStateOf locals key)))
    "local replica returned no apply result" (·.getD "local precondition failed")
  noteText key remote.heads.head?
  Comp.modify fun state => state.setPresentBaseline key (remote.contentId.getD "")
    (result.versionToken.getD "") remote.heads
  let report := tally.report
  return { tally with report := { report with downloaded := report.downloaded + 1 } }

/-- Keep the document of a resource that is known to be text. -/
def keepText (key : ResourceKey) : Sync Unit := do
  let state ← Comp.get
  if state.kinds[key.encoded]? = some .text then recordText key else return ()

def establishBaseline (tally : Tally) (key : ResourceKey) (localState : ReplicaState)
    (remoteHeads : List String) : Sync Tally := do
  keepText key
  Comp.modify fun state => state.setPresentBaseline key (localState.contentId.getD "")
    (localState.versionToken.getD "") remoteHeads
  let report := tally.report
  return { tally with report := { report with unchanged := report.unchanged + 1 } }

def applyOperation (locals : List LocalResource) (tally : Tally) (operation : PlanOperation) :
    Sync Tally := do
  let report := tally.report
  match operation with
  | .noop _ => return { tally with report := { report with unchanged := report.unchanged + 1 } }
  | .establishBaseline key localState remoteHeads =>
    establishBaseline tally key localState remoteHeads
  | .establishDeletedBaseline key remoteHeads =>
    Comp.modify fun state => state.setDeletedBaseline key remoteHeads
    return { tally with report := { report with unchanged := report.unchanged + 1 } }
  | .download key remote => download locals tally key remote
  | .applyDelete key localState remoteHeads =>
    let _ ← applyMutation (.applyDelete key (precondition localState))
      "local replica returned no delete result" (·.getD "local delete precondition failed")
    Comp.modify fun state => state.setDeletedBaseline key remoteHeads
    return { tally with report := { report with deletedLocal := report.deletedLocal + 1 } }
  | .upload .. | .publishDelete _ | .conflict _ => return tally

/-- A failed operation is counted; the loop goes on either way. -/
def runOperation (locals : List LocalResource) (tally : Tally) (operation : PlanOperation) :
    Sync Tally := do
  let outcome ← Comp.attempt (applyOperation locals tally operation)
  Sync.saveRuntimeState
  match outcome with
  | .ok tally => return tally
  | .error _ => return tally.fail operation.key.scopeId

def startRun (request : SyncRequest) (plan : List PlanOperation) : Sync Unit := do
  Comp.modify fun state => { state.recordConflicts request plan with
    activeRun := some ⟨plan.map PlanOperation.key⟩ }
  Sync.saveRuntimeState

def uploadKeys (uploads : List PlanOperation) : List ResourceKey :=
  uploads.filterMap fun operation =>
    match operation with
    | .upload key _ => some key
    | _ => none

/-- Publish the batch and record its commits. -/
def publishBatch (locals : List LocalResource) (batch : CommitBatch) (tally : Tally) :
    Sync Tally :=
  if batch.commits.isEmpty && batch.packs.isEmpty then return tally
  else do
    Sync.commitBatch batch
    let tally ← batch.commits.foldlM (afterCommit locals) tally
    Sync.saveRuntimeState
    return tally

def runUploads (rt : SyncRuntime) (locals : List LocalResource) (plan : List PlanOperation)
    (tally : Tally) : Sync Tally := do
  let uploads := plan.filter PlanOperation.isUpload
  let contents := contentMap (← Sync.readResources (uploadKeys uploads))
  let prepared ← uploads.foldlM (prepareUpload rt contents) { tally }
  let existing ← Sync.lookupChunks (prepared.allChunks.map fun chunk => chunk.1.hash)
  let commits ← uploads.foldlM (createCommit rt contents prepared) []
  let batch := { packBatch (newChunks prepared.allChunks existing) with commits }
  publishBatch locals batch prepared.tally

def acknowledgePlan (rt : SyncRuntime) (plan : List PlanOperation) : Sync Unit := do
  let state ← Comp.get
  Sync.writeAcknowledgements
    ((plan.filter fun operation => !operation.isConflict).map fun operation =>
      { clientId := rt.clientId, resource := operation.key
        observedHeads := state.heads operation.key, pinnedCommits := [] })

def execute (rt : SyncRuntime) (request : SyncRequest) (locals : List LocalResource)
    (plan : List PlanOperation) : Sync SyncReport := do
  let conflicts := (plan.filter PlanOperation.isConflict).length
  startRun request plan
  let tally ← runUploads rt locals plan { report := { conflicts } }
  let tally ← plan.foldlM (runOperation locals) tally
  acknowledgePlan rt plan
  Comp.modify fun state => { state with activeRun := none }
  Sync.saveRuntimeState
  return { tally.report with scopes := reportScopes request plan tally.failures }

def RuntimeState.recordKinds (state : RuntimeState) (locals : List LocalResource) : RuntimeState :=
  let record := fun (m : Map String ResourceKind) (resource : LocalResource) =>
    m.insert resource.key.encoded resource.kind
  { state with kinds := locals.foldl record state.kinds }

def reconcile (rt : SyncRuntime) (request : SyncRequest) : Sync SyncReport := do
  Comp.modify fun state => { state with activeRun := none }
  refreshRemote request.scopes
  snapshotLargeCatalogs rt
  let locals ← localInventory request.scopes
  Comp.modify fun state => state.recordKinds locals
  let plan ← Comp.ofExcept ((← Comp.get).buildPlan rt request.scopes locals)
  execute rt request locals plan

end Rollforward
