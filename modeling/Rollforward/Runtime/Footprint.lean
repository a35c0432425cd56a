import Rollforward.Runtime.Maintain

/-! What the parts of the runtime call and what they leave alone, whatever they are
answered. -/

namespace Rollforward

open Std Lib

variable [Crates]

/-- Calls that change nothing. -/
def IsRead : Req → Prop
  | .lookupChunks _ | .readRanges _ | .listResources _ | .readResources _ | .nowMillis
  | .randomClientId => True
  | _ => False

/-- Calls that do not concern the catalog. -/
def Quiet : Req → Prop
  | .scanCatalog _ | .loadCommits _ | .commitBatch _ | .compactCatalog _ => False
  | _ => True

/-- Equal for the catalog, up to counters drawn. -/
structure SameCatalog (s t : RuntimeState) : Prop where
  commits : t.commits = s.commits
  cursors : t.cursors = s.cursors
  counter : s.counter ≤ t.counter

/-- Equal for the planner as well: at most conflicts and the journal changed. -/
structure SameBase (s t : RuntimeState) : Prop extends SameCatalog s t where
  baselines : t.baselines = s.baselines
  textStates : t.textStates = s.textStates
  kinds : t.kinds = s.kinds

section Relations

variable {s t u : RuntimeState}

theorem SameCatalog.refl (s : RuntimeState) : SameCatalog s s := ⟨rfl, rfl, le_rfl⟩

theorem SameCatalog.trans (hst : SameCatalog s t) (htu : SameCatalog t u) : SameCatalog s u :=
  ⟨htu.commits.trans hst.commits, htu.cursors.trans hst.cursors, hst.counter.trans htu.counter⟩

theorem SameBase.refl (s : RuntimeState) : SameBase s s := ⟨.refl s, rfl, rfl, rfl⟩

theorem SameBase.trans (hst : SameBase s t) (htu : SameBase t u) : SameBase s u :=
  ⟨hst.toSameCatalog.trans htu.toSameCatalog, htu.baselines.trans hst.baselines,
    htu.textStates.trans hst.textStates, htu.kinds.trans hst.kinds⟩

instance : IsPreorder RuntimeState SameCatalog where
  refl := SameCatalog.refl
  trans _ _ _ := SameCatalog.trans

instance : IsPreorder RuntimeState SameBase where
  refl := SameBase.refl
  trans _ _ _ := SameBase.trans

theorem IsRead.quiet {q : Req} (hq : IsRead q) : Quiet q := by
  cases q <;> first | exact trivial | exact hq.elim

end Relations

/-- Nothing is promised of the memory. -/
def Anyhow (_ _ : RuntimeState) : Prop := True

instance : IsPreorder RuntimeState Anyhow where
  refl _ := trivial
  trans _ _ _ _ _ := trivial

/-- Calls that leave the local files alone. -/
def NoWrite : Req → Prop
  | .applyMutations _ => False
  | _ => True

theorem IsRead.noWrite {q : Req} (hq : IsRead q) : NoWrite q := by
  cases q <;> first | exact trivial | exact hq.elim

/-- A computation that only reads. -/
def Reads (x : Sync α) : Prop := Comp.Within IsRead Eq x

/-- A computation that reads and leaves what plans are made from. -/
def Prepares (x : Sync α) : Prop := Comp.Within IsRead SameBase x

/-- A computation that leaves the catalog alone. -/
def Silent (x : Sync α) : Prop := Comp.Within Quiet SameCatalog x

theorem Reads.prepares {x : Sync α} (hx : Reads x) : Prepares x :=
  hx.mono (fun _ hq => hq) fun s _ e => e ▸ .refl s

theorem Prepares.silent {x : Sync α} (hx : Prepares x) : Silent x :=
  hx.mono (fun _ => IsRead.quiet) fun _ _ hs => hs.toSameCatalog

theorem Reads.silent {x : Sync α} (hx : Reads x) : Silent x := hx.prepares.silent

section Reads

theorem localInventory_reads (scopes : List String) : Reads (localInventory scopes) := by
  refine .bind .get fun state => .bind (.request (by exact trivial) _) fun resources => ?_
  dsimp only
  split
  · exact .pure _
  · exact .bind (.request (by exact trivial) _) fun contents => .ofExcept _

theorem fetchChunks_reads (hashes : List String) : Reads (fetchChunks hashes) :=
  .bind (.request (by exact trivial) _) fun _ => .bind (.ofExcept _) fun _ =>
    .bind (.request (by exact trivial) _) fun _ => .ofExcept _

theorem contentForRemote_reads (key : ResourceKey) (head : Option String) :
    Reads (contentForRemote key head) := by
  refine .bind .get fun state => ?_
  split
  · exact .throw _
  · split
    · exact .throw _
    · split
      · exact .throw _
      · exact .bind (.ofExcept _) fun _ => .pure _
      · exact fetchChunks_reads _

theorem prepareChange_reads (key : ResourceKey) (kind : ResourceKind) (data : Bytes) :
    Reads (prepareChange key kind data) := by
  cases kind with
  | binary => exact .bind (.request (by exact trivial) _) fun _ => .pure _
  | text =>
    exact .bind .get fun _ => .bind (.ofExcept _) fun _ => .bind (.ofExcept _) fun _ =>
      .bind (.request (by exact trivial) _) fun _ => .pure _

theorem uploadChange_reads (prepared : Prepared) (key : ResourceKey) (content : ResourceContent) :
    Reads (uploadChange prepared key content) := by
  unfold uploadChange
  split
  · exact .pure _
  · exact .bind .get fun _ => .bind (.ofExcept _) fun _ => .bind (.ofExcept _) fun _ =>
      .bind (.request (by exact trivial) _) fun _ => .pure _

theorem operationChange_reads (contents : Map ResourceKey ResourceContent) (prepared : Prepared)
    (operation : PlanOperation) : Reads (operationChange contents prepared operation) := by
  unfold operationChange
  split
  · exact .pure _
  · split
    · exact .bind (uploadChange_reads _ _ _) fun _ => .pure _
    · exact .pure _
  · exact .pure _

theorem announceDownload_reads (remote : RemoteResourceState) : Reads (announceDownload remote) := by
  refine .bind .get fun state => ?_
  split
  · exact .bind (.request (by exact trivial) _) fun _ => .pure _
  · exact .pure _

theorem currentState_reads (key : ResourceKey) : Reads (currentState key) :=
  .bind (localInventory_reads _) fun _ => .pure _

theorem readOne_reads (key : ResourceKey) : Reads (readOne key) := by
  refine .bind (.request (by exact trivial) _) fun contents => ?_
  split
  · exact .pure _
  · exact .throw _

end Reads

section Prepares

theorem nextCounter_prepares : Prepares nextCounter :=
  .bind (.modify fun _ => ⟨⟨rfl, rfl, Nat.le_succ _⟩, rfl, rfl, rfl⟩) fun _ =>
    .bind .get fun _ => .pure _

theorem prepareUpload_prepares (rt : SyncRuntime) (contents : Map ResourceKey ResourceContent)
    (prepared : Prepared) (operation : PlanOperation) :
    Prepares (prepareUpload rt contents prepared operation) := by
  unfold prepareUpload
  split
  · split
    · exact .pure _
    · split
      · exact .pure _
      · refine .bind .get fun state => .bind (.ofExcept _) fun verdict => ?_
        cases verdict with
        | notHandled => exact .pure _
        | merged data => exact .bind (.ofExcept _) fun _ => .pure _
        | conflict reason =>
          exact .bind (.ofExcept _) fun _ =>
            .bind (.modify fun _ => ⟨⟨rfl, rfl, le_rfl⟩, rfl, rfl, rfl⟩) fun _ => .pure _
  · exact .pure _

theorem createCommit_prepares (rt : SyncRuntime) (contents : Map ResourceKey ResourceContent)
    (prepared : Prepared) (created : List Commit) (operation : PlanOperation) :
    Prepares (createCommit rt contents prepared created operation) := by
  rw [createCommit]
  dsimp only
  split
  · exact .pure _
  refine .bind .get fun _ => .bind nextCounter_prepares fun _ =>
    .bind (operationChange_reads _ _ _).prepares fun change => ?_
  cases change with
  | none => exact .pure _
  | some change => exact .bind (.request (by exact trivial) _) fun _ => .pure _

end Prepares

section Silent

theorem applyMutation_silent (mutation : LocalMutation) (noResult : String)
    (refused : Option String → String) : Silent (applyMutation mutation noResult refused) := by
  refine .bind (.request (by exact trivial) _) fun results => ?_
  split
  · exact .throw _
  · split
    · exact .pure _
    · exact .throw _

theorem startRun_silent (request : SyncRequest) (plan : List PlanOperation) :
    Silent (startRun request plan) :=
  .bind (.modify fun _ => ⟨rfl, rfl, le_rfl⟩) fun _ => .request (by exact trivial) _

theorem acknowledgePlan_silent (rt : SyncRuntime) (plan : List PlanOperation) :
    Silent (acknowledgePlan rt plan) :=
  .bind .get fun _ => .request (by exact trivial) _

theorem writeBack_silent (locals : List LocalResource) (tally : Tally) (key : ResourceKey)
    (heads : List String) : Silent (writeBack locals tally key heads) := by
  refine .bind .get fun state => .bind (.ofExcept _) fun merged =>
    .bind (.request (by exact trivial) _) fun results => ?_
  split
  · exact .bind (.modify fun _ => ⟨rfl, rfl, le_rfl⟩) fun _ => .pure _
  · exact .pure _

theorem recordText_silent (key : ResourceKey) : Silent (recordText key) :=
  .bind .get fun _ => .bind (.ofExcept _) fun _ => .modify fun _ => ⟨rfl, rfl, le_rfl⟩

theorem noteText_silent (key : ResourceKey) (selected : Option String) :
    Silent (noteText key selected) := by
  refine .bind .get fun state => ?_
  split
  · exact .bind (recordText_silent key) fun _ => .modify fun _ => ⟨rfl, rfl, le_rfl⟩
  · exact .pure _

theorem download_silent (locals : List LocalResource) (tally : Tally) (key : ResourceKey)
    (remote : RemoteResourceState) : Silent (download locals tally key remote) :=
  .bind (announceDownload_reads remote).silent fun _ =>
    .bind (contentForRemote_reads key none).silent fun _ =>
    .bind (applyMutation_silent _ _ _) fun _ => .bind (noteText_silent _ _) fun _ =>
    .bind (.modify fun _ => ⟨rfl, rfl, le_rfl⟩) fun _ => .pure _

theorem keepText_silent (key : ResourceKey) : Silent (keepText key) := by
  refine .bind .get fun state => ?_
  split
  · exact recordText_silent key
  · exact .pure _

theorem establishBaseline_silent (tally : Tally) (key : ResourceKey) (localState : ReplicaState)
    (remoteHeads : List String) : Silent (establishBaseline tally key localState remoteHeads) :=
  .bind (keepText_silent key) fun _ =>
    .bind (.modify fun _ => ⟨rfl, rfl, le_rfl⟩) fun _ => .pure _

theorem applyOperation_silent (locals : List LocalResource) (tally : Tally)
    (operation : PlanOperation) : Silent (applyOperation locals tally operation) := by
  cases operation with
  | noop => exact .pure _
  | establishBaseline => exact establishBaseline_silent _ _ _ _
  | establishDeletedBaseline =>
    exact .bind (.modify fun _ => ⟨rfl, rfl, le_rfl⟩) fun _ => .pure _
  | upload => exact .pure _
  | download => exact download_silent _ _ _ _
  | publishDelete => exact .pure _
  | applyDelete =>
    exact .bind (applyMutation_silent _ _ _) fun _ =>
      .bind (.modify fun _ => ⟨rfl, rfl, le_rfl⟩) fun _ => .pure _
  | conflict => exact .pure _

theorem runOperation_silent (locals : List LocalResource) (tally : Tally)
    (operation : PlanOperation) : Silent (runOperation locals tally operation) := by
  refine .bind (applyOperation_silent locals tally operation).attempt fun outcome =>
    .bind (.request (by exact trivial) _) fun _ => ?_
  split
  · exact .pure _
  · exact .pure _

theorem staleConflict_silent (conflictId : String) : Silent (staleConflict conflictId : Sync α) :=
  .bind (.modify fun _ => ⟨rfl, rfl, le_rfl⟩) fun _ =>
    .bind (.request (by exact trivial) _) fun _ => .throw _

theorem preserveCopy_silent (key : ResourceKey) (preserved : PreservedVersion) :
    Silent (preserveCopy key preserved) := by
  refine .bind ?_ fun data => .bind (applyMutation_silent _ _ _) fun _ => .pure _
  unfold preservedData
  split
  · exact .bind (readOne_reads key).silent fun _ => .pure _
  · exact (contentForRemote_reads _ _).silent
  · exact .throw _

theorem removeLocal_silent (key : ResourceKey) (current : ReplicaState) (refusal : Refusal) :
    Silent (removeLocal key current refusal) := by
  unfold removeLocal
  split
  · exact .pure _
  · exact .bind (applyMutation_silent _ _ _) fun _ => .pure _

theorem collectPacks_silent (report : V2MaintenanceReport) : Silent (collectPacks report) := by
  refine .bind .get fun state => .bind (.request (by exact trivial) _) fun locations =>
    .bind (.request (by exact trivial) _) fun packs => ?_
  dsimp only
  split
  · exact .pure _
  · exact .bind (.request (by exact trivial) _) fun _ => .pure _

end Silent

section NoWrite

theorem Prepares.noWrite {x : Sync α} (hx : Prepares x) : Comp.Within NoWrite Anyhow x :=
  hx.mono (fun _ => IsRead.noWrite) fun _ _ _ => trivial

theorem recordText_noWrite (key : ResourceKey) : Comp.Within NoWrite Anyhow (recordText key) :=
  .bind .get fun _ => .bind (.ofExcept _) fun _ => .modify fun _ => trivial

theorem noteText_noWrite (key : ResourceKey) (selected : Option String) :
    Comp.Within NoWrite Anyhow (noteText key selected) := by
  refine .bind .get fun state => ?_
  split
  · exact .bind (recordText_noWrite key) fun _ => .modify fun _ => trivial
  · exact .pure _

theorem publishCommit_noWrite (rt : SyncRuntime) (key : ResourceKey) (parents : List String)
    (counter : Nat) (change : ResourceChange) (batch : CommitBatch) :
    Comp.Within NoWrite Anyhow (publishCommit rt key parents counter change batch) :=
  .bind (.request (by exact trivial) _) fun _ => .bind (.request (by exact trivial) _) fun _ =>
    .bind (.modify fun _ => trivial) fun _ => .pure _

theorem publishBytes_noWrite (rt : SyncRuntime) (key : ResourceKey) (kind : ResourceKind)
    (data : Bytes) (parents : List String) :
    Comp.Within NoWrite Anyhow (publishBytes rt key kind data parents) :=
  .bind nextCounter_prepares.noWrite fun _ =>
    .bind (prepareChange_reads key kind data).prepares.noWrite fun _ =>
    publishCommit_noWrite _ _ _ _ _ _

end NoWrite

section Aloof

/-- Any call. -/
def AnyCall (_ : Req) : Prop := True

/-- Any call that acknowledges nothing. -/
def Unacked : Req → Prop
  | .writeAcknowledgements _ => False
  | _ => True

theorem IsRead.unacked {q : Req} (hq : IsRead q) : Unacked q := by
  cases q <;> first | exact trivial | exact hq.elim

/-- Nothing is said of what is known of the catalog, nor of what maintenance keeps count of. -/
def Aloof (R : RuntimeState → RuntimeState → Prop) : Prop :=
  ∀ (s : RuntimeState) counter commits cursors checkpoints catalogEventsSinceSnapshot,
    R s { s with counter, commits, cursors, checkpoints, catalogEventsSinceSnapshot }

variable {R : RuntimeState → RuntimeState → Prop} [IsPreorder RuntimeState R]

omit [IsPreorder RuntimeState R] in
theorem anyCall {K : Req → Prop} {x : Sync α} (hx : Comp.Within K R x) :
    Comp.Within AnyCall R x :=
  hx.mono (fun _ _ => trivial) fun _ _ hs => hs

theorem Reads.aloof {x : Sync α} (hx : Reads x) : Comp.Within Unacked R x :=
  hx.mono (fun _ => IsRead.unacked) fun s _ e => e ▸ refl_of R s

theorem applyMutation_same {K : Req → Prop} (hK : ∀ mutations, K (.applyMutations mutations))
    (mutation : LocalMutation) (noResult : String) (refused : Option String → String) :
    Comp.Within K R (applyMutation mutation noResult refused) := by
  refine .bind (.request (hK _) _) fun results => ?_
  split
  · exact .throw _
  · split
    · exact .pure _
    · exact .throw _

theorem nextCounter_aloof (hR : Aloof R) : Comp.Within Unacked R nextCounter :=
  .bind (.modify fun s => hR s _ _ _ _ _) fun _ => .bind .get fun _ => .pure _

theorem refreshRemote_aloof (hR : Aloof R) (scopes : List String) :
    Comp.Within Unacked R (refreshRemote scopes) :=
  .bind .get fun _ => .bind (.request trivial _) fun _ =>
    .bind (.modify fun s => hR s _ _ _ _ _) fun _ => .bind .get fun _ =>
    .bind (.request trivial _) fun _ => .modify fun s => hR s _ _ _ _ _

theorem snapshotLargeCatalogs_within (hR : ∀ (s : RuntimeState) m,
    R s { s with catalogEventsSinceSnapshot := m }) (rt : SyncRuntime) :
    Comp.Within Unacked R (snapshotLargeCatalogs rt) :=
  .bind .get fun _ => .foldlM (fun _ _ => .bind .get fun _ => .bind (.request trivial _) fun _ =>
    .bind (.request trivial _) fun _ => .modify fun s => hR s _) _ _

theorem publishCommit_aloof (hR : Aloof R) (rt : SyncRuntime) (key : ResourceKey)
    (parents : List String) (counter : Nat) (change : ResourceChange) (batch : CommitBatch) :
    Comp.Within Unacked R (publishCommit rt key parents counter change batch) :=
  .bind (.request trivial _) fun _ => .bind (.request trivial _) fun _ =>
    .bind (.modify fun s => hR s _ _ _ _ _) fun _ => .pure _

theorem publishDelete_aloof (hR : Aloof R) (rt : SyncRuntime) (key : ResourceKey)
    (parents : List String) : Comp.Within Unacked R (publishDelete rt key parents) :=
  .bind (nextCounter_aloof hR) fun _ => publishCommit_aloof hR _ _ _ _ _ _

theorem publishBytes_aloof (hR : Aloof R) (rt : SyncRuntime) (key : ResourceKey)
    (kind : ResourceKind) (data : Bytes) (parents : List String) :
    Comp.Within Unacked R (publishBytes rt key kind data parents) :=
  .bind (nextCounter_aloof hR) fun _ => .bind (prepareChange_reads key kind data).aloof fun _ =>
    publishCommit_aloof hR _ _ _ _ _ _

theorem surveyKey_aloof (hR : Aloof R) (rt : SyncRuntime) (versions : Nat)
    (acks : List ResourceAck) (survey : Survey) (key : ResourceKey) :
    Comp.Within AnyCall R (surveyKey rt versions acks survey key) := by
  refine .bind .get fun state => ?_
  split
  · exact .bind (.modify fun s => hR s _ _ _ _ _) fun _ => .pure _
  split
  · exact .pure _
  split
  · refine .bind (.bind (.bind .get fun state => ?_) fun commit =>
      .bind (.modify fun s => hR s _ _ _ _ _) fun _ => .request trivial _) fun _ => .pure _
    split
    · exact .throw _
    split
    · exact anyCall (publishDelete_aloof hR _ _ _)
    · exact .bind (anyCall (contentForRemote_reads _ _).aloof) fun _ =>
        anyCall (publishBytes_aloof hR _ _ _ _ _)
  split
  · exact .pure _
  dsimp only
  split
  · exact .bind (.modify fun s => hR s _ _ _ _ _) fun _ => .pure _
  · exact .pure _

theorem collectPacks_aloof (report : V2MaintenanceReport) :
    Comp.Within AnyCall R (collectPacks report) := by
  refine .bind .get fun _ => .bind (.request trivial _) fun _ =>
    .bind (.request trivial _) fun _ => ?_
  dsimp only
  split
  · exact .pure _
  · exact .bind (.request trivial _) fun _ => .pure _

theorem maintain_aloof (hR : Aloof R) (rt : SyncRuntime) (request : MaintenanceRequest) :
    Comp.Within AnyCall R (maintain rt request) := by
  unfold maintain
  split
  · exact .pure _
  refine .bind (anyCall (refreshRemote_aloof hR [])) fun _ => .bind .get fun _ =>
    .bind (.request trivial _) fun _ =>
    .bind (.foldlM (fun survey key => surveyKey_aloof hR rt _ _ survey key) _ _) fun _ =>
    .bind (.foldlM (fun report entry => ?_) _ _) fun report =>
    .bind (collectPacks_aloof report) fun _ => .bind (.request trivial _) fun _ => .pure _
  exact .bind .get fun _ => .bind (.request trivial _) fun _ => .bind (.request trivial _) fun _ =>
    .bind (.modify fun s => hR s _ _ _ _ _) fun _ => .pure _

end Aloof

end Rollforward
