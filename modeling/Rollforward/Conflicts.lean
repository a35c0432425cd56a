import Rollforward.Executions
import Rollforward.Spelled

/-! The table of conflicts: what a run clears, what it records, and where the records of a
client come from. -/

namespace Rollforward

open Std Lib

section Frames

variable [Crates]

/-- The record was made by `ConflictRecord::new`. -/
def ConflictRecord.Made (record : ConflictRecord) : Prop :=
  ∃ resource kind localState remote, record = ConflictRecord.new resource kind localState remote

/-- The ids of conflicts tell apart what they are hashed from. -/
structure ConflictIds : Prop where
  digest : Function.Injective (blake3 : Bytes → String)
  bytes : ∀ {key key' kind kind' localState localState' heads heads'},
    Crates.conflictBytes key kind localState heads =
      Crates.conflictBytes key' kind' localState' heads' →
    key = key' ∧ kind = kind' ∧ localState = localState' ∧ heads = heads'

theorem ConflictRecord.Made.ext (hids : ConflictIds) {a b : ConflictRecord} (ha : a.Made)
    (hb : b.Made) (h : a.id = b.id) : a = b := by
  obtain ⟨key, kind, localState, remote, rfl⟩ := ha
  obtain ⟨key', kind', localState', remote', rfl⟩ := hb
  obtain ⟨hkey, hkind, hlocal, hheads⟩ := hids.bytes (hids.digest h)
  simp only [ConflictRecord.new, hkey, hkind, hlocal, hheads]

/-- The table is the same. -/
def SameTable (s t : RuntimeState) : Prop := t.conflicts = s.conflicts

instance : IsPreorder RuntimeState SameTable where
  refl _ := rfl
  trans _ _ _ hst htu := htu.trans hst

/-- What is new in the table was made for it. -/
def Mints (s t : RuntimeState) : Prop :=
  ∀ record ∈ t.conflicts, record ∈ s.conflicts ∨ record.Made

instance : IsPreorder RuntimeState Mints where
  refl _ _ hr := Or.inl hr
  trans _ _ _ hst htu record hr := (htu record hr).elim (hst record) Or.inr

theorem sameTable_aloof : Aloof SameTable := fun _ _ _ _ _ _ => rfl

theorem mints_aloof : Aloof Mints := fun _ _ _ _ _ _ _ hr => Or.inl hr

/-- A computation that leaves the table alone and acknowledges nothing. -/
def SparesTable (x : Sync α) : Prop := Comp.Within Unacked SameTable x

/-- A computation that adds nothing to the table but what was made for it. -/
def Minting (x : Sync α) : Prop := Comp.Within AnyCall Mints x

theorem SparesTable.minting {x : Sync α} (hx : SparesTable x) : Minting x :=
  hx.mono (fun _ _ => trivial) fun s t (hst : t.conflicts = s.conflicts) _ hr => Or.inl (hst ▸ hr)

theorem Reads.sparesTable {x : Sync α} (hx : Reads x) : SparesTable x := hx.aloof

theorem recordText_sparesTable (key : ResourceKey) : SparesTable (recordText key) :=
  .bind .get fun _ => .bind (.ofExcept _) fun _ => .modify fun _ => rfl

theorem noteText_sparesTable (key : ResourceKey) (selected : Option String) :
    SparesTable (noteText key selected) := by
  refine .bind .get fun state => ?_
  split
  · exact .bind (recordText_sparesTable key) fun _ => .modify fun _ => rfl
  · exact .pure _

theorem keepText_sparesTable (key : ResourceKey) : SparesTable (keepText key) := by
  refine .bind .get fun state => ?_
  split
  · exact recordText_sparesTable key
  · exact .pure _

theorem createCommit_sparesTable (rt : SyncRuntime) (contents : Map ResourceKey ResourceContent)
    (prepared : Prepared) (created : List Commit) (operation : PlanOperation) :
    SparesTable (createCommit rt contents prepared created operation) := by
  rw [createCommit]
  dsimp only
  split
  · exact .pure _
  refine .bind .get fun _ => .bind (nextCounter_aloof sameTable_aloof) fun _ =>
    .bind (operationChange_reads _ _ _).sparesTable fun change => ?_
  cases change with
  | none => exact .pure _
  | some change => exact .bind (.request trivial _) fun _ => .pure _

theorem writeBack_sparesTable (locals : List LocalResource) (tally : Tally) (key : ResourceKey)
    (heads : List String) : SparesTable (writeBack locals tally key heads) := by
  refine .bind .get fun _ => .bind (.ofExcept _) fun _ => .bind (.request trivial _) fun _ => ?_
  split
  · exact .bind (.modify fun _ => rfl) fun _ => .pure _
  · exact .pure _

theorem afterCommit_sparesTable (locals : List LocalResource) (tally : Tally) (commit : Commit) :
    SparesTable (afterCommit locals tally commit) := by
  refine .bind (.modify fun _ => rfl) fun _ => .bind .get fun _ => ?_
  split
  · exact .bind (.modify fun _ => rfl) fun _ => .pure _
  · exact .bind (.modify fun _ => rfl) fun _ => .pure _
  · exact writeBack_sparesTable _ _ _ _

theorem publishBatch_sparesTable (locals : List LocalResource) (batch : CommitBatch) (tally : Tally) :
    SparesTable (publishBatch locals batch tally) := by
  unfold publishBatch
  split
  · exact .pure _
  · exact .bind (.request trivial _) fun _ =>
      .bind (.foldlM (fun tally commit => afterCommit_sparesTable locals tally commit) _ _) fun _ =>
      .bind (.request trivial _) fun _ => .pure _

theorem applyOperation_sparesTable (locals : List LocalResource) (tally : Tally)
    (operation : PlanOperation) : SparesTable (applyOperation locals tally operation) := by
  cases operation with
  | noop | upload | publishDelete | conflict => exact .pure _
  | establishBaseline =>
    exact .bind (keepText_sparesTable _) fun _ => .bind (.modify fun _ => rfl) fun _ => .pure _
  | establishDeletedBaseline => exact .bind (.modify fun _ => rfl) fun _ => .pure _
  | download =>
    exact .bind (announceDownload_reads _).sparesTable fun _ => .bind (contentForRemote_reads _ _).sparesTable
      fun _ => .bind (applyMutation_same (fun _ => trivial) _ _ _) fun _ =>
      .bind (noteText_sparesTable _ _) fun _ => .bind (.modify fun _ => rfl) fun _ => .pure _
  | applyDelete =>
    exact .bind (applyMutation_same (fun _ => trivial) _ _ _) fun _ =>
      .bind (.modify fun _ => rfl) fun _ => .pure _

theorem runOperation_sparesTable (locals : List LocalResource) (tally : Tally)
    (operation : PlanOperation) : SparesTable (runOperation locals tally operation) := by
  refine .bind (.attempt (applyOperation_sparesTable locals tally operation)) fun outcome =>
    .bind (.request trivial _) fun _ => ?_
  split
  · exact .pure _
  · exact .pure _

theorem removeLocal_sparesTable (key : ResourceKey) (current : ReplicaState) (refusal : Refusal) :
    SparesTable (removeLocal key current refusal) := by
  unfold removeLocal
  split
  · exact .pure _
  · exact .bind (applyMutation_same (fun _ => trivial) _ _ _) fun _ => .pure _

theorem preserveCopy_sparesTable (key : ResourceKey) (preserved : PreservedVersion) :
    SparesTable (preserveCopy key preserved) := by
  refine .bind ?_ fun data =>
    .bind (applyMutation_same (fun _ => trivial) _ _ _) fun _ => .pure _
  unfold preservedData
  split
  · exact .bind (readOne_reads key).sparesTable fun _ => .pure _
  · exact (contentForRemote_reads _ _).sparesTable
  · exact .throw _

theorem commitVersion_sparesTable (rt : SyncRuntime) (key : ResourceKey) (selected : Commit)
    (current : ReplicaState) (parents : List String) (delete write : Refusal) :
    SparesTable (commitVersion rt key selected current parents delete write) := by
  unfold commitVersion
  split
  · exact .bind (removeLocal_sparesTable _ _ _) fun _ =>
      .bind (publishDelete_aloof sameTable_aloof _ _ _) fun _ => .modify fun _ => rfl
  · exact .bind (contentForRemote_reads _ _).sparesTable fun _ =>
      .bind (applyMutation_same (fun _ => trivial) _ _ _) fun _ =>
      .bind (publishBytes_aloof sameTable_aloof _ _ _ _ _) fun _ => .modify fun _ => rfl

theorem choosePrimary_sparesTable (rt : SyncRuntime) (record : ConflictRecord) (current : ReplicaState)
    (heads : List String) (primary : VersionChoice) :
    SparesTable (choosePrimary rt record current heads primary) := by
  unfold choosePrimary
  dsimp only
  split
  · exact .bind (readOne_reads _).sparesTable fun _ =>
      .bind (publishBytes_aloof sameTable_aloof _ _ _ _ _) fun _ => .modify fun _ => rfl
  · exact .bind (removeLocal_sparesTable _ _ _) fun _ =>
      .bind (publishDelete_aloof sameTable_aloof _ _ _) fun _ => .modify fun _ => rfl
  · split
    · exact .throw _
    · refine .bind .get fun _ => ?_
      split
      · exact .throw _
      · exact commitVersion_sparesTable _ _ _ _ _ _ _

end Frames

section Minting

variable [Crates]

theorem Mints.erase (s : RuntimeState) (id : String) :
    Mints s { s with conflicts := s.conflicts.erase id } :=
  fun _ hr => Or.inl (KeyedMap.mem_erase.mp hr).1

/-- The conflicts that a plan records. -/
def plannedRecords (plan : List PlanOperation) : List ConflictRecord :=
  plan.filterMap fun operation =>
    match operation with
    | .conflict record => some record
    | _ => none

omit [Crates] in
theorem mem_plannedRecords {plan : List PlanOperation} {record : ConflictRecord} :
    record ∈ plannedRecords plan ↔ .conflict record ∈ plan := by
  rw [plannedRecords, List.mem_filterMap]
  constructor
  · rintro ⟨operation, hop, he⟩
    cases operation with
    | conflict record' => rwa [Option.some.inj he] at hop
    | _ => cases he
  · exact fun hop => ⟨_, hop, rfl⟩

theorem startRun_minting (request : SyncRequest) {plan : List PlanOperation}
    (hplan : ∀ record, .conflict record ∈ plan → record.Made) :
    Minting (startRun request plan) := by
  refine .bind (.modify fun s record hr => ?_) fun _ => .request trivial _
  rcases KeyedMap.mem_of_mem_insertAll hr with hr | hr
  · exact Or.inl (KeyedMap.mem_retain.mp hr).1
  · exact Or.inr (hplan record (mem_plannedRecords.mp hr))

theorem prepareUpload_minting (rt : SyncRuntime) (contents : Map ResourceKey ResourceContent)
    (prepared : Prepared) (operation : PlanOperation) :
    Minting (prepareUpload rt contents prepared operation) := by
  unfold prepareUpload
  split
  · split
    · exact .pure _
    · split
      · exact .pure _
      · refine .bind .get fun state => .bind (.ofExcept _) fun verdict => ?_
        cases verdict with
        | notHandled => exact .pure _
        | merged data => exact .bind (.ofExcept _) fun _ => .pure _
        | conflict reason =>
          refine .bind (.ofExcept _) fun remote =>
            .bind (.modify fun s record hr => ?_) fun _ => .pure _
          rcases KeyedMap.mem_insert.mp hr with rfl | hr
          · exact Or.inr ⟨_, _, _, _, rfl⟩
          · exact Or.inl hr.1
  · exact .pure _

theorem execute_minting (rt : SyncRuntime) (request : SyncRequest) (locals : List LocalResource)
    {plan : List PlanOperation} (hplan : ∀ record, .conflict record ∈ plan → record.Made) :
    Minting (execute rt request locals plan) := by
  refine .bind (startRun_minting request hplan) fun _ => .bind ?_ fun tally =>
    .bind (.foldlM (fun tally operation => (runOperation_sparesTable locals tally operation).minting) _ _)
    fun _ => .bind (.bind .get fun _ => .request trivial _) fun _ =>
    .bind (.modify fun _ _ hr => Or.inl hr) fun _ => .bind (.request trivial _) fun _ => .pure _
  exact .bind (.request trivial _) fun contents =>
    .bind (.foldlM (fun prepared operation => prepareUpload_minting rt _ prepared operation) _ _)
    fun prepared => .bind (.request trivial _) fun _ =>
    .bind (.foldlM (fun created operation =>
      (createCommit_sparesTable rt _ prepared created operation).minting) _ _) fun _ =>
    (publishBatch_sparesTable locals _ _).minting

/-- The conflicts of a plan were made by the planner. -/
theorem made_of_buildPlan {s : RuntimeState} {rt : SyncRuntime} {scopes : List String}
    {locals : List LocalResource} {plan : List PlanOperation}
    (h : s.buildPlan rt scopes locals = .ok plan) {record : ConflictRecord}
    (hrecord : .conflict record ∈ plan) : record.Made := by
  obtain ⟨pairs, -, hperm⟩ := buildPlan_perm h
  obtain ⟨op, hplanned, hop⟩ := List.mem_map.mp (hperm.mem_iff.mp hrecord)
  have hconflict : op = .conflict record := by
    cases op with
    | conflict record' =>
      simp only [mergeTextConflict] at hop
      split at hop
      · split at hop
        · cases hop
        · exact hop
      · exact hop
    | _ => cases hop
  rw [hconflict] at hplanned
  obtain ⟨key, -, hkey⟩ := List.mem_map.mp hplanned
  unfold planResource at hkey
  split at hkey <;> (try split at hkey) <;> (try split at hkey) <;> (try split at hkey) <;>
    cases hkey <;> exact ⟨_, _, _, _, rfl⟩

theorem reconcile_minting (rt : SyncRuntime) (request : SyncRequest) :
    Minting (reconcile rt request) := by
  refine .bind (.modify fun _ _ hr => Or.inl hr) fun _ =>
    .bind (SparesTable.minting (refreshRemote_aloof sameTable_aloof _)) fun _ =>
    .bind (SparesTable.minting (snapshotLargeCatalogs_within (fun _ _ => rfl) rt)) fun _ =>
    .bind (localInventory_reads _).sparesTable.minting fun locals =>
    .bind (.modify fun _ _ hr => Or.inl hr) fun _ => .bind .get fun state => ?_
  exact .ofExcept_bind fun plan hplan =>
    execute_minting rt request locals fun _ => made_of_buildPlan hplan

theorem staleConflict_minting (conflictId : String) :
    Minting (staleConflict conflictId : Sync α) :=
  .bind (.modify fun s => .erase s conflictId) fun _ => .bind (.request trivial _) fun _ => .throw _

theorem resolve_minting (rt : SyncRuntime) (request : ResolveConflictRequest) :
    Minting (resolve rt request) := by
  refine .bind .get fun state => ?_
  split
  · exact .throw _
  dsimp only
  split
  · exact staleConflict_minting _
  refine .bind (currentState_reads _).sparesTable.minting fun current => ?_
  split
  · exact staleConflict_minting _
  · exact .bind (.foldlM (fun _ preserved => (preserveCopy_sparesTable _ preserved).minting) _ _) fun _ =>
      .bind (choosePrimary_sparesTable _ _ _ _ _).minting fun _ =>
      .bind (.modify fun s => .erase s _) fun _ => .bind (.request trivial _) fun _ =>
      reconcile_minting rt _

theorem rollback_minting (rt : SyncRuntime) (request : RollbackRequest) :
    Minting (rollback rt request) := by
  unfold rollback
  dsimp only
  refine .bind .get fun state => ?_
  split
  · exact .throw _
  · exact .bind (currentState_reads _).sparesTable.minting fun _ =>
      .bind (commitVersion_sparesTable _ _ _ _ _ _ _).minting fun _ =>
      .bind (.request trivial _) fun _ => reconcile_minting rt _

theorem Command.run_minting (rt : SyncRuntime) (command : Command) :
    Minting (command.run rt) := by
  cases command with
  | reconcile request => exact .bind (reconcile_minting rt request) fun _ => .pure _
  | resolve request => exact .bind (resolve_minting rt request) fun _ => .pure _
  | rollback request => exact .bind (rollback_minting rt request) fun _ => .pure _
  | maintain request =>
    exact .bind (maintain_aloof mints_aloof rt request) fun _ => .pure _
  | retireClient clientId =>
    exact .bind (.modify fun _ _ hr => Or.inl hr) fun _ => .request trivial _

end Minting

section Table

variable [Crates] {run : Executed}

/-- What the merge policy records for an operation. -/
def policyRecord (run : Executed) (contents : List ResourceContent) :
    PlanOperation → Option ConflictRecord
  | .upload key localState =>
    if run.verdict contents (.upload key localState) = .conflicted then
      (run.before.remoteState key).toOption.map
        (ConflictRecord.new key .contentVsContent localState)
    else none
  | _ => none

/-- The run finds the conflict: it is planned, or the merge policy says so. -/
def Executed.Detects (run : Executed) (record : ConflictRecord) : Prop :=
  .conflict record ∈ run.plan ∨ ∃ contents, run.Read contents ∧
    ∃ operation ∈ run.plan, policyRecord run contents operation = some record

theorem Executed.Detects.made (hplan : ∀ record, .conflict record ∈ run.plan → record.Made)
    {record : ConflictRecord} (h : run.Detects record) : record.Made := by
  rcases h with h | ⟨contents, -, operation, -, h⟩
  · exact hplan record h
  · unfold policyRecord at h
    split at h
    · split at h
      · obtain ⟨remote, -, rfl⟩ := Option.map_eq_some_iff.mp h
        exact ⟨_, _, _, _, rfl⟩
      · cases h
    · cases h

/-- The resource of a detected conflict is planned for. -/
theorem Executed.Detects.planned {record : ConflictRecord} (h : run.Detects record) :
    ∃ operation ∈ run.plan, operation.key = record.resource := by
  rcases h with h | ⟨contents, -, operation, hop, h⟩
  · exact ⟨_, h, rfl⟩
  · unfold policyRecord at h
    split at h
    · split at h
      · obtain ⟨remote, -, rfl⟩ := Option.map_eq_some_iff.mp h
        exact ⟨_, hop, rfl⟩
      · cases h
    · cases h

variable {contents : List ResourceContent} {s s' : RuntimeState} {h h' : List SyncEvent}
variable {prepared : Prepared} {operation : PlanOperation}

/-- Preparing an upload records the conflict that the policy finds, if any. -/
theorem prepareUpload_records (hs : SameBase run.before s) :
    Ends (prepareUpload run.rt (contentMap contents) prepared operation)
      (fun _ s' _ => SameBase run.before s' ∧
        s'.conflicts = s.conflicts.insertAll (policyRecord run contents operation).toList) h s := by
  unfold Ends prepareUpload
  split
  · next key localState =>
    split
    · next hread =>
      refine ⟨hs, ?_⟩
      simp [policyRecord, Executed.verdict, uploadVerdict, hread]
    · next content hread =>
      split
      · next htoken =>
        refine ⟨hs, ?_⟩
        simp [policyRecord, Executed.verdict, uploadVerdict, hread, htoken]
      · next htoken =>
        rw [Comp.wp_bind, Comp.wp_get, Comp.wp_bind, askPolicy_of_sameBase hs, Comp.wp_ofExcept]
        refine ⟨fun answer hanswer => ?_, fun _ _ => trivial⟩
        cases answer with
        | notHandled =>
          refine ⟨hs, ?_⟩
          simp [policyRecord, Executed.verdict, uploadVerdict, hread, htoken, hanswer]
        | merged data =>
          rw [Comp.wp_bind, Comp.wp_ofExcept]
          refine ⟨fun _ _ => ⟨hs, ?_⟩, fun _ _ => trivial⟩
          simp [policyRecord, Executed.verdict, uploadVerdict, hread, htoken, hanswer]
        | conflict reason =>
          rw [Comp.wp_bind, Comp.wp_ofExcept]
          refine ⟨fun remote hremote => ?_, fun _ _ => trivial⟩
          rw [RuntimeState.remoteState_of_commits hs.commits] at hremote
          rw [Comp.wp_bind, Comp.wp_modify]
          refine ⟨hs.trans ⟨⟨rfl, rfl, le_rfl⟩, rfl, rfl, rfl⟩, ?_⟩
          simp [policyRecord, Executed.verdict, uploadVerdict, hread, htoken, hanswer, hremote,
            Except.toOption]
  · next hop =>
    refine ⟨hs, ?_⟩
    cases operation with
    | upload key localState => exact absurd rfl (hop key localState)
    | _ => rfl

theorem prepareUploads_record {uploads : List PlanOperation} {tally : Tally}
    (hexec : Prog.Exec AnyAnswer h (uploads.foldlM
      (prepareUpload run.rt (contentMap contents)) { tally } s) h' s' (.ok prepared))
    (hs : SameBase run.before s) :
    s'.conflicts = s.conflicts.insertAll (uploads.filterMap (policyRecord run contents)) := by
  refine (Comp.exec_foldlM (fun before _ s' _ => SameBase run.before s' ∧
    s'.conflicts = s.conflicts.insertAll (before.filterMap (policyRecord run contents))) hexec
    ⟨hs, rfl⟩ ?_).2
  intro before operation after _ h₁ s₁ prepared₁ h₂ s₂ prepared₂ _ hturn _ hinv
  obtain ⟨hbase, hconflicts⟩ := (prepareUpload_records hinv.1).exec hturn
  refine ⟨hbase, ?_⟩
  rw [hconflicts, hinv.2, List.filterMap_append, KeyedMap.insertAll_append]
  cases hrecord : policyRecord run contents operation with
  | none => simp [hrecord]
  | some record => simp [hrecord]

/-- The table after a run, as the run builds it. -/
theorem Executed.conflicts_after (run : Executed) : ∃ contents, run.Read contents ∧
    run.after.conflicts =
      (run.before.conflicts.retain fun conflict =>
        conflict.resource.scopeId ∉ run.request.scopes).insertAll
          (plannedRecords run.plan ++ run.plan.filterMap (policyRecord run contents)) := by
  obtain ⟨s₁, tally₂, tally₃, s₂, s₃, h₁, h₂, h₃, hstages⟩ := run.stages
  obtain ⟨hbase, -⟩ := (startRun_base run.request run.plan run.before).exec hstages.start
  have huploads := hstages.uploads
  rw [runUploads] at huploads
  obtain ⟨h₄, s₄, contents, hread, huploads⟩ := Comp.exec_bind_ok.mp huploads
  obtain ⟨h₅, s₅, prepared, hprepare, huploads⟩ := Comp.exec_bind_ok.mp huploads
  obtain ⟨h₆, s₆, existing, hlookup, huploads⟩ := Comp.exec_bind_ok.mp huploads
  obtain ⟨h₇, s₇, commits, hcreate, hpublish⟩ := Comp.exec_bind_ok.mp huploads
  refine ⟨contents, ⟨h₄, s₄, ?_, Comp.exec_bind_ok.mpr ⟨h₁, s₁, (), hstages.start, hread⟩⟩, ?_⟩
  · refine hprepare.suffix.trans (hlookup.suffix.trans (hcreate.suffix.trans ?_))
    exact hpublish.suffix.trans (hstages.loop.suffix.trans hstages.suffix)
  have hstart : s₁.conflicts = (run.before.conflicts.retain fun conflict =>
      conflict.resource.scopeId ∉ run.request.scopes).insertAll (plannedRecords run.plan) := by
    obtain ⟨_, s₀, _, hmodify, hsave⟩ := Comp.exec_bind_ok.mp hstages.start
    obtain ⟨-, rfl, -⟩ := Prog.exec_done.mp hmodify
    obtain ⟨-, -, -, rfl⟩ := request_exec.mp hsave
    rfl
  -- after the uploads are prepared nothing touches the table
  have hrest : s₃.conflicts = s₅.conflicts := by
    have hcreated : s₇.conflicts = s₆.conflicts := ((Comp.Within.foldlM (fun created operation =>
      createCommit_sparesTable run.rt _ prepared created operation) _ _ _).exec hcreate).1
    have hpublished : s₂.conflicts = s₇.conflicts :=
      (publishBatch_sparesTable run.locals _ _ _).exec hpublish |>.1
    have hlooped : s₃.conflicts = s₂.conflicts := ((Comp.Within.foldlM (fun tally operation =>
      runOperation_sparesTable run.locals tally operation) _ _ _).exec hstages.loop).1
    obtain ⟨-, -, -, rfl⟩ := request_exec.mp hlookup
    rw [hlooped, hpublished, hcreated]
  obtain ⟨-, -, -, rfl⟩ := request_exec.mp hread
  have hskip : (run.plan.filter PlanOperation.isUpload).filterMap (policyRecord run contents) =
      run.plan.filterMap (policyRecord run contents) := by
    rw [List.filterMap_filter]
    refine List.filterMap_congr fun operation _ => ?_
    cases operation <;> rfl
  rw [hstages.after]
  change s₃.conflicts = _
  rw [hrest, prepareUploads_record hprepare hbase, hstart, hskip, KeyedMap.insertAll_append]

end Table

section Worlds

variable [Crates] {S : Setting} {w : World} {c : String} {ok : World → Label → Prop}
variable {request : SyncRequest} {run : Executed}

/-- Of the scopes that were reconciled the table has the conflicts of this run and no others;
the rest of it is as it was. -/
structure TableExact (scopes : List String) (before after : RuntimeState)
    (detects : ConflictRecord → Prop) : Prop where
  reconciled : ∀ record : ConflictRecord, inScopes scopes record.resource.scopeId = true →
    (record ∈ after.conflicts ↔ detects record)
  others : ∀ record : ConflictRecord, inScopes scopes record.resource.scopeId = false →
    (record ∈ after.conflicts ↔ record ∈ before.conflicts)

theorem planRun_sparesTable (rt : SyncRuntime) (request : SyncRequest) :
    SparesTable (planRun rt request) :=
  .bind (.modify fun _ => rfl) fun _ => .bind (refreshRemote_aloof sameTable_aloof _) fun _ =>
    .bind (snapshotLargeCatalogs_within (fun _ _ => rfl) rt) fun _ =>
    .bind (localInventory_reads _).sparesTable fun _ => .bind (.modify fun _ => rfl) fun _ =>
    .bind .get fun _ => .bind (.ofExcept _) fun _ => .pure _

/-- Every conflict that a client knows of was made by `ConflictRecord::new`. -/
theorem World.Reachable.conflicts_made (hw : w.Reachable S ok) (c : String) :
    ∀ record ∈ (w.clients c).before.conflicts, record.Made := by
  refine (hw.kept (P := fun s => ∀ record ∈ s.conflicts, record.Made) ?_ ?_ c).2.1
  · exact fun _ hr => absurd hr (KeyedMap.not_mem_empty _)
  · intro c command s hs
    exact (Command.run_minting ⟨c, S.policy c⟩ command s).meets
      (J := fun _ s => ∀ record ∈ s.conflicts, record.Made)
      (fun _ _ _ hj hst record hr => (hst record hr).elim (hj record) id)
      (fun _ _ _ hj _ => hj) (fun _ _ _ _ _ hj _ _ => hj) hs

/-- After a run the table has what was detected and what was kept. -/
theorem Client.Reconciled.mem_conflicts {client : Client} (hids : ConflictIds)
    (hmade : ∀ record ∈ client.before.conflicts, record.Made)
    (h : client.Reconciled S c request run) (record : ConflictRecord) :
    record ∈ run.after.conflicts ↔ run.Detects record ∨
      record ∈ client.before.conflicts ∧ record.resource.scopeId ∉ request.scopes := by
  obtain ⟨history, -, hplan⟩ := h.trace
  have hbefore : run.before.conflicts = client.before.conflicts :=
    (planRun_sparesTable run.rt request _).exec hplan |>.1
  obtain ⟨contents, hread, hafter⟩ := run.conflicts_after
  have hdetects : ∀ record, record ∈ plannedRecords run.plan ++
      run.plan.filterMap (policyRecord run contents) ↔ run.Detects record := by
    intro record
    rw [List.mem_append, mem_plannedRecords, List.mem_filterMap]
    refine or_congr_right ⟨fun hop => ⟨contents, hread, hop⟩, ?_⟩
    rintro ⟨contents', hread', hop⟩
    rwa [hread'.unique hread] at hop
  have hnew : ∀ record, run.Detects record → record.Made := fun record hr =>
    hr.made fun _ => made_of_buildPlan h.planned.built
  have hkept : ∀ record, record ∈ run.before.conflicts.retain (fun conflict =>
      conflict.resource.scopeId ∉ run.request.scopes) ↔
        record ∈ client.before.conflicts ∧ record.resource.scopeId ∉ request.scopes := by
    intro record
    rw [KeyedMap.mem_retain, hbefore, decide_eq_true_eq, h.asked]
  rw [hafter, KeyedMap.mem_insertAll, hdetects, hkept, or_comm]
  · intro v hv u hu hid
    exact (hmade u ((hkept u).mp hu).1).ext hids (hnew v ((hdetects v).mp hv)) hid
  · intro v hv u hu hid
    exact (hnew u ((hdetects u).mp hu)).ext hids (hnew v ((hdetects v).mp hv)) hid

/-- After a `reconcile` the conflicts of the requested scopes are exactly those detected in this
run, and the others are as they were, if and only if scopes were named or every conflict known
before was detected again: where no scope is named, the clearing filter matches nothing. -/
theorem World.conflict_table_exact (hids : ConflictIds) (hw : w.Reachable S ok)
    {s : RuntimeState} (hcommand : (w.clients c).command = some (.reconcile request))
    (hdone : (w.clients c).prog = .done s (.ok ())) :
    ∃ run, (w.clients c).Reconciled S c request run ∧
      run.trace.head? = some ⟨s, .saveRuntimeState, .ok ()⟩ ∧
      (TableExact request.scopes (w.clients c).before s run.Detects ↔
        (request.scopes = [] → ∀ record ∈ (w.clients c).before.conflicts, run.Detects record)) := by
  obtain ⟨run, hrun⟩ := hw.relies.reconciled hcommand hdone
  have hafter : run.after = s := by
    have hp := hrun.after
    rw [hdone] at hp
    cases hp
    rfl
  have hsaved : run.trace.head? = some ⟨s, .saveRuntimeState, .ok ()⟩ := by
    obtain ⟨s₁, tally₂, tally₃, s₂, s₃, h₁, h₂, h₃, hstages⟩ := run.stages
    rw [← hafter]
    exact hstages.saved
  refine ⟨run, hrun, hsaved, ?_⟩
  subst hafter
  have hmem := hrun.mem_conflicts hids (hw.conflicts_made c)
  have hscoped : ∀ record, run.Detects record →
      inScopes request.scopes record.resource.scopeId = true := by
    intro record hrecord
    obtain ⟨operation, hop, hkey⟩ := hrecord.planned
    rw [← hkey]
    exact (mem_buildPlan_scoped hrun.planned.built hrun.planned.inside hop).1
  constructor
  · intro hexact hnil record hrecord
    have hin : inScopes request.scopes record.resource.scopeId = true := by
      rw [hnil]
      rfl
    refine (hexact.reconciled record hin).mp ((hmem record).mpr (Or.inr ⟨hrecord, ?_⟩))
    rw [hnil]
    exact List.not_mem_nil
  · intro hagain
    constructor
    · intro record hin
      rw [hmem]
      refine ⟨fun hr => hr.elim id fun hr => ?_, Or.inl⟩
      by_cases hnil : request.scopes = []
      · exact hagain hnil record hr.1
      · exact absurd hin (by simp [inScopes, hr.2, hnil])
    · intro record hout
      rw [hmem]
      refine ⟨fun hr => hr.elim (fun hd => ?_) And.left, fun hr => Or.inr ⟨hr, fun hin => ?_⟩⟩
      · rw [hscoped record hd] at hout
        cases hout
      · simp [inScopes, hin] at hout

end Worlds

section Scripts

open Sample

def spellState : ReplicaState → Bytes
  | .present contentId size versionToken =>
    0 :: (spellString contentId ++ (spellNat size ++ spellString versionToken))
  | .deleted versionToken => 1 :: spellString versionToken
  | .missing => [2]

theorem spellState_prefixed : Prefixed spellState := by
  intro a b r t h
  cases a <;> cases b <;> simp only [spellState, List.cons_append, List.append_assoc,
    List.cons.injEq, List.nil_append] at h
  case present.present =>
    obtain ⟨rfl, hsize⟩ := spellString_prefixed h.2
    obtain ⟨rfl, htoken⟩ := spellNat_prefixed hsize
    obtain ⟨rfl, hrest⟩ := spellString_prefixed htoken
    exact ⟨rfl, hrest⟩
  case deleted.deleted =>
    obtain ⟨rfl, hrest⟩ := spellString_prefixed h.2
    exact ⟨rfl, hrest⟩
  case missing.missing => exact ⟨rfl, h.2⟩
  all_goals exact absurd h.1 (by decide)

def spellKind : ConflictKind → UInt8
  | .initialDivergence => 0
  | .contentVsContent => 1
  | .deleteVsModify => 2
  | .modifyVsDelete => 3
  | .remoteFork => 4
  | .preconditionFailed => 5

/-- Conflict ids that spell out the whole record. -/
@[reducible] def telling : Crates where
  toYrs := crates.toYrs
  blake3 := plainDigest
  fastcdc := spelled.fastcdc
  commitBytes := spelled.commitBytes
  conflictBytes key kind localState heads := spellKind kind :: (spellString key.scopeId ++
    (spellString key.resourceId ++ (spellState localState ++ spellList spellString heads)))

attribute [local instance] telling

theorem telling_ids : ConflictIds where
  digest := plainDigest_injective
  bytes := by
    intro key key' kind kind' localState localState' heads heads' h
    obtain ⟨hkind, h⟩ := List.cons.inj h
    obtain ⟨hscope, h⟩ := spellString_prefixed h
    obtain ⟨hresource, h⟩ := spellString_prefixed h
    obtain ⟨hlocal, h⟩ := spellState_prefixed h
    obtain ⟨hheads, -⟩ := spellList_prefixed spellString_prefixed (congrArg (· ++ []) h)
    refine ⟨?_, ?_, hlocal, hheads⟩
    · cases key
      cases key'
      exact congrArg₂ ResourceKey.mk hscope hresource
    · cases kind <;> cases kind' <;> first | rfl | exact absurd hkind (by decide)

/-- `A` finds another first version than its own. -/
def diverge : List Line := upload "B" "f" "b" "t1" ++ upload "A" "f" "a" "t2"

/-- The scope was named: its conflict is detected and in the table. -/
theorem World.conflict_table_exact_named : ∃ w s run, World.Reachable {} (fun _ _ => True) w ∧
    (w.clients "A").Reconciled {} "A" ⟨["s"]⟩ run ∧ s.conflicts.values ≠ [] ∧
    TableExact ["s"] (w.clients "A").before s run.Detects := by
  obtain ⟨w, hw, hp⟩ := exists_reachable {} (fun _ _ => True) diverge
    (fun w => (reconciling w "A").map SyncRequest.scopes = some ["s"] ∧
      ∃ s ∈ (finished w "A").toList, s.conflicts.values.length ≠ 0) (by decide +kernel)
  obtain ⟨hrequest, s, hs, hne⟩ := of_decide_eq_true hp
  obtain ⟨⟨scopes⟩, hreconciling, rfl⟩ := Option.map_eq_some_iff.mp hrequest
  obtain ⟨run, hrun, -, hexact⟩ := World.conflict_table_exact telling_ids hw
    (command_of_reconciling hreconciling) (done_of_finished (Option.mem_toList.mp hs))
  exact ⟨w, s, run, hw, hrun, fun hnil => hne (by rw [hnil]; rfl), hexact.mpr fun hnil => by cases hnil⟩

/-- The file has become what is published. -/
def agree : (q : Req) → q.Resp
  | .listResources _ => .ok [⟨key "f", .binary, .present (blake3 (textBytes "b")) 1 "t3"⟩]
  | .scanCatalog _ => .ok ⟨[], [], []⟩
  | .readResources _ | .applyMutations _ | .loadCommits _ | .lookupChunks _ | .readRanges _
  | .listAcknowledgements _ | .listPackIds => .ok []
  | .commitBatch _ | .writeAcknowledgements _ | .deletePackObjects _ | .compactCatalog _
  | .saveRuntimeState => .ok ()
  | .nowMillis => 0
  | .randomClientId => 1

def replanned (w : World) : List SyncEvent × RuntimeState ×
    Except SyncError (List LocalResource × List PlanOperation) :=
  (planRun { clientId := "A" } ⟨[]⟩ (w.memory "A")).drive agree []

def rerun (s : RuntimeState) (locals : List LocalResource) (plan : List PlanOperation) :
    List SyncEvent × RuntimeState × Except SyncError SyncReport :=
  (execute { clientId := "A" } ⟨[]⟩ locals plan s).drive agree []

/-- No conflict is planned any more, and a table that is not empty. -/
def stale (w : World) : Bool :=
  match replanned w with
  | (_, s, .ok (locals, plan)) =>
    (plan.map PlanOperation.key).length == 1 &&
      plan.all (fun operation => !operation.isConflict && !operation.isUpload) &&
      match rerun s locals plan with
      | (_, after, .ok _) => !after.conflicts.values.isEmpty
      | _ => false
  | _ => false

/-- All scopes are reconciled, no conflict is detected, and the old one stays in the table. -/
theorem World.conflict_table_keeps_stale : ∃ w locals plan h, ∃ run : Executed,
    World.Reachable {} (fun _ _ => True) w ∧ run.request.scopes = [] ∧
    Prog.Exec AnyAnswer [] (planRun { clientId := "A" } ⟨[]⟩ (w.memory "A")) h run.before
      (.ok (locals, plan)) ∧ run.locals = locals ∧ run.plan = plan ∧
    ¬ TableExact run.request.scopes (w.memory "A") run.after run.Detects := by
  obtain ⟨w, hw, hp⟩ := exists_reachable {} (fun _ _ => True) diverge stale (by decide +kernel)
  unfold stale at hp
  split at hp
  · next h s locals plan hplanned =>
    rw [Bool.and_eq_true, Bool.and_eq_true, List.all_eq_true] at hp
    obtain ⟨⟨hlength, hnone⟩, hafter⟩ := hp
    split at hafter
    · next trace after report hrun =>
      have hplan : Prog.Exec AnyAnswer [] (planRun { clientId := "A" } ⟨[]⟩ (w.memory "A"))
          (replanned w).1 (replanned w).2.1 (replanned w).2.2 := Prog.exec_drive (I := host) agree _ []
      have hexec : Prog.Exec AnyAnswer [] (execute { clientId := "A" } ⟨[]⟩ locals plan s)
          (rerun s locals plan).1 (rerun s locals plan).2.1 (rerun s locals plan).2.2 :=
        Prog.exec_drive (I := host) agree _ []
      rw [hplanned] at hplan
      rw [hrun] at hexec
      have hdistinct : (plan.map PlanOperation.key).Nodup := by
        obtain ⟨k, hk⟩ := List.length_eq_one_iff.mp (eq_of_beq hlength)
        rw [hk]
        exact List.nodup_singleton k
      refine ⟨w, locals, plan, h, ⟨{ clientId := "A" }, ⟨[]⟩, locals, plan, s, trace, after, report,
        hdistinct, hexec⟩, hw, rfl, hplan, rfl, rfl, fun hexact => ?_⟩
      obtain ⟨record, hrecord⟩ := List.exists_mem_of_ne_nil after.conflicts.values (by
        intro hnil
        rw [hnil] at hafter
        cases hafter)
      rcases (hexact.reconciled record rfl).mp (KeyedMap.mem_values.mp hrecord) with hop | hop
      · have := hnone _ hop
        simp [PlanOperation.isConflict] at this
      · obtain ⟨contents, -, operation, hop, hrecord⟩ := hop
        have := hnone _ hop
        cases operation with
        | upload => simp [PlanOperation.isUpload] at this
        | _ => cases hrecord
    · cases hafter
  · cases hp

end Scripts

end Rollforward
