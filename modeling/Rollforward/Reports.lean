import Mathlib.Algebra.BigOperators.Group.List.Basic
import Rollforward.Executions
import Rollforward.Identity
import Rollforward.Sample

/-! What the report of a run says of the operations of its plan. -/

namespace Rollforward

open Std Lib

section Runs

variable [Crates]

/-- The local replica keeps out what is to be written for the resource. -/
def Refuses (key : ResourceKey) : SyncEvent → Prop
  | ⟨_, .applyMutations mutations, .ok results⟩ =>
    (∃ mutation ∈ mutations, mutation.key = key) ∧
      (results.head?.filter fun result => result.status = .applied) = none
  | _ => False

namespace Executed

/-- The operation ends in an error in the loop over the plan. -/
def Errs (run : Executed) (operation : PlanOperation) : Prop :=
  ∃ before after error, run.plan = before ++ operation :: after ∧
    run.Passed (do
      let tally ← run.upTo before
      Comp.attempt (applyOperation run.locals tally operation)) (.error error)

inductive Failed (run : Executed) (operation : PlanOperation) : Prop
  | unread {contents} : run.Read contents →
      uploadVerdict run.rt run.before (contentMap contents) operation = .unread →
      Failed run operation
  | refused {e} : operation.isUpload = true → e ∈ run.trace → Refuses operation.key e →
      Failed run operation
  | erred : run.Errs operation → Failed run operation

inductive Conflicted (run : Executed) (operation : PlanOperation) : Prop
  | planned : operation.isConflict = true → Conflicted run operation
  | policy {contents} : run.Read contents →
      uploadVerdict run.rt run.before (contentMap contents) operation = .conflicted →
      Conflicted run operation

/-- The requested scopes are distinct and have every planned resource in them. -/
def Scoped (run : Executed) : Prop :=
  run.request.scopes.Nodup ∧ ∀ operation ∈ run.plan, operation.key.scopeId ∈ run.request.scopes

/-- The report accounts for every operation. -/
structure Accounts (run : Executed) : Prop where
  total : run.report.uploaded + run.report.downloaded + run.report.deletedRemote +
    run.report.deletedLocal + run.report.unchanged + run.report.conflicts +
    run.report.failures = run.plan.length
  conflicts : run.Scoped →
    (run.report.scopes.map ScopeReport.conflicts).sum = run.report.conflicts
  failures : run.Scoped →
    (run.report.scopes.map ScopeReport.failures).sum = run.report.failures
  complete : run.Scoped → ∀ entry ∈ run.report.scopes, entry.status = .complete ↔
    ∀ operation ∈ run.plan, operation.key.scopeId = entry.scopeId →
      ¬ run.Failed operation ∧ ¬ run.Conflicted operation

end Executed

section Tally

/-- What is done, in whatever way. -/
def SyncReport.settled (report : SyncReport) : Nat :=
  report.uploaded + report.downloaded + report.deletedRemote + report.deletedLocal +
    report.unchanged

/-- So many operations are done and so many in conflict; these failed. -/
structure Tally.Counts (tally : Tally) (settled conflicts : Nat) (failed : List PlanOperation) :
    Prop where
  settled : tally.report.settled = settled
  conflicts : tally.report.conflicts = conflicts
  failures : tally.report.failures = failed.length
  scopes : ∀ scope, tally.failures[scope]?.getD 0 =
    failed.countP fun operation => operation.key.scopeId = scope

variable {tally : Tally} {settled conflicts : Nat} {failed : List PlanOperation}

omit [Crates] in
theorem Tally.Counts.fail (h : tally.Counts settled conflicts failed) (operation : PlanOperation) :
    (tally.fail operation.key.scopeId).Counts settled conflicts (failed ++ [operation]) where
  settled := h.settled
  conflicts := h.conflicts
  failures := by simp [Tally.fail, h.failures]
  scopes := by
    intro scope
    rw [List.countP_append, ← h.scopes]
    by_cases hs : operation.key.scopeId = scope
    · subst hs
      simp [Tally.fail]
    · simp [Tally.fail, ExtTreeMap.getElem?_insert, hs]

omit [Crates] in
theorem Tally.Counts.report (h : tally.Counts settled conflicts failed) {report : SyncReport}
    {settled' conflicts' : Nat} (hsettled : report.settled = settled')
    (hconflicts : report.conflicts = conflicts')
    (hfailures : report.failures = tally.report.failures) :
    { tally with report }.Counts settled' conflicts' failed where
  settled := hsettled
  conflicts := hconflicts
  failures := hfailures.trans h.failures
  scopes := h.scopes

end Tally

section Prepare

variable {rt : SyncRuntime} {contents : Map ResourceKey ResourceContent}
variable {s₀ s : RuntimeState} {h : List SyncEvent}

/-- What the preparation of the uploads `before` has found out. -/
structure Prepared.Sorts (prepared : Prepared) (verdict : PlanOperation → UploadVerdict)
    (conflicts : Nat) (before : List PlanOperation) : Prop where
  failed : ∀ key, key ∈ prepared.failedUploadKeys ↔
    ∃ operation ∈ before, operation.key = key ∧ verdict operation ≠ .ready
  tally : prepared.tally.Counts 0
    (conflicts + before.countP fun operation => verdict operation = .conflicted)
    (before.filter fun operation => verdict operation = .unread)

variable {prepared : Prepared} {conflicts : Nat} {before : List PlanOperation}
variable {verdict : PlanOperation → UploadVerdict} {operation : PlanOperation}

omit [Crates] in
theorem Prepared.Sorts.ready (h : prepared.Sorts verdict conflicts before)
    (hv : verdict operation = .ready) : prepared.Sorts verdict conflicts (before ++ [operation]) where
  failed := by simp [h.failed, hv, or_and_right, exists_or]
  tally := by simpa [hv] using h.tally

omit [Crates] in
theorem Prepared.Sorts.unread (h : prepared.Sorts verdict conflicts before)
    (hv : verdict operation = .unread) :
    (prepared.failUpload operation.key).Sorts verdict conflicts (before ++ [operation]) where
  failed := by
    intro key
    simp [Prepared.failUpload, h.failed, hv, or_and_right, exists_or, or_comm, eq_comm]
  tally := by simpa [Prepared.failUpload, hv] using h.tally.fail operation

omit [Crates] in
theorem Prepared.Sorts.conflicted {report : SyncReport}
    (h : prepared.Sorts verdict conflicts before) (hv : verdict operation = .conflicted)
    (hreport : report = { prepared.tally.report with
      conflicts := prepared.tally.report.conflicts + 1 }) :
    { prepared with
      failedUploadKeys := operation.key :: prepared.failedUploadKeys
      tally := { prepared.tally with report } }.Sorts verdict conflicts
        (before ++ [operation]) where
  failed := by
    intro key
    simp [h.failed, hv, or_and_right, exists_or, or_comm, eq_comm]
  tally := by
    subst hreport
    have hcount : (before ++ [operation]).countP (fun operation => verdict operation = .conflicted) =
        before.countP (fun operation => verdict operation = .conflicted) + 1 := by simp [hv]
    have hunread : (before ++ [operation]).filter (fun operation => verdict operation = .unread) =
        before.filter fun operation => verdict operation = .unread := by simp [hv]
    rw [hcount, hunread]
    refine h.tally.report h.tally.settled ?_ rfl
    rw [h.tally.conflicts, Nat.add_assoc]

omit [Crates] in
theorem Prepared.Sorts.same {prepared' : Prepared} (h : prepared.Sorts verdict conflicts before)
    (hfailed : prepared'.failedUploadKeys = prepared.failedUploadKeys)
    (htally : prepared'.tally = prepared.tally) : prepared'.Sorts verdict conflicts before where
  failed := by simpa only [hfailed] using h.failed
  tally := by simpa only [htally] using h.tally

theorem Prepared.addChunks_failed (prepared : Prepared) (key : ResourceKey)
    (content : ResourceContent) :
    (prepared.addChunks key content).failedUploadKeys = prepared.failedUploadKeys := by
  unfold Prepared.addChunks
  split <;> rfl

theorem Prepared.addChunks_tally (prepared : Prepared) (key : ResourceKey)
    (content : ResourceContent) : (prepared.addChunks key content).tally = prepared.tally := by
  unfold Prepared.addChunks
  split <;> rfl

/-- Each upload is sorted by its verdict, on the state the run began with. -/
theorem prepareUpload_sorts (hs : SameBase s₀ s)
    (hprepared : prepared.Sorts (uploadVerdict rt s₀ contents) conflicts before) :
    Ends (prepareUpload rt contents prepared operation)
      (fun _ s' prepared' => SameBase s₀ s' ∧
        prepared'.Sorts (uploadVerdict rt s₀ contents) conflicts (before ++ [operation])) h s := by
  unfold Ends prepareUpload
  split
  · next key localState =>
    split
    · next hread =>
      have hverdict : uploadVerdict rt s₀ contents (.upload key localState) = .unread := by
        simp [uploadVerdict, hread]
      exact ⟨hs, hprepared.unread hverdict⟩
    · next content hread =>
      split
      · next htoken =>
        have hverdict : uploadVerdict rt s₀ contents (.upload key localState) = .unread := by
          simp [uploadVerdict, hread, htoken]
        exact ⟨hs, hprepared.unread hverdict⟩
      · next htoken =>
        rw [Comp.wp_bind, Comp.wp_get, Comp.wp_bind, askPolicy_of_sameBase hs]
        rw [Comp.wp_ofExcept]
        refine ⟨fun answer hanswer => ?_, fun _ _ => trivial⟩
        cases answer with
        | notHandled =>
          have hverdict : uploadVerdict rt s₀ contents (.upload key localState) = .ready := by
            simp [uploadVerdict, hread, htoken, hanswer]
          refine ⟨hs, (hprepared.ready hverdict).same ?_ ?_⟩
          · apply Prepared.addChunks_failed
          · apply Prepared.addChunks_tally
        | merged data =>
          have hverdict : uploadVerdict rt s₀ contents (.upload key localState) = .ready := by
            simp [uploadVerdict, hread, htoken, hanswer]
          rw [Comp.wp_bind, Comp.wp_ofExcept]
          refine ⟨fun _ _ => ⟨hs, (hprepared.ready hverdict).same ?_ ?_⟩, fun _ _ => trivial⟩
          · apply Prepared.addChunks_failed
          · apply Prepared.addChunks_tally
        | conflict reason =>
          have hverdict : uploadVerdict rt s₀ contents (.upload key localState) = .conflicted := by
            simp [uploadVerdict, hread, htoken, hanswer]
          rw [Comp.wp_bind, Comp.wp_ofExcept]
          refine ⟨fun remote _ => ?_, fun _ _ => trivial⟩
          rw [Comp.wp_bind, Comp.wp_modify]
          refine ⟨hs.trans ⟨⟨rfl, rfl, le_rfl⟩, rfl, rfl, rfl⟩, ?_⟩
          exact hprepared.conflicted hverdict rfl
  · next hop =>
    refine ⟨hs, hprepared.ready ?_⟩
    cases operation with
    | upload key localState => exact absurd rfl (hop key localState)
    | _ => rfl

end Prepare

section Publish

variable {rt : SyncRuntime} {contents : Map ResourceKey ResourceContent}
variable {s₀ s : RuntimeState} {h : List SyncEvent} {prepared : Prepared}

/-- An upload that is ready becomes one commit. -/
theorem createCommit_creates {created : List Commit} {operation : PlanOperation}
    (hupload : operation.isUpload = true) (hready : uploadVerdict rt s₀ contents operation = .ready)
    (hkey : operation.key ∉ prepared.failedUploadKeys) :
    Ends (createCommit rt contents prepared created operation)
      (fun _ _ created' => ∃ x : Commit, x.Created ∧ x.resource = operation.key ∧
        created' = created ++ [x]) h s := by
  have hchange : ∀ h s, Ends (operationChange contents prepared operation)
      (fun _ _ change => change.isSome = true) h s := by
    intro h s
    cases operation with
    | publishDelete key => exact rfl
    | upload key localState =>
      unfold Ends operationChange
      dsimp only
      cases hread : contents[key]? with
      | none => simp [uploadVerdict, hread] at hready
      | some content =>
        rw [Comp.wp_bind]
        refine Comp.wp_imp (Q := fun _ _ _ => True) ?_ fun _ _ _ _ => rfl
        refine (uploadChange_reads prepared key content).wp (J := fun _ _ => True) ?_ ?_ ?_ trivial
        · exact fun _ _ _ _ _ => trivial
        · exact fun _ _ _ _ _ => trivial
        · exact fun _ _ _ _ _ _ _ _ => trivial
    | _ => cases hupload
  rw [Ends, createCommit]
  dsimp only
  rw [if_neg hkey, Comp.wp_bind, Comp.wp_get, Comp.wp_bind]
  refine Comp.wp_imp (Q := fun _ _ _ => True) ?_ fun h₁ s₁ counter _ => ?_
  · exact trivial
  rw [Comp.wp_bind]
  refine Comp.wp_imp (hchange h₁ s₁) fun h₂ s₂ change hsome => ?_
  obtain ⟨change, rfl⟩ := Option.isSome_iff_exists.mp hsome
  dsimp only
  rw [Comp.wp_bind, Sync.nowMillis, Comp.wp_request]
  refine ⟨trivial, fun _ _ _ => ⟨fun _ _ => ⟨_, ⟨_, _, _, _, _, _, rfl⟩, rfl, rfl⟩, ?_⟩⟩
  exact fun _ _ => trivial

end Publish

section Operations

variable {s : RuntimeState} {h : List SyncEvent} {locals : List LocalResource}
variable {tally : Tally} {operation : PlanOperation}

/-- What is done in the loop over the plan: uploads were published before it. -/
def PlanOperation.runs (operation : PlanOperation) : Bool :=
  !operation.isUpload && !operation.isConflict

theorem applyOperation_idle (hidle : operation.runs = false) :
    applyOperation locals tally operation = pure tally := by
  cases operation with
  | upload | publishDelete | conflict => rfl
  | _ => cases hidle

end Operations

section Refusals

variable {key key' : ResourceKey} {e : SyncEvent} {h : List SyncEvent}

theorem NoWrite.not_refuses (he : NoWrite e.req) : ¬ Refuses key e := by
  intro href
  unfold Refuses at href
  split at href
  · exact he
  · exact href

/-- The resources whose new content was kept out so far. -/
def Refused (refused : List ResourceKey) (h : List SyncEvent) : Prop :=
  ∀ key, key ∈ refused ↔ ∃ e ∈ h, Refuses key e

theorem Refused.nil (hnone : ∀ e ∈ h, NoWrite e.req) : Refused [] h := by
  intro key
  simp only [List.not_mem_nil, false_iff, not_exists, not_and]
  exact fun e he => (hnone e he).not_refuses

theorem Refused.same {refused : List ResourceKey} {h' : List SyncEvent} (hr : Refused refused h)
    (hsub : ∀ e ∈ h, e ∈ h') (hnew : ∀ e ∈ h', ∀ key, Refuses key e → e ∈ h) :
    Refused refused h' := by
  intro key
  rw [hr key]
  constructor
  · rintro ⟨e, he, href⟩
    exact ⟨e, hsub e he, href⟩
  · rintro ⟨e, he, href⟩
    exact ⟨e, hnew e he key href, href⟩

theorem Refused.cons {refused : List ResourceKey} (hr : Refused refused h)
    (he : ∀ key, Refuses key e ↔ key = key') : Refused (key' :: refused) (e :: h) := by
  intro key
  simp only [List.mem_cons, hr key, exists_eq_or_imp, he]

end Refusals

section Uploads

variable {rt : SyncRuntime} {contents : Map ResourceKey ResourceContent}
variable {s₀ s s' : RuntimeState} {h h' : List SyncEvent} {uploads : List PlanOperation}
variable {tally tally' : Tally} {prepared : Prepared} {conflicts settled : Nat}
variable {failed : List PlanOperation}

theorem prepareUploads_sorts
    (hexec : Prog.Exec AnyAnswer h (uploads.foldlM (prepareUpload rt contents) { tally } s) h' s'
      (.ok prepared)) (hs : SameBase s₀ s) (htally : tally.Counts 0 conflicts []) :
    SameBase s₀ s' ∧ prepared.Sorts (uploadVerdict rt s₀ contents) conflicts uploads := by
  refine Comp.exec_foldlM (fun before _ s prepared => SameBase s₀ s ∧
    prepared.Sorts (uploadVerdict rt s₀ contents) conflicts before) hexec ⟨hs, ⟨by simp, htally⟩⟩ ?_
  intro before operation after _ h₁ s₁ a₁ h₂ s₂ a₂ _ hturn _ hinv
  exact (prepareUpload_sorts hinv.1 hinv.2).exec hturn

theorem createCommits_ready {created : List Commit}
    (hexec : Prog.Exec AnyAnswer h (uploads.foldlM (createCommit rt contents prepared) [] s) h' s'
      (.ok created)) (huploads : ∀ operation ∈ uploads, operation.isUpload = true)
    (hdistinct : (uploads.map PlanOperation.key).Nodup)
    (hsorts : prepared.Sorts (uploadVerdict rt s₀ contents) conflicts uploads) :
    (∀ x ∈ created, x.Created) ∧ created.map Commit.resource = (uploads.filter fun operation =>
      uploadVerdict rt s₀ contents operation = .ready).map PlanOperation.key := by
  refine Comp.exec_foldlM (fun before _ _ created => (∀ x ∈ created, x.Created) ∧
    created.map Commit.resource = (before.filter fun operation =>
      uploadVerdict rt s₀ contents operation = .ready).map PlanOperation.key) hexec ⟨by simp, rfl⟩ ?_
  intro before operation after hsplit h₁ s₁ created₁ h₂ s₂ created₂ _ hturn _ hinv
  have hmem : operation ∈ uploads := by
    rw [hsplit]
    exact List.mem_append_right _ List.mem_cons_self
  have hkey : operation.key ∈ prepared.failedUploadKeys ↔
      uploadVerdict rt s₀ contents operation ≠ .ready := by
    rw [hsorts.failed]
    constructor
    · rintro ⟨operation', hmem', e, hv⟩
      rwa [← List.inj_on_of_nodup_map hdistinct hmem' hmem e]
    · exact fun hv => ⟨operation, hmem, rfl, hv⟩
  by_cases hready : uploadVerdict rt s₀ contents operation = .ready
  · have hnot : operation.key ∉ prepared.failedUploadKeys := fun hk => hkey.mp hk hready
    obtain ⟨x, hx, hres, rfl⟩ :=
      (createCommit_creates (huploads operation hmem) hready hnot).exec hturn
    refine ⟨fun y hy => ?_, ?_⟩
    · rcases List.mem_append.mp hy with hy | hy
      · exact hinv.1 y hy
      · rwa [List.mem_singleton.mp hy]
    · rw [List.map_append, hinv.2, List.filter_append, List.map_append]
      simp [hready, hres]
  · rw [createCommit] at hturn
    dsimp only at hturn
    rw [if_pos (hkey.mpr hready)] at hturn
    obtain ⟨rfl, rfl, e⟩ := Prog.exec_done.mp hturn
    rw [Except.ok.inj e, hinv.2, List.filter_append]
    refine ⟨hinv.1, ?_⟩
    simp [hready]

end Uploads

namespace Executed

variable {run : Executed}

section Loop

variable {s₁ s₂ s₃ : RuntimeState} {tally₂ tally₃ : Tally} {h₁ h₂ h₃ : List SyncEvent}

/-- An operation errs if it does where the loop has come to it. -/
theorem Stages.errs_iff (hstages : run.Stages s₁ tally₂ tally₃ s₂ s₃ h₁ h₂ h₃)
    {before after : List PlanOperation} {operation : PlanOperation}
    (hsplit : run.plan = before ++ operation :: after) {h h' : List SyncEvent}
    {s s' : RuntimeState} {tally : Tally} {outcome : Except SyncError Tally}
    (hbefore : Prog.Exec AnyAnswer h₂ (before.foldlM (runOperation run.locals) tally₂ s₂) h s
      (.ok tally))
    (happly : Prog.Exec AnyAnswer h (applyOperation run.locals tally operation s) h' s' outcome)
    (hsuffix : h' <:+ run.trace) : run.Errs operation ↔ ∃ error, outcome = .error error := by
  have hpassed : Prog.Exec AnyAnswer [] ((do
      let tally ← run.upTo before
      Comp.attempt (applyOperation run.locals tally operation) : Sync _) run.before) h' s'
      (.ok outcome) := by
    refine Comp.exec_bind_ok.mpr ⟨h, s, tally, ?_, Comp.exec_attempt.mpr ⟨outcome, rfl, happly⟩⟩
    refine Comp.exec_bind_ok.mpr ⟨h₁, s₁, (), hstages.start, ?_⟩
    exact Comp.exec_bind_ok.mpr ⟨h₂, s₂, tally₂, hstages.uploads, hbefore⟩
  constructor
  · rintro ⟨before', after', error, hsplit', h'', s'', hsuffix', hpassed'⟩
    have hnodup : run.plan.Nodup := List.Nodup.of_map _ run.distinct
    have hnot : operation ∉ before ∧ operation ∉ after := by
      rw [hsplit, List.nodup_append, List.nodup_cons] at hnodup
      refine ⟨fun hm => ?_, hnodup.2.1.1⟩
      exact hnodup.2.2 operation hm operation List.mem_cons_self rfl
    obtain ⟨rfl, -, rfl⟩ := (List.append_cons_inj_of_notMem hnot.1 hnot.2).mp
      (hsplit.symm.trans hsplit')
    have hsame := (hpassed.determined hsuffix hpassed' hsuffix').2.2
    exact ⟨error, Except.ok.inj hsame⟩
  · rintro ⟨error, rfl⟩
    exact ⟨before, after, error, hsplit, h', s', hsuffix, hpassed⟩

/-- How the uploads come to be published, by what the replica returned for them. -/
structure Publishes (run : Executed) (tally₂ : Tally) (s₂ : RuntimeState) (h₂ : List SyncEvent)
    (contents : List ResourceContent) (batch : CommitBatch) : Prop where
  read : run.Read contents
  created : ∀ x ∈ batch.commits, x.Created
  ready : batch.commits.map Commit.resource = (run.uploads.filter fun operation =>
    uploadVerdict run.rt run.before (contentMap contents) operation = .ready).map PlanOperation.key
  published : ∃ tally h s, SameBase run.before s ∧ (∀ e ∈ h, NoWrite e.req) ∧
    tally.Counts 0 (run.plannedConflicts.length + run.uploads.countP fun operation =>
        uploadVerdict run.rt run.before (contentMap contents) operation = .conflicted)
      (run.uploads.filter fun operation =>
        uploadVerdict run.rt run.before (contentMap contents) operation = .unread) ∧
    Prog.Exec AnyAnswer h (publishBatch run.locals batch tally s) h₂ s₂ (.ok tally₂)

theorem Stages.publishes (hstages : run.Stages s₁ tally₂ tally₃ s₂ s₃ h₁ h₂ h₃) :
    ∃ contents batch, run.Publishes tally₂ s₂ h₂ contents batch := by
  obtain ⟨hbase, added₁, hadded₁, hnone₁⟩ :=
    (startRun_base run.request run.plan run.before).exec hstages.start
  rw [List.append_nil] at hadded₁
  subst hadded₁
  have huploads := hstages.uploads
  rw [runUploads] at huploads
  obtain ⟨h₄, s₄, contents, hread, huploads⟩ := Comp.exec_bind_ok.mp huploads
  obtain ⟨h₅, s₅, prepared, hprepare, huploads⟩ := Comp.exec_bind_ok.mp huploads
  obtain ⟨h₆, s₆, existing, hlookup, huploads⟩ := Comp.exec_bind_ok.mp huploads
  obtain ⟨h₇, s₇, commits, hcreate, hpublish⟩ := Comp.exec_bind_ok.mp huploads
  have hhere : run.Read contents := by
    refine ⟨h₄, s₄, ?_, Comp.exec_bind_ok.mpr ⟨h₁, s₁, (), hstages.start, hread⟩⟩
    refine hprepare.suffix.trans (hlookup.suffix.trans (hcreate.suffix.trans ?_))
    exact hpublish.suffix.trans (hstages.loop.suffix.trans hstages.suffix)
  have hquiet : ∀ {h h' : List SyncEvent}, (∀ e ∈ h, NoWrite e.req) →
      (∃ added, h' = added ++ h ∧ ∀ e ∈ added, IsRead e.req) → ∀ e ∈ h', NoWrite e.req := by
    rintro h _ hh ⟨added, rfl, hadded⟩ e he
    rcases List.mem_append.mp he with he | he
    · exact (hadded e he).noWrite
    · exact hh e he
  have hnone₄ := hquiet hnone₁ (Prog.Within.exec (Comp.Within.request (R := Eq) trivial _ s₁) hread).2
  obtain ⟨r, -, rfl, rfl⟩ := request_exec.mp hread
  have htally : ({ report := { conflicts := run.plannedConflicts.length } } : Tally).Counts 0
      run.plannedConflicts.length [] :=
    ⟨rfl, rfl, rfl, fun scope => by simp⟩
  obtain ⟨hbase', hsorts⟩ := prepareUploads_sorts hprepare hbase htally
  have hdistinct : (run.uploads.map PlanOperation.key).Nodup :=
    run.distinct.sublist (List.filter_sublist.map _)
  obtain ⟨hcreated, hready⟩ := createCommits_ready hcreate
    (fun op hop => (List.mem_filter.mp hop).2) hdistinct hsorts
  -- nothing is written before the batch is published
  have hnone₅ := hquiet hnone₄ ((Comp.Within.foldlM (fun prepared operation =>
    prepareUpload_prepares run.rt _ prepared operation) _ _ _).exec hprepare).2
  have hnone₆ := hquiet hnone₅ (Prog.Within.exec (Comp.Within.request (R := Eq) trivial _ s₅) hlookup).2
  obtain ⟨hbase'', hadded⟩ := (Comp.Within.foldlM (fun created operation =>
    createCommit_prepares run.rt _ prepared created operation) _ _ _).exec hcreate
  obtain ⟨r', -, rfl, rfl⟩ := request_exec.mp hlookup
  exact ⟨contents, _, hhere, hcreated, hready, prepared.tally, h₇, s₇, hbase'.trans hbase'',
    hquiet hnone₆ hadded, hsorts.tally, hpublish⟩

end Loop

section Accounts

/-- Where every operation of a run has gone. -/
structure Ledger (run : Executed) (contents : List ResourceContent)
    (refused : List ResourceKey) (erred : List PlanOperation) (counts : Map String Nat) :
    Prop where
  read : run.Read contents
  settled : run.report.settled + refused.length + erred.length =
    (run.uploads.countP fun operation => run.verdict contents operation = .ready) +
      run.plan.countP PlanOperation.runs
  conflicts : run.report.conflicts = run.plannedConflicts.length +
    run.uploads.countP fun operation => run.verdict contents operation = .conflicted
  failures : run.report.failures =
    (run.uploads.filter fun operation => run.verdict contents operation = .unread).length +
      erred.length
  failed : ∀ scope, counts[scope]?.getD 0 =
    ((run.uploads.filter fun operation => run.verdict contents operation = .unread) ++
      erred).countP fun operation => operation.key.scopeId = scope
  scopes : run.report.scopes = reportScopes run.request run.plan counts
  erred : ∀ operation, operation ∈ erred ↔ operation ∈ run.plan ∧ run.Errs operation
  refused : ∀ key, key ∈ refused ↔ ∃ operation ∈ run.uploads, operation.key = key ∧
    ∃ e ∈ run.trace, Refuses key e

variable {contents : List ResourceContent} {refused : List ResourceKey}
variable {erred : List PlanOperation} {counts : Map String Nat}

/-- An operation is an upload, a conflict, or one that runs. -/
theorem length_plan (run : Executed) : run.plan.length =
    run.uploads.length + run.plannedConflicts.length + run.plan.countP PlanOperation.runs := by
  rw [uploads, plannedConflicts]
  induction run.plan with
  | nil => rfl
  | cons operation plan ih =>
    rw [List.length_cons, ih, List.countP_cons, List.filter_cons, List.filter_cons]
    cases operation <;> simp only [PlanOperation.isUpload, PlanOperation.isConflict,
      PlanOperation.runs, Bool.not_true, Bool.not_false, Bool.and_true, Bool.and_false,
      Bool.false_eq_true, if_true, if_false, List.length_cons] <;> omega

theorem length_uploads (run : Executed) (contents : List ResourceContent) : run.uploads.length =
    (run.uploads.countP fun operation => run.verdict contents operation = .ready) +
      (run.uploads.countP fun operation => run.verdict contents operation = .conflicted) +
      (run.uploads.filter fun operation => run.verdict contents operation = .unread).length := by
  rw [← List.countP_eq_length_filter]
  induction run.uploads with
  | nil => rfl
  | cons operation uploads ih =>
    rw [List.length_cons, ih, List.countP_cons, List.countP_cons, List.countP_cons]
    cases run.verdict contents operation <;> simp <;> omega

/-- Every operation is done, refused, failed or in conflict. -/
theorem Ledger.total (h : run.Ledger contents refused erred counts) :
    run.report.settled + run.report.conflicts + run.report.failures + refused.length =
      run.plan.length := by
  have hplan := run.length_plan
  have huploads := run.length_uploads contents
  have hsettled := h.settled
  rw [h.conflicts, h.failures]
  omega

end Accounts

end Executed

end Runs

section Samples

open Sample

attribute [local instance] crates

end Samples

end Rollforward
