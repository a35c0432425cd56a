import Rollforward.Catalog.Commands
import Rollforward.Runs

/-! Whatever a client publishes is in its state by the time it does anything else than
write texts back. -/

namespace Rollforward

open Std Lib

variable [Crates]

/-- The commits of the last batch are in the memory. -/
def Recorded (h : List SyncEvent) (s : RuntimeState) : Prop :=
  ∀ x ∈ recordable h, (s.commits.get? x.id).isSome

/-- Only a write-back may come before the last batch is recorded. -/
def Noted (h : List SyncEvent) (s : RuntimeState) : Req → Prop
  | .applyMutations _ => True
  | _ => Recorded h s

def Notes (x : Sync α) : Prop :=
  ∀ h s, Recorded h s → Comp.wp (Prog.fairly fun _ => True) Noted (fun _ _ _ => True) x
    (fun h s _ => Recorded h s) h s

theorem Recorded.noted {h : List SyncEvent} {s : RuntimeState} (hr : Recorded h s) (q : Req) :
    Noted h s q := by
  cases q <;> first | exact trivial | exact hr

theorem Recorded.extends {h : List SyncEvent} {s t : RuntimeState} (hr : Recorded h s)
    (he : Extends s t) : Recorded h t := fun x hx => he _ (hr x hx)

namespace Notes

theorem silent {x : Sync α} (hx : Silent x) : Notes x := by
  intro h s hr
  refine Comp.wp_mono (hx.wp (J := Recorded) ?_ ?_ ?_ hr) (fun _ _ _ _ => trivial)
    fun _ _ _ hj => hj
  · exact fun h s t hj hs => hj.extends hs.extends
  · exact fun h s q hj _ => hj.noted q
  · rintro h s q r _ hj hq ⟨rfl, -⟩
    rw [Recorded, hq.recordable]
    exact hj

theorem bind {x : Sync α} {f : α → Sync β} (hx : Notes x) (hf : ∀ a, Notes (f a)) :
    Notes (x >>= f) := fun h s hr =>
  Comp.wp_bind.mpr (Comp.wp_imp (hx h s hr) fun h s a hr => hf a h s hr)

theorem get_bind {f : RuntimeState → Sync β} (hf : ∀ s, Notes (f s)) : Notes (Comp.get >>= f) :=
  bind (silent .get) hf

theorem throw (e : SyncError) : Notes (Comp.throw e : Sync α) := silent (.throw e)

theorem foldlM {f : γ → β → Sync γ} (hf : ∀ a x, Notes (f a x)) (xs : List β) (a : γ) :
    Notes (xs.foldlM f a) := by
  induction xs generalizing a with
  | nil => exact silent (.pure a)
  | cons x xs ih => exact bind (hf a x) ih

/-- A call to the catalog that is not a batch leaves nothing to record. -/
theorem request {q : Req} {f : q.Resp → Except SyncError α}
    (hq : ∀ h s (r : q.Resp), recordable (⟨s, q, r⟩ :: h) = []) : Notes (Comp.request q f) := by
  intro h s hr
  refine Comp.wp_request.mpr ⟨hr.noted q, ?_⟩
  rintro r _ ⟨rfl, -⟩
  refine ⟨fun a _ x hx => ?_, fun _ _ => trivial⟩
  rw [hq h s r] at hx
  cases hx

end Notes

section Publishing

theorem refreshRemote_notes (scopes : List String) : Notes (refreshRemote scopes) := by
  refine .get_bind fun s => .bind (.request fun _ _ _ => rfl) fun delta => ?_
  refine .bind (.silent (.modify fun _ => ⟨rfl, rfl, le_rfl⟩)) fun _ => .get_bind fun s => ?_
  refine .bind (.request fun _ _ _ => rfl) fun commits => ?_
  intro h s hr
  exact hr.extends fun _ hid => KeyedMap.isSome_get?_insertAll hid

theorem snapshotLargeCatalogs_notes (rt : SyncRuntime) : Notes (snapshotLargeCatalogs rt) := by
  refine .get_bind fun s => .foldlM (fun _ scope => ?_) _ _
  refine .get_bind fun s => .bind (.silent (.request (by exact trivial) _)) fun now => ?_
  refine .bind (.request fun _ _ _ => rfl) fun _ => ?_
  exact .silent (.modify fun _ => ⟨rfl, rfl, le_rfl⟩)

theorem extends_insert (s : RuntimeState) (x : Commit) :
    Extends s { s with commits := s.commits.insert x } :=
  (Grown.insert (List.mem_singleton_self x)).extends

theorem isSome_insert (s : RuntimeState) (x : Commit) :
    ((s.commits.insert x).get? x.id).isSome := by
  rw [KeyedMap.get?_insert, if_pos rfl]
  rfl

theorem publishCommit_notes (rt : SyncRuntime) (key : ResourceKey) (parents : List String)
    (counter : Nat) (change : ResourceChange) (batch : CommitBatch) :
    Notes (publishCommit rt key parents counter change batch) := by
  refine .bind (.silent (.request (by exact trivial) _)) fun now => ?_
  intro h s hr
  dsimp only
  rw [Comp.wp_bind]
  refine Comp.wp_request.mpr ⟨hr, ?_⟩
  rintro r _ ⟨rfl, -⟩
  refine ⟨fun _ hok => ?_, fun _ _ => trivial⟩
  obtain rfl : r = .ok () := hok
  intro x hx
  obtain rfl := List.mem_singleton.mp hx
  exact isSome_insert s _

theorem publishBytes_notes (rt : SyncRuntime) (key : ResourceKey) (kind : ResourceKind)
    (data : Bytes) (parents : List String) : Notes (publishBytes rt key kind data parents) :=
  .bind (.silent nextCounter_prepares.silent) fun _ =>
    .bind (.silent (prepareChange_reads key kind data).silent) fun _ =>
    publishCommit_notes rt key parents _ _ _

theorem publishDelete_notes (rt : SyncRuntime) (key : ResourceKey) (parents : List String) :
    Notes (publishDelete rt key parents) :=
  .bind (.silent nextCounter_prepares.silent) fun _ => publishCommit_notes rt key parents _ _ _

/-- In the loop over a batch, `rest` is still to be recorded. -/
def Recording (batch rest : List Commit) (h : List SyncEvent) (s : RuntimeState) : Prop :=
  recordable h = batch ∧ ∀ x ∈ batch, x ∈ rest ∨ (s.commits.get? x.id).isSome

theorem writeBack_recording {batch rest : List Commit} (locals : List LocalResource) (tally : Tally)
    (key : ResourceKey) (heads : List String) {h : List SyncEvent} {s : RuntimeState}
    (hr : Recording batch rest h s) :
    Comp.wp (Prog.fairly fun _ => True) Noted (fun _ _ _ => True) (writeBack locals tally key heads)
      (fun h s _ => Recording batch rest h s) h s := by
  simp only [writeBack, Comp.wp_bind, Comp.wp_get]
  refine Comp.wp_ofExcept.mpr ⟨fun merged _ => ?_, fun _ _ => trivial⟩
  refine Comp.wp_request.mpr ⟨trivial, ?_⟩
  rintro r _ ⟨rfl, -⟩
  refine ⟨fun results _ => ?_, fun _ _ => trivial⟩
  split
  · exact hr
  · exact hr

theorem afterCommit_recording {batch rest : List Commit} (locals : List LocalResource)
    (tally : Tally) {commit : Commit} {h : List SyncEvent} {s : RuntimeState}
    (hr : Recording batch (commit :: rest) h s) :
    Comp.wp (Prog.fairly fun _ => True) Noted (fun _ _ _ => True) (afterCommit locals tally commit)
      (fun h s _ => Recording batch rest h s) h s := by
  have hins : Recording batch rest h { s with commits := s.commits.insert commit } := by
    refine ⟨hr.1, fun x hx => ?_⟩
    rcases hr.2 x hx with hx | hx
    · rcases List.mem_cons.mp hx with rfl | hx
      · exact Or.inr (isSome_insert s x)
      · exact Or.inl hx
    · exact Or.inr (extends_insert s commit _ hx)
  simp only [afterCommit, Comp.wp_bind, Comp.wp_modify, Comp.wp_get]
  split
  · exact hins
  · exact hins
  · exact writeBack_recording locals tally _ _ hins

theorem publishBatch_notes (locals : List LocalResource) (batch : CommitBatch) (tally : Tally) :
    Notes (publishBatch locals batch tally) := by
  unfold publishBatch
  split
  · exact .silent (.pure _)
  intro h s hr
  rw [Comp.wp_bind]
  refine Comp.wp_request.mpr ⟨hr, ?_⟩
  rintro r _ ⟨rfl, -⟩
  refine ⟨fun _ hok => ?_, fun _ _ => trivial⟩
  obtain rfl : r = .ok () := hok
  rw [Comp.wp_bind]
  refine Comp.wp_imp (Comp.wp_foldlM (fun rest h s _ => Recording batch.commits rest h s)
    (fun commit rest h s tally hr => afterCommit_recording locals tally hr)
    ⟨rfl, fun x hx => Or.inl hx⟩) ?_
  intro h₁ s₁ tally₁ hr₁
  have hrec : Recorded h₁ s₁ := by
    intro x hx
    rw [hr₁.1] at hx
    exact (hr₁.2 x hx).resolve_left List.not_mem_nil
  exact Notes.bind (.silent (.request (by exact trivial) _)) (fun _ => .silent (.pure _)) h₁ s₁ hrec

end Publishing

section Commands

theorem reconcile_notes (rt : SyncRuntime) (request : SyncRequest) :
    Notes (Rollforward.reconcile rt request) := by
  refine .bind (.silent (.modify fun _ => ⟨rfl, rfl, le_rfl⟩)) fun _ => ?_
  refine .bind (refreshRemote_notes _) fun _ => .bind (snapshotLargeCatalogs_notes rt) fun _ => ?_
  refine .bind (.silent (localInventory_reads _).silent) fun locals => ?_
  refine .bind (.silent (.modify fun _ => ⟨rfl, rfl, le_rfl⟩)) fun _ => .get_bind fun s => ?_
  refine .bind (.silent (.ofExcept _)) fun plan => ?_
  refine .bind (.silent (startRun_silent request plan)) fun _ => .bind ?_ fun tally => ?_
  · refine .bind (.silent (.request (by exact trivial) _)) fun contents => ?_
    refine .bind (.silent (.foldlM (fun a x => (prepareUpload_prepares rt _ a x).silent) _ _)) fun _ => ?_
    refine .bind (.silent (.request (by exact trivial) _)) fun existing => ?_
    refine .bind (.silent (.foldlM (fun a x => (createCommit_prepares rt _ _ a x).silent) _ _)) fun _ => ?_
    exact publishBatch_notes locals _ _
  · exact .silent (.bind (.foldlM (runOperation_silent locals) plan tally) fun _ =>
      .bind (acknowledgePlan_silent rt plan) fun _ => .bind (.modify fun _ => ⟨rfl, rfl, le_rfl⟩)
      fun _ => .bind (.request (by exact trivial) _) fun _ => .pure _)

theorem commitDelete_notes (rt : SyncRuntime) (key : ResourceKey) (current : ReplicaState)
    (parents : List String) (refusal : Refusal) :
    Notes (commitDelete rt key current parents refusal) :=
  .bind (.silent (removeLocal_silent key current refusal)) fun _ =>
    .bind (publishDelete_notes rt key parents) fun _ =>
    .silent (.modify fun _ => ⟨rfl, rfl, le_rfl⟩)

theorem commitVersion_notes (rt : SyncRuntime) (key : ResourceKey) (selected : Commit)
    (current : ReplicaState) (parents : List String) (delete write : Refusal) :
    Notes (commitVersion rt key selected current parents delete write) := by
  unfold commitVersion
  split
  · exact commitDelete_notes rt key current parents delete
  · exact .bind (.silent (contentForRemote_reads key _).silent) fun _ =>
      .bind (.silent (applyMutation_silent _ _ _)) fun _ =>
      .bind (publishBytes_notes rt key _ _ parents) fun _ =>
      .silent (.modify fun _ => ⟨rfl, rfl, le_rfl⟩)

theorem choosePrimary_notes (rt : SyncRuntime) (record : ConflictRecord) (current : ReplicaState)
    (heads : List String) (primary : VersionChoice) :
    Notes (choosePrimary rt record current heads primary) := by
  cases primary with
  | ours =>
    exact .bind (.silent (readOne_reads _).silent) fun _ =>
      .bind (publishBytes_notes rt _ _ _ heads) fun _ =>
      .silent (.modify fun _ => ⟨rfl, rfl, le_rfl⟩)
  | delete => exact commitDelete_notes rt _ current heads resolveDelete
  | remote commitId =>
    simp only [choosePrimary]
    split
    · exact .throw _
    · refine .get_bind fun s => ?_
      split
      · exact .throw _
      · exact commitVersion_notes rt _ _ current heads _ _

theorem resolve_notes (rt : SyncRuntime) (request : ResolveConflictRequest) :
    Notes (Rollforward.resolve rt request) := by
  refine .get_bind fun s => ?_
  split
  · exact .throw _
  dsimp only
  split
  · exact .silent (staleConflict_silent _)
  refine .bind (.silent (currentState_reads _).silent) fun current => ?_
  split
  · exact .silent (staleConflict_silent _)
  refine .bind (.silent (.foldlM (fun _ preserved => preserveCopy_silent _ preserved) _ _)) fun _ => ?_
  refine .bind (choosePrimary_notes rt _ current _ _) fun _ => ?_
  refine .bind (.silent (.modify fun _ => ⟨rfl, rfl, le_rfl⟩)) fun _ => ?_
  exact .bind (.silent (.request (by exact trivial) _)) fun _ => reconcile_notes rt _

theorem rollback_notes (rt : SyncRuntime) (request : RollbackRequest) :
    Notes (Rollforward.rollback rt request) := by
  refine .get_bind fun s => ?_
  dsimp only
  split
  · exact .throw _
  refine .bind (.silent (currentState_reads _).silent) fun current => ?_
  refine .bind (commitVersion_notes rt _ _ current _ _ _) fun _ => ?_
  exact .bind (.silent (.request (by exact trivial) _)) fun _ => reconcile_notes rt _

theorem surveyKey_notes (rt : SyncRuntime) (versions : Nat) (acks : List ResourceAck)
    (survey : Survey) (key : ResourceKey) : Notes (surveyKey rt versions acks survey key) := by
  have hdrop : Notes (do
      Comp.modify fun state => state.dropCheckpoint key
      return survey : Sync Survey) :=
    .silent (.bind (.modify fun _ => ⟨rfl, rfl, le_rfl⟩) fun _ => .pure _)
  refine .get_bind fun s => ?_
  split
  · exact hdrop
  split
  · exact .silent (.pure _)
  split
  · refine .bind (.bind (.get_bind fun s => ?_) fun commit => ?_) fun _ => .silent (.pure _)
    · split
      · exact .throw _
      split
      · exact publishDelete_notes rt key _
      · exact .bind (.silent (contentForRemote_reads key _).silent) fun _ =>
          publishBytes_notes rt key _ _ _
    · exact .silent (.bind (.modify fun _ => ⟨rfl, rfl, le_rfl⟩) fun _ =>
        .request (by exact trivial) _)
  split
  · exact .silent (.pure _)
  dsimp only
  split
  · exact hdrop
  · exact .silent (.pure _)

theorem compactScope_notes (rt : SyncRuntime) (report : V2MaintenanceReport)
    (entry : String × List String) : Notes (compactScope rt report entry) := by
  refine .get_bind fun s => .bind (.silent (.request (by exact trivial) _)) fun now => ?_
  intro h s hr
  rw [Comp.wp_bind]
  refine Comp.wp_request.mpr ⟨hr, ?_⟩
  rintro r _ ⟨rfl, -⟩
  exact ⟨fun _ _ x hx => absurd hx List.not_mem_nil, fun _ _ => trivial⟩

theorem maintain_notes (rt : SyncRuntime) (request : MaintenanceRequest) :
    Notes (Rollforward.maintain rt request) := by
  unfold maintain
  split
  · exact .silent (.pure _)
  refine .bind (refreshRemote_notes []) fun _ => .get_bind fun s => ?_
  refine .bind (.silent (.request (by exact trivial) _)) fun acks => ?_
  refine .bind (.foldlM (fun survey key => surveyKey_notes rt _ acks survey key) _ _) fun survey => ?_
  refine .bind (.foldlM (compactScope_notes rt) _ _) fun report => ?_
  exact .silent (.bind (collectPacks_silent report) fun _ =>
    .bind (.request (by exact trivial) _) fun _ => .pure _)

theorem Command.run_notes (rt : SyncRuntime) (command : Command) : Notes (command.run rt) := by
  cases command with
  | reconcile request => exact .bind (reconcile_notes rt request) fun _ => .silent (.pure _)
  | resolve request => exact .bind (resolve_notes rt request) fun _ => .silent (.pure _)
  | rollback request => exact .bind (rollback_notes rt request) fun _ => .silent (.pure _)
  | maintain request => exact .bind (maintain_notes rt request) fun _ => .silent (.pure _)
  | retireClient clientId =>
    exact .silent (.bind (.modify fun _ => ⟨rfl, rfl, le_rfl⟩) fun _ => .request (by exact trivial) _)

end Commands

/-- A client that is neither writing a text back nor failed has recorded what it published
last. -/
theorem World.Relies.recorded {S : Setting} {w : World} {c : String} (h : w.Relies S) :
    match (w.clients c).prog with
    | .call s q _ => Noted (w.clients c).trace s q
    | .done s (.ok _) => Recorded (w.clients c).trace s
    | .done _ (.error _) => True := by
  cases hc : (w.clients c).command with
  | none =>
    have hr := (h c).resumes
    rw [Client.Resumes, hc] at hr
    obtain ⟨htrace, r, hprog⟩ := hr
    rw [hprog, htrace]
    cases r with
    | ok _ => exact fun x hx => absurd hx List.not_mem_nil
    | error _ => exact trivial
  | some command =>
    have hcall := h.call hc (Command.run_notes ⟨c, S.policy c⟩ command _ _
      fun x hx => absurd hx List.not_mem_nil) fun _ _ _ => trivial
    cases hp : (w.clients c).prog with
    | call s q k =>
      rw [hp] at hcall
      exact hcall.1
    | done s r =>
      rw [hp] at hcall
      cases r with
      | ok _ => exact hcall
      | error _ => exact trivial

end Rollforward
