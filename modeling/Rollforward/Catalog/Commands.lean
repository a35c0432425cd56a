import Rollforward.Catalog.Contract
import Rollforward.System

/-! The commands keep the contract. -/

namespace Rollforward

open Std Lib

variable [Crates] {me : String} {s₀ : RuntimeState}

section Uploads

theorem createCommit_meets (rt : SyncRuntime) (hme : rt.clientId = me)
    (contents : Map ResourceKey ResourceContent) (prepared : Prepared) (operation : PlanOperation)
    {h : List SyncEvent} {s : RuntimeState} {created : List Commit} (ht : Tracks s₀ h s)
    (ha : BatchAsk me s₀ h s created) :
    Meets me s₀ (createCommit rt contents prepared created operation)
      (fun h' s' created => Calm s₀ h s h' s' ∧ BatchAsk me s₀ h' s' created) h s := by
  rw [createCommit]
  dsimp only
  split
  · exact Comp.wp_pure.mpr ⟨.refl ht, ha⟩
  refine Meets.get ((nextCounter_meets ht).bind ?_)
  rintro h₁ s₁ _ ⟨hc₁, rfl, hn⟩
  refine ((operationChange_reads contents prepared operation).silent.meets hc₁.tracks).bind ?_
  intro h₂ s₂ change hc₂
  have hc := hc₁.trans hc₂
  cases change with
  | none => exact Comp.wp_pure.mpr ⟨hc, ha.calm hc⟩
  | some change =>
    refine (Silent.meets (.request (by exact trivial) _) hc.tracks).bind ?_
    intro h₃ s₃ now hc₃
    have hc' := hc.trans hc₃
    subst hme
    refine Comp.wp_pure.mpr ⟨hc', (ha.calm hc').append ?_ ?_⟩
    · refine batchAsk_singleton operation.key now change ⟨?_, ?_⟩ ?_
      · rw [hc'.floor]
        exact Nat.lt_succ_of_le ht.floor
      · exact hn ▸ (hc₂.trans hc₃).same.counter
      · exact fun p hp => hc'.same.extends p (RuntimeState.isSome_of_mem_heads hp)
    · exact fun y hy => Nat.lt_succ_of_le (ha.counter y hy).2

theorem afterCommit_meets (locals : List LocalResource) (tally : Tally) {commit : Commit}
    {h : List SyncEvent} {s : RuntimeState} (ht : Tracks s₀ h s) (hown : commit ∈ recordable h) :
    Meets me s₀ (afterCommit locals tally commit)
      (fun h' s' _ => Tracks s₀ h' s' ∧ (∀ x ∈ recordable h, x ∈ recordable h') ∧ Extends s s') h s := by
  refine Meets.modify (Meets.get ?_)
  have hg := Grown.insert hown (s := s)
  have ht' := ht.grow hg
  have hrest : ∀ {α : Type} (x : Sync α), Silent x → Meets me s₀ x (fun h' s' _ =>
      Tracks s₀ h' s' ∧ (∀ x ∈ recordable h, x ∈ recordable h') ∧ Extends s s') h
      { s with commits := s.commits.insert commit } := fun x hx =>
    (hx.meets ht').imp fun _ _ _ hc => ⟨hc.tracks, hc.own, hg.extends.trans hc.same.extends⟩
  dsimp only
  split
  · exact hrest _ (.bind (.modify fun _ => ⟨rfl, rfl, le_rfl⟩) fun _ => .pure _)
  · exact hrest _ (.bind (.modify fun _ => ⟨rfl, rfl, le_rfl⟩) fun _ => .pure _)
  · exact hrest _ (writeBack_silent _ _ _ _)

theorem publishBatch_meets (locals : List LocalResource) {batch : CommitBatch} (tally : Tally)
    {h : List SyncEvent} {s : RuntimeState} (ht : Tracks s₀ h s)
    (ha : BatchAsk me s₀ h s batch.commits) :
    Meets me s₀ (publishBatch locals batch tally)
      (fun h' s' _ => Tracks s₀ h' s' ∧ Extends s s') h s := by
  rw [publishBatch]
  split
  · exact Comp.wp_pure.mpr ⟨ht, fun _ hid => hid⟩
  refine Meets.bind (Q := fun h₁ s₁ _ => Tracks s₀ h₁ s₁ ∧ s₁ = s ∧
      ∀ x ∈ batch.commits, x ∈ recordable h₁) (meets_request ht ha ?_ ?_) ?_
  · intro r _ hr
    obtain rfl : r = .ok _ := hr
    exact ⟨ht.answer rfl, rfl, fun x hx => hx⟩
  · intro r e _
    exact ht.answer rfl
  rintro h₁ s₁ _ ⟨ht₁, rfl, hown⟩
  refine Meets.bind (Comp.wp_foldlM (fun xs h s _ => Tracks s₀ h s ∧
      (∀ x ∈ xs, x ∈ recordable h) ∧ Extends s₁ s) ?_ ⟨ht₁, hown, fun _ hid => hid⟩) ?_
  · rintro x xs h s tally ⟨ht, hown, hext⟩
    refine Meets.imp (afterCommit_meets locals tally ht (hown x (.head _))) ?_
    rintro h' s' _ ⟨ht', hown', hext'⟩
    exact ⟨ht', fun y hy => hown' y (hown y (.tail _ hy)), hext.trans hext'⟩
  · rintro h₂ s₂ tally ⟨ht₂, -, hext⟩
    refine (Silent.meets (.request (by exact trivial) _) ht₂).bind ?_
    intro h₃ s₃ _ hc
    exact Comp.wp_pure.mpr ⟨hc.tracks, hext.trans hc.same.extends⟩

theorem runUploads_keeps (rt : SyncRuntime) (hme : rt.clientId = me) (locals : List LocalResource)
    (plan : List PlanOperation) (tally : Tally) : Keeps me s₀ (runUploads rt locals plan tally) := by
  intro h s ht
  refine (Silent.meets (.request (by exact trivial) _) ht).bind ?_
  intro h₁ s₁ contents hc₁
  refine (Silent.meets (.foldlM (fun a x => (prepareUpload_prepares rt _ a x).silent) _ _) hc₁.tracks).bind ?_
  intro h₂ s₂ prepared hc₂
  refine (Silent.meets (.request (by exact trivial) _) hc₂.tracks).bind ?_
  intro h₃ s₃ existing hc₃
  have hc := (hc₁.trans hc₂).trans hc₃
  have hnone : BatchAsk me s₀ h₃ s₃ [] := ⟨by simp, by simp, .nil, by simp⟩
  refine Meets.bind (Comp.wp_foldlM (fun _ h' s' created => Calm s₀ h₃ s₃ h' s' ∧
      BatchAsk me s₀ h' s' created) ?_ ⟨.refl hc₃.tracks, hnone⟩) ?_
  · rintro operation _ h' s' created ⟨hcalm, ha⟩
    refine Meets.imp (createCommit_meets rt hme _ prepared operation hcalm.tracks ha) ?_
    exact fun _ _ _ hq => ⟨hcalm.trans hq.1, hq.2⟩
  · rintro h₄ s₄ commits ⟨hcalm, ha⟩
    refine (publishBatch_meets locals prepared.tally hcalm.tracks ha).imp ?_
    exact fun _ _ _ hq => ⟨hq.1, (hc.trans hcalm).same.extends.trans hq.2⟩

end Uploads

section Reconcile

theorem execute_keeps (rt : SyncRuntime) (hme : rt.clientId = me) (request : SyncRequest)
    (locals : List LocalResource) (plan : List PlanOperation) :
    Keeps me s₀ (execute rt request locals plan) := by
  refine .bind (startRun_silent request plan).keeps fun _ => .bind (runUploads_keeps rt hme locals plan _) fun tally => ?_
  exact Silent.keeps (.bind (.foldlM (runOperation_silent locals) plan tally) fun _ =>
    .bind (acknowledgePlan_silent rt plan) fun _ => .bind (.modify fun _ => ⟨rfl, rfl, le_rfl⟩) fun _ =>
    .bind (.request (by exact trivial) _) fun _ => .pure _)

theorem reconcile_keeps (rt : SyncRuntime) (hme : rt.clientId = me) (request : SyncRequest) :
    Keeps me s₀ (Rollforward.reconcile rt request) :=
  .bind (Silent.keeps (.modify fun _ => ⟨rfl, rfl, le_rfl⟩)) fun _ =>
    .bind (refreshRemote_keeps request.scopes) fun _ =>
    .bind (snapshotLargeCatalogs_keeps rt) fun _ =>
    .bind (localInventory_reads request.scopes).silent.keeps fun locals =>
    .bind (Silent.keeps (.modify fun _ => ⟨rfl, rfl, le_rfl⟩)) fun _ =>
    .bind (Silent.keeps .get) fun _ => .bind (Silent.keeps (.ofExcept _)) fun plan =>
    execute_keeps rt hme request locals plan

end Reconcile

section Resolve

variable {h : List SyncEvent} {s : RuntimeState}

theorem commitDelete_meets (rt : SyncRuntime) (hme : rt.clientId = me) (ht : Tracks s₀ h s)
    (key : ResourceKey) (current : ReplicaState) {parents : List String} (refusal : Refusal)
    (hparents : ∀ p ∈ parents, (s.commits.get? p).isSome) :
    Meets me s₀ (commitDelete rt key current parents refusal) (fun h s _ => Tracks s₀ h s) h s := by
  refine ((removeLocal_silent key current refusal).meets ht).bind ?_
  intro h₁ s₁ _ hc
  refine (publishDelete_meets rt hme hc.tracks key fun p hp =>
    hc.same.extends p (hparents p hp)).bind ?_
  rintro h₂ s₂ commit ⟨ht₂, -⟩
  exact Comp.wp_modify.mpr (ht₂.same ⟨rfl, rfl, le_rfl⟩)

theorem commitContent_meets (rt : SyncRuntime) (hme : rt.clientId = me) (ht : Tracks s₀ h s)
    (key : ResourceKey) (head : String) (change : ResourceChange) (current : ReplicaState)
    {parents : List String} (refusal : Refusal)
    (hparents : ∀ p ∈ parents, (s.commits.get? p).isSome) :
    Meets me s₀ (commitContent rt key head change current parents refusal)
      (fun h s _ => Tracks s₀ h s) h s := by
  refine ((contentForRemote_reads key (some head)).silent.meets ht).bind ?_
  intro h₁ s₁ data hc₁
  refine ((applyMutation_silent _ _ _).meets hc₁.tracks).bind ?_
  intro h₂ s₂ result hc₂
  have hc := hc₁.trans hc₂
  refine (publishBytes_meets rt hme hc.tracks key _ data fun p hp =>
    hc.same.extends p (hparents p hp)).bind ?_
  rintro h₃ s₃ commit ⟨ht₃, -⟩
  exact Comp.wp_modify.mpr (ht₃.same ⟨rfl, rfl, le_rfl⟩)

theorem commitVersion_meets (rt : SyncRuntime) (hme : rt.clientId = me) (ht : Tracks s₀ h s)
    (key : ResourceKey) (selected : Commit) (current : ReplicaState) {parents : List String}
    (delete write : Refusal) (hparents : ∀ p ∈ parents, (s.commits.get? p).isSome) :
    Meets me s₀ (commitVersion rt key selected current parents delete write)
      (fun h s _ => Tracks s₀ h s) h s := by
  unfold commitVersion
  split
  · exact commitDelete_meets rt hme ht key current delete hparents
  · exact commitContent_meets rt hme ht key _ _ current write hparents

theorem choosePrimary_meets (rt : SyncRuntime) (hme : rt.clientId = me) (ht : Tracks s₀ h s)
    (record : ConflictRecord) (current : ReplicaState) {heads : List String}
    (primary : VersionChoice) (hheads : ∀ p ∈ heads, (s.commits.get? p).isSome) :
    Meets me s₀ (choosePrimary rt record current heads primary) (fun h s _ => Tracks s₀ h s) h s := by
  cases primary with
  | ours =>
    refine ((readOne_reads record.resource).silent.meets ht).bind ?_
    intro h₁ s₁ content hc
    refine (publishBytes_meets rt hme hc.tracks record.resource _ _ fun p hp =>
      hc.same.extends p (hheads p hp)).bind ?_
    rintro h₂ s₂ commit ⟨ht₂, -⟩
    exact Comp.wp_modify.mpr (ht₂.same ⟨rfl, rfl, le_rfl⟩)
  | delete => exact commitDelete_meets rt hme ht record.resource current resolveDelete hheads
  | remote commitId =>
    simp only [choosePrimary]
    split
    · exact Comp.wp_throw.mpr ht
    · refine Meets.get ?_
      split
      · exact Comp.wp_throw.mpr ht
      · exact commitVersion_meets rt hme ht _ _ current _ _ hheads

theorem Silent.tracks {x : Sync α} (hx : Silent x) (ht : Tracks s₀ h s) :
    Meets me s₀ x (fun h s _ => Tracks s₀ h s) h s :=
  (hx.meets ht).imp fun _ _ _ hc => hc.tracks

theorem reconcile_tracks (rt : SyncRuntime) (hme : rt.clientId = me) (ht : Tracks s₀ h s)
    (request : SyncRequest) :
    Meets me s₀ (Rollforward.reconcile rt request) (fun h s _ => Tracks s₀ h s) h s :=
  (reconcile_keeps rt hme request h s ht).imp fun _ _ _ hq => hq.1

theorem resolve_tracks (rt : SyncRuntime) (hme : rt.clientId = me) (ht : Tracks s₀ h s)
    (request : ResolveConflictRequest) :
    Meets me s₀ (Rollforward.resolve rt request) (fun h s _ => Tracks s₀ h s) h s := by
  refine Meets.get ?_
  split
  · exact Comp.wp_throw.mpr ht
  dsimp only
  split
  · exact (staleConflict_silent _).tracks ht
  refine ((currentState_reads _).silent.meets ht).bind ?_
  intro h₁ s₁ current hc₁
  split
  · exact (staleConflict_silent _).tracks hc₁.tracks
  refine (Silent.meets (.foldlM (fun _ preserved => preserveCopy_silent _ preserved) _ _)
    hc₁.tracks).bind ?_
  intro h₂ s₂ _ hc₂
  have hc := hc₁.trans hc₂
  refine (choosePrimary_meets rt hme hc.tracks _ current request.primary fun p hp =>
    hc.same.extends p (RuntimeState.isSome_of_mem_heads hp)).bind ?_
  intro h₃ s₃ _ ht₃
  refine Meets.modify (Meets.bind (Silent.meets (.request (by exact trivial) _)
    (ht₃.same ⟨rfl, rfl, le_rfl⟩)) ?_)
  intro h₄ s₄ _ hc₄
  exact reconcile_tracks rt hme hc₄.tracks _

theorem rollback_tracks (rt : SyncRuntime) (hme : rt.clientId = me) (ht : Tracks s₀ h s)
    (request : RollbackRequest) :
    Meets me s₀ (Rollforward.rollback rt request) (fun h s _ => Tracks s₀ h s) h s := by
  refine Meets.get ?_
  dsimp only
  split
  · exact Comp.wp_throw.mpr ht
  refine ((currentState_reads _).silent.meets ht).bind ?_
  intro h₁ s₁ current hc
  refine (commitVersion_meets rt hme hc.tracks _ _ current _ _ fun p hp =>
    hc.same.extends p (RuntimeState.isSome_of_mem_heads hp)).bind ?_
  intro h₂ s₂ _ ht₂
  refine (Silent.meets (.request (by exact trivial) _) ht₂).bind ?_
  intro h₃ s₃ _ hc₃
  exact reconcile_tracks rt hme hc₃.tracks _

end Resolve

section Maintain

variable {h : List SyncEvent} {s : RuntimeState}

/-- Every id a survey would give up was met. -/
def Survey.Met (survey : Survey) (s₀ : RuntimeState) (h : List SyncEvent) : Prop :=
  ∀ entry ∈ survey.obsoleteByScope.toList, ∀ id ∈ entry.2, Rollforward.Met s₀ h id

theorem Survey.Met.suffix {survey : Survey} {h' : List SyncEvent} (hm : survey.Met s₀ h)
    (hh : h <:+ h') : survey.Met s₀ h' := fun entry he id hid => (hm entry he id hid).suffix hh

theorem Survey.Met.add {survey : Survey} (hm : survey.Met s₀ h) {scope : String}
    {obsolete : List String} (ho : ∀ id ∈ obsolete, Rollforward.Met s₀ h id) :
    (survey.add scope obsolete).Met s₀ h := by
  rintro ⟨sc, ids⟩ he id hid
  rw [ExtTreeMap.mem_toList_iff_getElem?_eq_some, Survey.add, Map.get?_insert] at he
  split at he
  · obtain rfl := Option.some.inj he
    rcases List.mem_append.mp hid with hid | hid
    · cases hk : survey.obsoleteByScope[scope]? with
      | none => simp [hk] at hid
      | some known =>
        rw [hk, Option.getD_some] at hid
        exact hm (scope, known) (ExtTreeMap.mem_toList_iff_getElem?_eq_some.mpr hk) id hid
    · exact ho id hid
  · exact hm (sc, ids) (ExtTreeMap.mem_toList_iff_getElem?_eq_some.mpr he) id hid

theorem isSome_of_mem_obsolete {versions : Nat} {acks : List ResourceAck} {key : ResourceKey}
    {checkpoint id : String} (hid : id ∈ s.obsolete versions acks key checkpoint) :
    (s.commits.get? id).isSome := by
  obtain ⟨x, hx, rfl⟩ := List.mem_map.mp (List.mem_filter.mp hid).1
  rw [KeyedMap.mem_def.mp (RuntimeState.mem_resourceCommits.mp hx).1]
  rfl

theorem publishCheckpoint_meets (rt : SyncRuntime) (hme : rt.clientId = me) (ht : Tracks s₀ h s)
    (key : ResourceKey) (head : String) :
    Meets me s₀ (publishCheckpoint rt key head) (fun h s _ => Tracks s₀ h s) h s := by
  refine Meets.get ?_
  split
  · exact Comp.wp_throw.mpr ht
  · next selected hsel =>
    have hparents : ∀ p ∈ [head], (s.commits.get? p).isSome := by
      simp [hsel]
    split
    · exact (publishDelete_meets rt hme ht key hparents).imp fun _ _ _ hq => hq.1
    · refine ((contentForRemote_reads key (some head)).silent.meets ht).bind ?_
      intro h₁ s₁ content hc
      exact (publishBytes_meets rt hme hc.tracks key _ content fun p hp =>
        hc.same.extends p (hparents p hp)).imp fun _ _ _ hq => hq.1

theorem startCheckpoint_meets (rt : SyncRuntime) (hme : rt.clientId = me) (ht : Tracks s₀ h s)
    (key : ResourceKey) (head : String) :
    Meets me s₀ (startCheckpoint rt key head) (fun h s _ => Tracks s₀ h s) h s := by
  refine (publishCheckpoint_meets rt hme ht key head).bind ?_
  intro h₁ s₁ commit ht₁
  exact Meets.modify (Silent.tracks (.request (by exact trivial) _)
    (ht₁.same ⟨rfl, rfl, le_rfl⟩))

theorem surveyKey_meets (rt : SyncRuntime) (hme : rt.clientId = me) (ht : Tracks s₀ h s)
    (versions : Nat) (acks : List ResourceAck) {survey : Survey} (hm : survey.Met s₀ h)
    (key : ResourceKey) :
    Meets me s₀ (surveyKey rt versions acks survey key)
      (fun h s survey => Tracks s₀ h s ∧ survey.Met s₀ h) h s := by
  refine Meets.get ?_
  split
  · exact Meets.modify (Comp.wp_pure.mpr ⟨ht.same ⟨rfl, rfl, le_rfl⟩, hm⟩)
  split
  · exact Comp.wp_pure.mpr ⟨ht, hm⟩
  split
  · refine ((startCheckpoint_meets rt hme ht key _).suffix).bind ?_
    rintro h₁ s₁ _ ⟨ht₁, hh⟩
    exact Comp.wp_pure.mpr ⟨ht₁, hm.suffix hh⟩
  split
  · exact Comp.wp_pure.mpr ⟨ht, hm⟩
  dsimp only
  split
  · exact Meets.modify (Comp.wp_pure.mpr ⟨ht.same ⟨rfl, rfl, le_rfl⟩, hm⟩)
  · exact Comp.wp_pure.mpr ⟨ht, hm.add fun id hid => ht.met (isSome_of_mem_obsolete hid)⟩

theorem compactScope_meets (rt : SyncRuntime) (ht : Tracks s₀ h s) (report : V2MaintenanceReport)
    {entry : String × List String} (hm : ∀ id ∈ entry.2, Met s₀ h id) :
    Meets me s₀ (compactScope rt report entry) (fun h s _ => Tracks s₀ h s) h s := by
  refine Meets.get (Meets.bind (Silent.meets (.request (by exact trivial) _) ht).suffix ?_)
  rintro h₁ s₁ now ⟨hc, hh⟩
  refine Meets.bind (Q := fun h₂ s₂ _ => s₂ = s₁ ∧ ∀ t, SameCatalog
      { s₁ with commits := s₁.commits.eraseAll entry.2 } t → Tracks s₀ h₂ t)
    (meets_request hc.tracks ?_ ?_ ?_) ?_
  · refine ⟨⟨entry.1, rt.snapshotGeneration now, ?_⟩, fun id hid => (hm id hid).suffix hh⟩
    exact (hc.same.compaction entry.1 _ entry.2).symm
  · intro r _ hr
    obtain rfl : r = .ok _ := hr
    exact ⟨rfl, fun t hs => ⟨hs.grown, hc.tracks.floor.trans hs.counter⟩⟩
  · intro r e hr
    obtain rfl : r = .error e := hr
    exact hc.tracks.answer rfl
  · rintro h₂ _ _ ⟨rfl, ht₂⟩
    exact Meets.modify (Comp.wp_pure.mpr (ht₂ _ ⟨rfl, rfl, le_rfl⟩))

theorem maintain_tracks (rt : SyncRuntime) (hme : rt.clientId = me) (ht : Tracks s₀ h s)
    (request : MaintenanceRequest) :
    Meets me s₀ (Rollforward.maintain rt request) (fun h s _ => Tracks s₀ h s) h s := by
  unfold maintain
  split
  · exact Comp.wp_pure.mpr ht
  refine (refreshRemote_keeps [] h s ht).bind ?_
  rintro h₁ s₁ _ ⟨ht₁, -⟩
  refine Meets.get (Meets.bind (Silent.meets (.request (by exact trivial) _) ht₁) ?_)
  intro h₂ s₂ acks hc₂
  refine Meets.bind (Comp.wp_foldlM (fun _ h s survey => Tracks s₀ h s ∧ survey.Met s₀ h) ?_
    ⟨hc₂.tracks, ?_⟩) ?_
  · rintro key _ h s survey ⟨ht, hm⟩
    exact surveyKey_meets rt hme ht _ acks hm key
  · rintro ⟨scope, ids⟩ he
    rw [ExtTreeMap.mem_toList_iff_getElem?_eq_some] at he
    simp at he
  rintro h₃ s₃ survey ⟨ht₃, hm⟩
  refine Meets.bind (Comp.wp_foldlM (fun (entries : List (String × List String)) h s _ =>
      Tracks s₀ h s ∧ ∀ entry ∈ entries, ∀ id ∈ entry.2, Met s₀ h id) ?_ ⟨ht₃, hm⟩) ?_
  · rintro entry entries h s report ⟨ht, hm⟩
    refine Meets.imp (compactScope_meets rt ht report (hm entry (.head _))).suffix ?_
    rintro h' s' _ ⟨ht', hh⟩
    exact ⟨ht', fun e he id hid => (hm e (.tail _ he) id hid).suffix hh⟩
  rintro h₄ s₄ report ⟨ht₄, -⟩
  exact Silent.tracks (.bind (collectPacks_silent report) fun _ =>
    .bind (.request (by exact trivial) _) fun _ => .pure _) ht₄

end Maintain

/-- Every command, from any memory, keeps to the contract whatever it is answered. -/
theorem Command.run_tracks (rt : SyncRuntime) (command : Command) (s : RuntimeState) :
    Meets rt.clientId s (command.run rt) (fun h s' _ => Tracks s h s') [] s := by
  have ht := Tracks.start s
  cases command with
  | reconcile request =>
    exact (reconcile_tracks rt rfl ht request).bind fun _ _ _ ht => Comp.wp_pure.mpr ht
  | resolve request =>
    exact (resolve_tracks rt rfl ht request).bind fun _ _ _ ht => Comp.wp_pure.mpr ht
  | rollback request =>
    exact (rollback_tracks rt rfl ht request).bind fun _ _ _ ht => Comp.wp_pure.mpr ht
  | maintain request =>
    exact (maintain_tracks rt rfl ht request).bind fun _ _ _ ht => Comp.wp_pure.mpr ht
  | retireClient clientId =>
    exact Silent.tracks (.bind (.modify fun _ => ⟨rfl, rfl, le_rfl⟩) fun _ =>
      .request (by exact trivial) _) ht

end Rollforward
