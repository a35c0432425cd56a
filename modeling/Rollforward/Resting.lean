import Rollforward.Repeats

/-! A binary resource that a client holds as its heads have it: whatever others publish of it since,
a `reconcile` takes it over and publishes nothing. -/

namespace Rollforward

open Std Lib

section Rest

variable [Crates] {key : ResourceKey} {site site' : Site} {s s' : RuntimeState}

/-- A resource as its heads have it.  Without a version of it no baseline shows one. -/
structure Rested (key : ResourceKey) (site : Site) (s : RuntimeState) : Prop where
  agrees : Agrees key site s
  based : s.remoteState key = .ok .missing → ∀ contentId version heads,
    s.baselineFor key ≠ some (.present contentId version heads)

/-- Others may have published since: what is planned then is no upload, and a conflict only where
the heads are at odds. -/
theorem Rested.plans (h : Rested key site s) (hfile : site'.files[key]? = site.files[key]?)
    (hbaseline : s'.baselines.get? key.encoded = s.baselines.get? key.encoded)
    (hknown : ∀ contentId size heads, s.remoteState key = .ok (.present contentId size heads) →
      s'.remoteState key ≠ .ok .missing)
    {operation : PlanOperation} (hplans : Plans key site' s' operation) :
    operation.isUpload = false ∧ ∀ record, operation = .conflict record → record.kind = .remoteFork := by
  obtain ⟨⟨remote, hremote, hheld⟩, hbased⟩ := h
  obtain ⟨remote', hremote', rfl⟩ := hplans
  have hbase : s'.baselineFor key = s.baselineFor key := by
    rw [RuntimeState.baselineFor, RuntimeState.baselineFor, hbaseline]
  have hstate : site'.files.stateOf key = site.files.stateOf key := by
    rw [Files.stateOf, Files.stateOf, hfile]
  rw [hbase, hstate]
  cases remote with
  | forked => exact hheld.elim
  | present contentId size heads =>
    obtain ⟨data, versionToken, hown, rfl, hentry⟩ := hheld
    have hsaved : s.baselineFor key = some (.present (blake3 data) versionToken heads) := by
      simp [RuntimeState.baselineFor, hentry]
    rw [Files.stateOf_of_data hown, hsaved]
    cases remote' with
    | missing => exact absurd hremote' (hknown _ _ _ hremote)
    | present contentId' size' heads' =>
      by_cases hsame : blake3 data = contentId' <;> simp [planResource, hsame, PlanOperation.isUpload]
    | deleted => simp [planResource, PlanOperation.isUpload]
    | forked => exact ⟨rfl, fun _ he => by cases he; rfl⟩
  | missing | deleted =>
    have hnone : site.files[key]?.bind File.data = none := by
      first | exact hheld | exact hheld.1
    have habsent := Files.isAbsent_stateOf hnone
    have hunbased : ∀ contentId version heads,
        s.baselineFor key ≠ some (.present contentId version heads) := by
      first
      | exact hbased hremote
      | intro _ _ _ hb
        simp [RuntimeState.baselineFor, hheld.2] at hb
    cases hlocal : site.files.stateOf key with
    | present =>
      rw [hlocal] at habsent
      cases habsent
    | missing | deleted =>
      cases hb : s.baselineFor key with
      | none => cases remote' <;> exact ⟨rfl, fun _ he => by cases he <;> rfl⟩
      | some baseline =>
        cases baseline with
        | present => exact absurd hb (hunbased _ _ _)
        | deleted => cases remote' <;> exact ⟨rfl, fun _ he => by cases he <;> rfl⟩

/-- Only heads at odds make a conflict of this kind. -/
theorem planResource_forked {localState : ReplicaState} {baseline : Option BaselineState}
    {remote : RemoteResourceState} {record : ConflictRecord}
    (h : planResource key localState baseline remote = .conflict record)
    (hkind : record.kind = .remoteFork) : ∃ heads, remote = .forked heads := by
  simp only [planResource] at h
  split at h
  · exact ⟨_, rfl⟩
  all_goals
    exfalso
    try split_ifs at h
    all_goals
      cases h
      try cases hkind

end Rest

section Withholding

variable [Crates] {S : Setting} {key : ResourceKey} {realm : Realm} {s : RuntimeState}
variable {locals : List LocalResource} {plan : List PlanOperation}

/-- Nothing new of the resource is published. -/
def Realm.Withholds (key : ResourceKey) (realm realm' : Realm) : Prop :=
  ∀ x ∈ realm'.published, x.resource = key → x ∈ realm.published

theorem Realm.Withholds.trans {realm' realm'' : Realm} (h : realm.Withholds key realm')
    (h' : realm'.Withholds key realm'') : realm.Withholds key realm'' :=
  fun x hx hres => h x (h' x hx hres) hres

theorem Realm.Serves.withholds {realm' : Realm} {e : SyncEvent} (h : realm.Serves S e realm')
    (hown : ∀ x ∈ ownCommits [e], x.resource ≠ key) : realm.Withholds key realm' := by
  intro x hx hres
  rw [h.2.2] at hx
  exact (List.mem_append.mp hx).resolve_right fun hx => hown x hx hres

theorem Comp.Within.withholds (key : ResourceKey) {R : RuntimeState → RuntimeState → Prop} {x : Sync α}
    [IsPreorder RuntimeState R] (hx : Comp.Within NoBatch R x) :
    Concludes S x (fun realm' s' _ => realm.Withholds key realm' ∧ R s s') realm s := by
  refine Comp.wp_mono (hx.wp (J := fun realm' s' => realm.Withholds key realm' ∧ R s s') ?_ ?_ ?_
    ⟨fun _ hx _ => hx, refl_of R s⟩) (fun _ _ _ _ => trivial) fun _ _ _ hj => hj
  · exact fun _ _ _ hj hr => ⟨hj.1, trans_of R hj.2 hr⟩
  · exact fun _ _ _ _ _ => trivial
  · intro realm₁ t q r realm₂ hj hq hserves
    refine ⟨hj.1.trans (hserves.withholds fun x hx => ?_), hj.2⟩
    rw [NoBatch.ownCommits hq] at hx
    cases hx

theorem Reads.withholds (key : ResourceKey) {x : Sync α} (hx : Reads x) :
    Concludes S x (fun realm' _ _ => realm.Withholds key realm') realm s :=
  (Comp.Within.withholds key (hx.mono (fun _ hq => hq.quiet.noBatch) fun _ _ e => e)).imp
    fun _ _ _ h => h.1

theorem Prepares.withholds (key : ResourceKey) {x : Sync α} (hx : Prepares x) :
    Concludes S x (fun realm' _ _ => realm.Withholds key realm') realm s :=
  (Comp.Within.withholds key (hx.mono (fun _ hq => hq.quiet.noBatch) fun _ _ hs => hs)).imp
    fun _ _ _ h => h.1

theorem Silent.withholds (key : ResourceKey) {x : Sync α} (hx : Silent x) :
    Concludes S x (fun realm' _ _ => realm.Withholds key realm') realm s :=
  (Comp.Within.withholds key (hx.mono (fun _ hq => hq.noBatch) fun _ _ hs => hs)).imp
    fun _ _ _ h => h.1

theorem afterCommit_quiet (locals : List LocalResource) (tally : Tally) (x : Commit) :
    Comp.Within Quiet Anyhow (afterCommit locals tally x) := by
  refine .bind (.modify fun _ => trivial) fun _ => .bind .get fun state => ?_
  cases x.change with
  | delete => exact .bind (.modify fun _ => trivial) fun _ => .pure _
  | binarySnapshot => exact .bind (.modify fun _ => trivial) fun _ => .pure _
  | textDelta => exact (writeBack_silent _ _ _ _).mono (fun _ hq => hq) fun _ _ _ => trivial

/-- What follows a batch. -/
theorem recordBatch_quiet (locals : List LocalResource) (batch : CommitBatch) (tally : Tally) :
    Comp.Within Quiet Anyhow (do
      let tally ← batch.commits.foldlM (afterCommit locals) tally
      Sync.saveRuntimeState
      return tally : Sync Tally) :=
  .bind (.foldlM (fun tally x => afterCommit_quiet locals tally x) _ _) fun _ =>
    .bind (.request (by exact trivial) _) fun _ => .pure _

theorem publishBatch_withholds {batch : CommitBatch} (hbatch : ∀ x ∈ batch.commits, x.resource ≠ key)
    (tally : Tally) : Concludes S (publishBatch locals batch tally)
      (fun realm' _ _ => realm.Withholds key realm') realm s := by
  rw [publishBatch]
  refine Comp.wp_ite.mpr ⟨fun _ => fun _ hx _ => hx, fun _ => ?_⟩
  refine Concludes.bind (Q := fun realm' _ _ => realm.Withholds key realm') (Concludes.request ?_) ?_
  · intro r _ realm' hserves hr
    obtain rfl : r = .ok () := hr
    exact hserves.withholds fun x hx => hbatch x (by simpa [ownCommits] using hx)
  intro realm₁ s₁ _ h₁
  have hrest : Comp.Within NoBatch Anyhow _ :=
    (recordBatch_quiet locals batch tally).mono (fun _ hq => hq.noBatch) fun _ _ h => h
  exact (Comp.Within.withholds key hrest).imp fun _ _ _ h => h₁.trans h.1

theorem runUploads_withholds (hplan : ∀ operation ∈ plan, operation.key = key →
    operation.isUpload = false) (rt : SyncRuntime) (tally : Tally) :
    Concludes S (runUploads rt locals plan tally)
      (fun realm' _ _ => realm.Withholds key realm') realm s := by
  have hne : ∀ operation ∈ plan.filter PlanOperation.isUpload, operation.key ≠ key := by
    intro operation hop hkey
    obtain ⟨hmem, hup⟩ := List.mem_filter.mp hop
    rw [hplan operation hmem hkey] at hup
    cases hup
  rw [runUploads]
  have hread : Reads (Sync.readResources (uploadKeys (plan.filter PlanOperation.isUpload))) :=
    .request (by exact trivial) _
  refine Concludes.bind (hread.withholds key) fun realm₁ s₁ contents h₁ => ?_
  have hprepare : Prepares ((plan.filter PlanOperation.isUpload).foldlM
      (prepareUpload rt (contentMap contents)) { tally }) :=
    .foldlM (fun prepared operation => prepareUpload_prepares rt _ prepared operation) _ _
  refine Concludes.bind (hprepare.withholds key) fun realm₂ s₂ prepared h₂ => ?_
  refine Concludes.bind (Q := fun realm' _ _ => realm₂.Withholds key realm') ?_
    fun realm₃ s₃ existing h₃ => ?_
  · exact Reads.withholds key (.request (by exact trivial) _)
  have hcreated : Concludes S ((plan.filter PlanOperation.isUpload).foldlM
      (createCommit rt (contentMap contents) prepared) [])
      (fun _ _ created => ∀ x ∈ created, x.resource ≠ key) realm₃ s₃ := by
    refine Comp.wp_imp (Comp.wp_foldlM (fun rest _ _ created =>
      (∀ x ∈ created, x.resource ≠ key) ∧ ∀ operation ∈ rest, operation.key ≠ key) ?_
      ⟨by simp, hne⟩) fun _ _ _ h => h.1
    rintro operation rest realm' s' created ⟨hcreated, hrest⟩
    obtain ⟨hfirst, hrest⟩ := List.forall_mem_cons.mp hrest
    refine Comp.wp_imp (createCommit_made rt _ prepared created operation realm' s') ?_
    intro _ _ created' hmade
    refine ⟨fun x hx => ?_, hrest⟩
    rcases hmade x hx with hold | ⟨-, hres⟩
    · exact hcreated x hold
    · exact hres ▸ hfirst
  have hcreate : Prepares ((plan.filter PlanOperation.isUpload).foldlM
      (createCommit rt (contentMap contents) prepared) []) :=
    .foldlM (fun created operation => createCommit_prepares rt _ prepared created operation) _ _
  refine Concludes.bind ((hcreate.withholds key).and hcreated) fun realm₄ s₄ created h₄ => ?_
  exact (publishBatch_withholds h₄.2 _).imp fun _ _ _ h₅ =>
    ((h₁.trans h₂).trans (h₃.trans h₄.1)).trans h₅

theorem execute_withholds (hplan : ∀ operation ∈ plan, operation.key = key →
    operation.isUpload = false) (rt : SyncRuntime) (request : SyncRequest) :
    Concludes S (execute rt request locals plan)
      (fun realm' _ _ => realm.Withholds key realm') realm s := by
  rw [execute]
  refine Concludes.bind ((startRun_silent request plan).withholds key) fun realm₁ s₁ _ h₁ => ?_
  refine Concludes.bind (runUploads_withholds hplan rt _) fun realm₂ s₂ tally h₂ => ?_
  have hrest : Silent (do
      let tally ← plan.foldlM (runOperation locals) tally
      acknowledgePlan rt plan
      Comp.modify fun state => { state with activeRun := none }
      Sync.saveRuntimeState
      return { tally.report with scopes := reportScopes request plan tally.failures } :
        Sync SyncReport) :=
    .bind (.foldlM (runOperation_silent locals) plan tally) fun _ =>
      .bind (acknowledgePlan_silent rt plan) fun _ =>
      .bind (.modify fun _ => ⟨rfl, rfl, le_rfl⟩) fun _ =>
      .bind (.request (by exact trivial) _) fun _ => .pure _
  exact (hrest.withholds key).imp fun _ _ _ h₃ => (h₁.trans h₂).trans h₃

end Withholding

section Heads

variable [Crates] {S : Setting} {key : ResourceKey} {realm : Realm} {s : RuntimeState}

/-- A resource with a commit is not missing. -/
theorem Realm.Hosts.not_missing (h : realm.Hosts S s) {x : Commit} (hx : x ∈ s.commits)
    (hres : x.resource = key) : s.remoteState key ≠ .ok .missing := by
  intro hmissing
  obtain ⟨y, hy, hyres, -⟩ := h.lawful.archive.grounded.exists_head h.held hx
  exact (RuntimeState.shows_of_remoteState hmissing).no_head hy (hyres.trans hres)

namespace RuntimeState

theorem Shows.exists_head {remote : RemoteResourceState} (h : s.Shows key remote)
    (hsome : remote.contentId ≠ none) : ∃ y, IsHead Commit.Over s.held y ∧ y.resource = key := by
  have hheads : s.heads key ≠ [] := by
    cases h with
    | missing | deleted | forked => exact absurd rfl hsome
    | text some | snapshot some => exact some
  obtain ⟨id, hid⟩ := List.exists_mem_of_ne_nil _ hheads
  obtain ⟨y, hy, hres, -⟩ := mem_heads_iff_isHead.mp hid
  exact ⟨y, hy, hres⟩

end RuntimeState

/-- What is present is not missing later on. -/
theorem Realm.Hosts.present_later {realm' : Realm} {t : RuntimeState} (h : realm.Hosts S s)
    (ht : realm'.Hosts S t) (hcol : Collisionless)
    (hpublished : ∀ x ∈ realm.published, x ∈ realm'.published) (hgrown : Extends s t)
    {contentId : String} {size : Nat} {heads : List String}
    (hremote : s.remoteState key = .ok (.present contentId size heads)) :
    t.remoteState key ≠ .ok .missing := by
  obtain ⟨y, hy, hres⟩ := (RuntimeState.shows_of_remoteState hremote).exists_head
    (Option.some_ne_none _)
  have hsome : (s.commits.get? y.id).isSome = true := by
    rw [KeyedMap.mem_def.mp hy.1]
    rfl
  obtain ⟨x, hx⟩ := Option.isSome_iff_exists.mp (hgrown y.id hsome)
  have hmem := KeyedMap.mem_of_get? hx
  obtain rfl : x = y := ht.lawful.ids hcol y (hpublished y (h.held y hy.1)) x (ht.held x hmem)
    (KeyedMap.key_of_get? hx)
  exact ht.not_missing hmem hres

end Heads

section Reconcile

variable [Crates] {S : Setting} {key : ResourceKey} {realm : Realm} {s : RuntimeState}

theorem refreshRemote_extends (scopes : List String) :
    Comp.Within Still Extends (refreshRemote scopes) := by
  refine .bind .get fun _ => .bind (.request trivial _) fun _ => .bind (.modify fun _ _ h => h)
    fun _ => .bind .get fun _ => .bind (.request trivial _) fun _ => .modify fun _ _ hid => ?_
  exact KeyedMap.isSome_get?_insertAll hid

/-- What rests is not published again, whatever others have published of it by now: a `reconcile`
that reports no failure takes that over, unless the heads are at odds. -/
theorem reconcile_rests (hcol : Collisionless) (hcdc : FastcdcTiles) (hhosts : realm.Hosts S s)
    (hkind : S.kindOf key = .binary) (hrested : Rested key realm.site s) (rt : SyncRuntime)
    {request : SyncRequest} (hscope : key.scopeId ∈ request.scopes) (hown : key.Own request.scopes)
    (hfew : s.FewEvents realm.site.remote request.scopes) :
    Concludes S (Rollforward.reconcile rt request) (fun realm' s' report =>
      realm.Withholds key realm' ∧ (0 < report.failures ∨ Agrees key realm'.site s' ∨
        ∃ heads, s'.remoteState key = .ok (.forked heads))) realm s := by
  have hin : inScopes request.scopes key.scopeId = true := by
    rw [inScopes, decide_eq_true hscope, Bool.or_true]
  rw [Rollforward.reconcile]
  refine Comp.wp_bind.mpr (Comp.wp_modify.mpr ?_)
  have hcleared : realm.Hosts S { s with activeRun := none } := ⟨hhosts.lawful, hhosts.held⟩
  have hplanning : Concludes S (refreshRemote request.scopes) (fun realm' s' _ =>
      Planning S key realm { s with activeRun := none } realm' s') realm _ :=
    refreshRemote_planning hcleared request.scopes
  have hrefresh : Concludes S (refreshRemote request.scopes) _ realm _ :=
    (Comp.Within.still hhosts.lawful (refreshRemote_extends request.scopes)).and
      (refreshRemote_abreast (s := { s with activeRun := none }) hfew)
  refine (hplanning.and hrefresh).bind ?_
  rintro realm₁ s₁ _ ⟨h₁, ⟨hstays, hgrown⟩, -, hdue, -⟩
  have hvouched₁ : realm₁.site.files.Vouched s₁ key := h₁.vouched hrested.agrees.vouched
  have hknown : ∀ contentId size heads, s.remoteState key = .ok (.present contentId size heads) →
      s₁.remoteState key ≠ .ok .missing :=
    fun _ _ _ => hhosts.present_later h₁.hosts hcol hstays.follows.published hgrown
  refine Concludes.bind (Q := fun realm' s' _ => realm' = realm₁ ∧ s' = s₁) ?_ ?_
  · refine Comp.wp_bind.mpr (Comp.wp_get.mpr ?_)
    rw [hdue]
    exact ⟨rfl, rfl⟩
  rintro realm₁ s₁ _ ⟨rfl, rfl⟩
  have hinventory : Concludes S (localInventory request.scopes) _ realm₁ s₁ :=
    ((localInventory_returns _).concludes h₁.hosts.lawful).and
      ((localInventory_reads _).withholds key)
  refine hinventory.bind ?_
  rintro realm₂ s₂ locals ⟨⟨⟨hsite, rfl, hinv⟩, hfollows⟩, hwithheld⟩
  rw [← hsite] at hvouched₁ hinv
  refine Comp.wp_bind.mpr (Comp.wp_modify.mpr (Comp.wp_bind.mpr (Comp.wp_get.mpr
    (Comp.wp_bind.mpr (Comp.wp_ofExcept.mpr ⟨fun plan hbuilt => ?_, fun _ _ => trivial⟩)))))
  have hvouched₂ : realm₂.site.files.Vouched (s₂.recordKinds locals) key := hvouched₁
  have hinv₂ : Inventory S realm₂.site.files request.scopes (s₂.recordKinds locals) locals :=
    ⟨hinv.shown, hinv.complete⟩
  have hhosts₂ : realm₂.Hosts S (s₂.recordKinds locals) :=
    ⟨hfollows.lawful, fun x hx => hfollows.published x (h₁.hosts.held x hx)⟩
  have hplans : ∀ operation ∈ plan, operation.key = key →
      Plans key realm₂.site (s₂.recordKinds locals) operation := by
    intro operation hop e
    subst e
    exact plans_of_mem hbuilt hinv₂ hop hkind hvouched₂
  have hcalm : ∀ operation ∈ plan, operation.key = key → operation.isUpload = false ∧
      ∀ record, operation = .conflict record → record.kind = .remoteFork := by
    intro operation hop e
    refine hrested.plans ?_ h₁.baseline hknown (hplans operation hop e)
    rw [hsite, h₁.file]
  have hname : ∀ operation ∈ plan, operation.key.encoded = key.encoded → operation.key = key :=
    fun operation hop => hown _ (mem_buildPlan_scoped hbuilt (fun r hr => (hinv.shown r hr).1) hop).1
  have hsettles : Concludes S (execute rt request locals plan) _ realm₂ (s₂.recordKinds locals) :=
    execute_settles hcol hcdc hhosts₂ hkind (buildPlan_nodup hbuilt) hname
      (hinv₂.stateOf hin hvouched₂) hplans (fun hnone => agrees_of_unplanned hbuilt hinv₂ hin hnone)
      hvouched₂ rt request
  refine Concludes.imp (hsettles.and (execute_withholds (fun operation hop e =>
    (hcalm operation hop e).1) rt request)) fun realm' s' report h => ⟨?_, h.1.imp_right ?_⟩
  · refine Realm.Withholds.trans (fun x hx _ => ?_) (hwithheld.trans h.2)
    rwa [hstays.published] at hx
  · rintro (⟨hagrees, -⟩ | ⟨-, record, hmem, hres, hplanned⟩)
    · exact Or.inl hagrees
    · obtain ⟨remote, hremote, he⟩ := hplanned
      obtain ⟨heads, rfl⟩ := planResource_forked he.symm ((hcalm _ hmem hres).2 record rfl)
      exact Or.inr ⟨heads, hremote⟩

end Reconcile

end Rollforward
