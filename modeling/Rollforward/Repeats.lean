import Rollforward.Outcomes

/-! A `reconcile` right after a `reconcile`: nothing is left to be moved. -/

namespace Rollforward

open Std Lib

section Abreast

variable [Crates] {S : Setting} {realm : Realm} {s : RuntimeState} {scopes : List String}
variable {site : Site} {pending : List Commit}

/-- Of the scopes everything is held that a scan would show, but for `pending`. -/
def Abreast (scopes : List String) (pending : List Commit) (remote : Remote) (s : RuntimeState) :
    Prop :=
  ∀ event, remote.Lists scopes (collectCursors s.cursors) event →
    inScopes scopes event.resource.scopeId = true →
    (s.commits.get? event.commitId).isSome = true ∨ ∃ x ∈ pending, x.event = event

theorem Abreast.scan {remote : Remote} (h : Abreast scopes [] remote s) (wf : remote.WellFormed)
    {delta : CatalogDelta} (hscan : remote.scanCatalog ⟨scopes, s.cursors⟩ = .ok delta) :
    ∀ event ∈ delta.events, (s.commits.get? event.commitId).isSome = true := by
  intro event he
  obtain ⟨hlists, hin⟩ := (wf.mem_scan_events hscan).mp he
  exact (h event hlists hin).resolve_right fun ⟨_, hx, _⟩ => List.not_mem_nil hx

/-- The catalog and the cursors are the same, and no commit is forgotten. -/
structure KeepsAbreast (s t : RuntimeState) : Prop where
  cursors : t.cursors = s.cursors
  commits : ∀ id, (s.commits.get? id).isSome = true → (t.commits.get? id).isSome = true

instance : IsPreorder RuntimeState KeepsAbreast where
  refl _ := ⟨rfl, fun _ h => h⟩
  trans _ _ _ hst htu := ⟨htu.cursors.trans hst.cursors, fun id h => htu.commits id (hst.commits id h)⟩

theorem Abreast.keeps {remote : Remote} {t : RuntimeState} (h : Abreast scopes pending remote s)
    (ht : KeepsAbreast s t) : Abreast scopes pending remote t := by
  intro event hlists hin
  rw [ht.cursors] at hlists
  exact (h event hlists hin).imp_left (ht.commits _)

theorem Remote.Lists.within {remote remote' : Remote} {cursors : Map Lane Nat} {event : CatalogEvent}
    (h : remote'.Lists scopes cursors event) (hsegments : remote'.segments = remote.segments)
    (hsnapshots : remote'.snapshots = remote.snapshots) : remote.Lists scopes cursors event := by
  have hcurrent : ∀ scope, remote'.current scope = remote.current scope := fun scope => by
    rw [Remote.current, Remote.current, hsnapshots]
  cases h with
  | snapshot current scope listed unread =>
    exact .snapshot (hcurrent _ ▸ current) scope listed unread
  | segment stored listed unread beyond =>
    refine .segment (hsegments ▸ stored) listed unread ?_
    rwa [Remote.covered, hcurrent] at beyond

/-- Raised cursors are shown less. -/
theorem Remote.Lists.mono {remote : Remote} {cursors cursors' : Map Lane Nat}
    {event : CatalogEvent} (h : remote.Lists scopes cursors' event)
    (hle : reached cursors event.lane ≤ reached cursors' event.lane) :
    remote.Lists scopes cursors event := by
  cases h with
  | snapshot current scope listed unread => exact .snapshot current scope listed (hle.trans_lt unread)
  | segment stored listed unread beyond => exact .segment stored listed (hle.trans_lt unread) beyond

/-- A batch shows its own commits, and what was shown before. -/
theorem Abreast.commitBatch {remote : Remote} (h : Abreast scopes [] remote s) (batch : CommitBatch) :
    Abreast scopes batch.commits (remote.commitBatch batch) s := by
  intro event hlists hin
  have hold : remote.Lists scopes (collectCursors s.cursors) event →
      (s.commits.get? event.commitId).isSome = true := fun hlists =>
    (h event hlists hin).resolve_right fun ⟨_, hx, _⟩ => List.not_mem_nil hx
  cases hlists with
  | snapshot current scope listed unread => exact Or.inl (hold (.snapshot current scope listed unread))
  | segment stored listed unread beyond =>
    rcases Remote.mem_segments_commitBatch.mp stored with stored | stored
    · exact Or.inl (hold (.segment stored listed unread beyond))
    · obtain ⟨⟨x, hx, he⟩, -⟩ := (Remote.batchSegment_spec stored).1 event listed
      exact Or.inr ⟨x, hx, he.symm⟩

/-- No scope has seen enough events for a snapshot of its catalog. -/
def RuntimeState.FewEvents (s : RuntimeState) (remote : Remote) (scopes : List String) : Prop :=
  ∀ delta ∈ (remote.scanCatalog ⟨scopes, s.cursors⟩).toOption, (s.countEvents delta).dueScopes = []

instance (s : RuntimeState) (remote : Remote) (scopes : List String) :
    Decidable (s.FewEvents remote scopes) :=
  inferInstanceAs (Decidable (∀ delta ∈ (remote.scanCatalog ⟨scopes, s.cursors⟩).toOption,
    (s.countEvents delta).dueScopes = []))

/-- A refresh brings everything that it is shown. -/
theorem refreshRemote_abreast (hfew : s.FewEvents realm.site.remote scopes) :
    Concludes S (refreshRemote scopes) (fun realm' s' _ => realm'.Lawful S ∧ s'.dueScopes = [] ∧
      Abreast scopes [] realm'.site.remote s') realm s := by
  refine Comp.wp_bind.mpr (Comp.wp_get.mpr ?_)
  refine Concludes.bind (Q := fun realm' s' delta => realm'.Lawful S ∧ s' = s ∧
    (s.countEvents delta).dueScopes = [] ∧
    realm'.site.remote.scanCatalog ⟨scopes, s.cursors⟩ = .ok delta) (Concludes.request ?_) ?_
  · intro r delta realm' hserves hr
    obtain rfl : r = .ok delta := hr
    have hscan := hserves.1.2
    refine ⟨hserves.2.1, rfl, hfew delta ?_, ?_⟩
    · rw [hscan]
      rfl
    · rw [hserves.1.1, hscan]
  rintro realm₁ s delta ⟨hlawful₁, rfl, hdue, hscan⟩
  refine Comp.wp_bind.mpr (Comp.wp_modify.mpr (Comp.wp_bind.mpr (Comp.wp_get.mpr ?_)))
  refine Concludes.bind (Q := fun realm' s' commits => realm'.Lawful S ∧ s' = s.countEvents delta ∧
    realm'.site.remote = realm₁.site.remote ∧
    realm₁.site.remote.loadCommits ((s.countEvents delta).missingIds delta) = .ok commits)
    (Concludes.request ?_) ?_
  · intro r commits realm' hserves hr
    obtain rfl : r = .ok commits := hr
    exact ⟨hserves.2.1, rfl, by rw [hserves.1.1], hserves.1.2⟩
  rintro realm₂ _ commits ⟨hlawful₂, rfl, hremote, hload⟩
  refine Comp.wp_modify.mpr ⟨hlawful₂, hdue, fun event hlists hin => Or.inl ?_⟩
  rw [hremote] at hlists
  have hshown : event ∈ delta.events := by
    refine (hlawful₁.wellFormed.mem_scan_events hscan).mpr ⟨hlists.mono ?_, hin⟩
    rw [RuntimeState.absorb, reached_collect_cursorList]
    exact reached_le_raiseCursors _ _ _
  by_cases hheld : (s.commits.get? event.commitId).isSome = true
  · exact KeyedMap.isSome_get?_insertAll hheld
  · have hmissing : event.commitId ∈ (s.countEvents delta).missingIds delta := by
      refine List.mem_map.mpr ⟨event, List.mem_filter.mpr ⟨hshown, ?_⟩, rfl⟩
      exact Option.isNone_iff_eq_none.mpr (Option.not_isSome_iff_eq_none.mp hheld)
    obtain ⟨x, hx, hid, -⟩ := (mem_loadCommits hload).2 _ hmissing
    rw [← hid]
    exact KeyedMap.isSome_get?_insertAll_of_mem hx

theorem Abreast.record {remote : Remote} {x : Commit} (h : Abreast scopes (x :: pending) remote s) :
    Abreast scopes pending remote { s with commits := s.commits.insert x } := by
  intro event hlists hin
  have hinserted : ∀ id, (s.commits.get? id).isSome = true ∨ x.id = id →
      ((s.commits.insert x).get? id).isSome = true := by
    intro id hid
    rw [KeyedMap.get?_insert]
    by_cases he : x.id = id
    · rw [if_pos he]
      rfl
    · rw [if_neg he]
      exact hid.resolve_right he
  rcases h event hlists hin with hheld | ⟨y, hy, rfl⟩
  · exact Or.inl (hinserted _ (Or.inl hheld))
  · rcases List.mem_cons.mp hy with rfl | hy
    · exact Or.inl (hinserted _ (Or.inr rfl))
    · exact Or.inr ⟨y, hy, rfl⟩

theorem Site.Serves.quiet {e : SyncEvent} {site' : Site} (h : site.Serves S e site')
    (hq : Quiet e.req) : site'.remote.segments = site.remote.segments ∧
      site'.remote.snapshots = site.remote.snapshots := by
  unfold Site.Serves at h
  split at h
  all_goals first
    | exact hq.elim
    | cases h; exact ⟨rfl, rfl⟩
    | rw [h.1]; exact ⟨rfl, rfl⟩

theorem Silent.abreast {x : Sync α} (hx : Silent x) (h : Abreast scopes pending site.remote s) :
    Returns S x (fun site' s' _ => Abreast scopes pending site'.remote s') site s := by
  refine Comp.wp_mono (hx.wp (J := fun site' s' => Abreast scopes pending site'.remote s')
    ?_ ?_ ?_ h) (fun _ _ _ _ => trivial) fun _ _ _ hj => hj
  · exact fun _ _ _ hj hs => hj.keeps ⟨hs.cursors, fun id hid => hs.commits ▸ hid⟩
  · exact fun _ _ _ _ _ => trivial
  · intro _ _ _ _ _ hj hq hserves event hlists
    obtain ⟨hsegments, hsnapshots⟩ := hserves.quiet hq
    exact hj event (hlists.within hsegments hsnapshots)

theorem afterCommit_abreast {x : Commit} (h : Abreast scopes (x :: pending) site.remote s)
    (locals : List LocalResource) (tally : Tally) : Returns S (afterCommit locals tally x)
      (fun site' s' _ => Abreast scopes pending site'.remote s') site s := by
  refine Comp.wp_bind.mpr (Comp.wp_modify.mpr (Comp.wp_bind.mpr (Comp.wp_get.mpr ?_)))
  have hmoved : ∀ {f : RuntimeState → RuntimeState} {report : SyncReport},
      (∀ s, SameCatalog s (f s)) → Silent (do
        Comp.modify f
        return { tally with report } : Sync Tally) :=
    fun hf => .bind (.modify hf) fun _ => .pure _
  cases x.change with
  | delete => exact (hmoved fun _ => ⟨rfl, rfl, le_rfl⟩).abreast h.record
  | binarySnapshot => exact (hmoved fun _ => ⟨rfl, rfl, le_rfl⟩).abreast h.record
  | textDelta => exact (writeBack_silent _ _ _ _).abreast h.record

theorem publishBatch_abreast (h : Abreast scopes [] site.remote s) (locals : List LocalResource)
    (batch : CommitBatch) (tally : Tally) : Returns S (publishBatch locals batch tally)
      (fun site' s' _ => Abreast scopes [] site'.remote s') site s := by
  rw [publishBatch]
  refine Comp.wp_ite.mpr ⟨fun _ => h, fun _ => ?_⟩
  refine Returns.bind (Q := fun site' s' _ => Abreast scopes batch.commits site'.remote s')
    (Returns.request ?_) ?_
  · intro r _ site' hserves hr
    obtain rfl : r = .ok () := hr
    obtain rfl : site' = _ := hserves
    exact h.commitBatch batch
  intro site₁ s₁ _ h₁
  refine Returns.bind (Q := fun site' s' _ => Abreast scopes [] site'.remote s') ?_ ?_
  · exact Comp.wp_foldlM (fun rest (site' : Site) s' (_ : Tally) =>
        Abreast scopes rest site'.remote s')
      (fun _ _ _ _ tally h => afterCommit_abreast h locals tally) h₁
  intro site₂ s₂ tally h₂
  have hsave : Silent (do
      Sync.saveRuntimeState
      return tally : Sync Tally) := .bind (.request (by exact trivial) _) fun _ => .pure _
  exact hsave.abreast h₂

/-- Publishing and carrying out a plan leaves nothing unseen behind. -/
theorem execute_abreast (h : Abreast scopes [] site.remote s) (rt : SyncRuntime)
    (request : SyncRequest) (locals : List LocalResource) (plan : List PlanOperation) :
    Returns S (execute rt request locals plan)
      (fun site' s' _ => Abreast scopes [] site'.remote s') site s := by
  have hsilent : ∀ {α : Type} {x : Sync α} {site : Site} {s : RuntimeState},
      Abreast scopes [] site.remote s → Silent x →
      Returns S x (fun site' s' _ => Abreast scopes [] site'.remote s') site s :=
    fun h hx => hx.abreast h
  refine (hsilent h (startRun_silent request plan)).bind fun site₁ s₁ _ h₁ => ?_
  refine Returns.bind (Q := fun site' s' _ => Abreast scopes [] site'.remote s') ?_ ?_
  · rw [runUploads]
    refine (hsilent h₁ (.request (by exact trivial) _)).bind fun site₂ s₂ contents h₂ => ?_
    refine (hsilent h₂ (.foldlM (fun prepared operation =>
      (prepareUpload_prepares rt _ prepared operation).silent) _ _)).bind fun _ _ prepared h₃ => ?_
    refine (hsilent h₃ (.request (by exact trivial) _)).bind fun _ _ existing h₄ => ?_
    refine (hsilent h₄ (.foldlM (fun created operation =>
      (createCommit_prepares rt _ prepared created operation).silent) _ _)).bind fun _ _ _ h₅ => ?_
    exact publishBatch_abreast h₅ locals _ _
  intro site₂ s₂ tally h₂
  refine (hsilent h₂ (.foldlM (fun tally operation =>
    runOperation_silent locals tally operation) _ _)).bind fun _ _ tally h₃ => ?_
  refine (hsilent h₃ (acknowledgePlan_silent rt plan)).bind fun _ _ _ h₄ => ?_
  refine hsilent h₄ (.bind (.modify fun _ => ⟨rfl, rfl, le_rfl⟩) fun _ =>
    .bind (.request (by exact trivial) _) fun _ => .pure _)

/-- After a `reconcile` a scan of its scopes would show nothing new. -/
theorem reconcile_abreast {request : SyncRequest}
    (hfew : s.FewEvents realm.site.remote request.scopes) (rt : SyncRuntime) :
    Concludes S (Rollforward.reconcile rt request)
      (fun realm' s' _ => Abreast request.scopes [] realm'.site.remote s') realm s := by
  rw [Rollforward.reconcile]
  refine Comp.wp_bind.mpr (Comp.wp_modify.mpr ?_)
  refine Concludes.bind (refreshRemote_abreast (s := { s with activeRun := none }) hfew) ?_
  rintro realm₁ s₁ _ ⟨hlawful₁, hdue, h₁⟩
  refine Concludes.bind (Q := fun realm' s' _ => realm' = realm₁ ∧ s' = s₁) ?_ ?_
  · refine Comp.wp_bind.mpr (Comp.wp_get.mpr ?_)
    rw [hdue]
    exact ⟨rfl, rfl⟩
  rintro realm₁ s₁ _ ⟨rfl, rfl⟩
  have hrest : Returns S (do
      let locals ← localInventory request.scopes
      Comp.modify fun state => state.recordKinds locals
      let plan ← Comp.ofExcept ((← Comp.get).buildPlan rt request.scopes locals)
      execute rt request locals plan)
      (fun site' s' _ => Abreast request.scopes [] site'.remote s') realm₁.site s₁ := by
    refine ((localInventory_reads _).silent.abreast h₁).bind fun site₂ s₂ locals h₂ => ?_
    refine Comp.wp_bind.mpr (Comp.wp_modify.mpr (Comp.wp_bind.mpr (Comp.wp_get.mpr
      (Comp.wp_bind.mpr (Returns.ofExcept fun plan _ => ?_)))))
    have h₃ : Abreast request.scopes [] site₂.remote (s₂.recordKinds locals) :=
      h₂.keeps ⟨rfl, fun _ hid => hid⟩
    exact execute_abreast h₃ rt request locals plan
  exact (hrest.concludes hlawful₁).imp fun _ _ _ h => h.1

end Abreast

section Passive

variable [Crates] {S : Setting} {realm : Realm} {s : RuntimeState} {site : Site}
variable {key : ResourceKey} {locals : List LocalResource} {plan : List PlanOperation}

/-- An operation that moves nothing. -/
def PlanOperation.Passive : PlanOperation → Prop
  | .noop _ | .establishBaseline .. | .establishDeletedBaseline .. | .conflict _ => True
  | .upload .. | .publishDelete _ | .download .. | .applyDelete .. => False

/-- How much a `reconcile` has moved. -/
def SyncReport.moved (report : SyncReport) : Nat :=
  report.uploaded + report.downloaded + report.deletedRemote + report.deletedLocal

/-- Calls that publish nothing and write no file. -/
def Still : Req → Prop
  | .commitBatch _ | .applyMutations _ => False
  | _ => True

theorem Plans.unique {operation operation' : PlanOperation} (h : Plans key site s operation)
    (h' : Plans key site s operation') : operation = operation' := by
  obtain ⟨remote, hremote, rfl⟩ := h
  obtain ⟨remote', hremote', rfl⟩ := h'
  rw [Except.ok.inj (hremote.symm.trans hremote')]

/-- What agrees is not moved. -/
theorem Agrees.passive (h : Agrees key site s) {operation : PlanOperation}
    (hplans : Plans key site s operation) :
    operation.Passive ∧ operation.isConflict = false := by
  obtain ⟨remote, hremote, hheld⟩ := h
  obtain ⟨remote', hremote', rfl⟩ := hplans
  obtain rfl : remote = remote' := Except.ok.inj (hremote.symm.trans hremote')
  cases remote with
  | forked => exact hheld.elim
  | present contentId size heads =>
    obtain ⟨data, versionToken, hfile, rfl, hentry⟩ := hheld
    rw [Files.stateOf_of_data hfile]
    cases s.baselineFor key with
    | none => simp [planResource, PlanOperation.Passive, PlanOperation.isConflict]
    | some baseline =>
      cases baseline <;> simp [planResource, PlanOperation.Passive, PlanOperation.isConflict]
  | missing | deleted =>
    have habsent : site.files[key]?.bind File.data = none := by
      first | exact hheld | exact hheld.1
    have hstate := Files.isAbsent_stateOf habsent
    cases hlocal : site.files.stateOf key with
    | present =>
      rw [hlocal] at hstate
      cases hstate
    | missing | deleted => exact ⟨trivial, rfl⟩

theorem Realm.Serves.still {realm' : Realm} {e : SyncEvent} (h : realm.Serves S e realm')
    (hstill : Still e.req) :
    realm'.published = realm.published ∧ realm'.site.files = realm.site.files := by
  obtain ⟨hsite, -, hpublished⟩ := h
  refine ⟨?_, ?_⟩
  · obtain ⟨t, q, r⟩ := e
    rw [hpublished]
    cases q <;> first | exact List.append_nil _ | exact hstill.elim
  · unfold Site.Serves at hsite
    split at hsite
    all_goals first
      | exact hstill.elim
      | rw [hsite]
      | rw [hsite.1]

/-- What is as it was, for what the world sees. -/
structure Realm.Stays (S : Setting) (realm realm' : Realm) : Prop where
  follows : realm.Follows S realm'
  published : realm'.published = realm.published
  files : realm'.site.files = realm.site.files

theorem Comp.Within.still {R : RuntimeState → RuntimeState → Prop} [IsPreorder RuntimeState R]
    (hlawful : realm.Lawful S) {x : Sync α} (hx : Comp.Within Still R x) :
    Concludes S x (fun realm' s' _ => realm.Stays S realm' ∧ R s s') realm s := by
  refine Comp.wp_mono (hx.wp (J := fun realm' s' => realm.Stays S realm' ∧ R s s') ?_ ?_ ?_
    ⟨⟨hlawful.follows, rfl, rfl⟩, refl_of R s⟩) (fun _ _ _ _ => trivial) fun _ _ _ hj => hj
  · exact fun _ _ _ hj hr => ⟨hj.1, trans_of R hj.2 hr⟩
  · exact fun _ _ _ _ _ => trivial
  · rintro realm₁ t q r realm₂ ⟨hstays, hr⟩ hq hserves
    obtain ⟨hpublished, hfiles⟩ := hserves.still hq
    exact ⟨⟨hstays.follows.serves hserves, hpublished.trans hstays.published,
      hfiles.trans hstays.files⟩, hr⟩

theorem runUploads_passive (hpassive : ∀ operation ∈ plan, operation.Passive) (rt : SyncRuntime)
    (tally : Tally) : runUploads rt locals plan tally = (do
      let _ ← Sync.readResources []
      let _ ← Sync.lookupChunks []
      return tally) := by
  have hnone : plan.filter PlanOperation.isUpload = [] := by
    refine List.filter_eq_nil_iff.mpr fun operation hop hup => ?_
    have hstill := hpassive operation hop
    cases operation <;> first | exact hstill.elim | cases hup
  rw [runUploads, hnone]
  rfl

theorem applyOperation_still {operation : PlanOperation} (hpassive : operation.Passive)
    (tally : Tally) : Comp.Within Still Anyhow (applyOperation locals tally operation) := by
  cases operation with
  | noop | conflict => exact .pure _
  | establishBaseline key localState heads =>
    refine .bind (.bind .get fun state => ?_) fun _ => .bind (.modify fun _ => trivial) fun _ => .pure _
    split
    · exact .bind .get fun _ => .bind (.ofExcept _) fun _ => .modify fun _ => trivial
    · exact .pure _
  | establishDeletedBaseline key heads => exact .bind (.modify fun _ => trivial) fun _ => .pure _
  | upload | publishDelete | download | applyDelete => exact hpassive.elim

theorem applyOperation_moved {operation : PlanOperation} (hpassive : operation.Passive)
    (tally : Tally) : Returns S (applyOperation locals tally operation)
      (fun _ _ tally' => tally'.report.moved = tally.report.moved) site s := by
  cases operation with
  | noop | conflict => exact rfl
  | establishBaseline => exact Returns.any.bind fun _ _ _ _ => Returns.any.bind fun _ _ _ _ => rfl
  | establishDeletedBaseline => exact Returns.any.bind fun _ _ _ _ => rfl
  | upload | publishDelete | download | applyDelete => exact hpassive.elim

theorem runOperation_still {operation : PlanOperation} (hpassive : operation.Passive)
    (tally : Tally) : Comp.Within Still Anyhow (runOperation locals tally operation) := by
  refine .bind (.attempt (applyOperation_still hpassive tally)) fun outcome =>
    .bind (.request trivial _) fun _ => ?_
  split
  · exact .pure _
  · exact .pure _

theorem runOperation_moved {operation : PlanOperation} (hpassive : operation.Passive)
    (tally : Tally) : Returns S (runOperation locals tally operation)
      (fun _ _ tally' => tally'.report.moved = tally.report.moved) site s := by
  refine Comp.wp_bind.mpr (Comp.wp_attempt.mpr (Comp.wp_mono (applyOperation_moved hpassive tally)
    ?_ ?_))
  · exact fun _ _ _ _ => Returns.any.bind fun _ _ _ _ => rfl
  · exact fun _ _ _ hmoved => Returns.any.bind fun _ _ _ _ => hmoved

theorem Comp.Within.sameTable {K : Req → Prop} {x : Sync α} (hx : Comp.Within K SameTable x) :
    Returns S x (fun _ s' _ => s'.conflicts = s.conflicts) site s := by
  refine Comp.wp_mono (hx.wp (J := fun _ s' => s'.conflicts = s.conflicts) ?_ ?_ ?_ rfl)
    (fun _ _ _ _ => trivial) fun _ _ _ hj => hj
  · exact fun _ _ _ hj hr => Eq.trans hr hj
  · exact fun _ _ _ _ _ => trivial
  · exact fun _ _ _ _ _ hj _ _ => hj

theorem execute_still (hpassive : ∀ operation ∈ plan, operation.Passive) (rt : SyncRuntime)
    (request : SyncRequest) : Comp.Within Still Anyhow (execute rt request locals plan) := by
  refine .bind (.bind (.modify fun _ => trivial) fun _ => .request trivial _) fun _ => .bind ?_ ?_
  · rw [runUploads_passive hpassive]
    exact .bind (.request trivial _) fun _ => .bind (.request trivial _) fun _ => .pure _
  · refine fun tally => .bind (.foldlM_mem (fun operation hop tally =>
      runOperation_still (hpassive operation hop) tally) _) fun tally => ?_
    exact .bind (.bind .get fun _ => .request trivial _) fun _ =>
      .bind (.modify fun _ => trivial) fun _ => .bind (.request trivial _) fun _ => .pure _

/-- A plan of passive operations moves nothing, and lists its conflicts. -/
theorem execute_passive (hpassive : ∀ operation ∈ plan, operation.Passive) (rt : SyncRuntime)
    (request : SyncRequest) : Returns S (execute rt request locals plan)
      (fun _ s' report => report.moved = 0 ∧
        s'.conflicts = (s.recordConflicts request plan).conflicts) site s := by
  rw [execute]
  refine Returns.bind (Q := fun _ s' _ => s'.conflicts = (s.recordConflicts request plan).conflicts)
    (Comp.wp_bind.mpr (Comp.wp_modify.mpr (Returns.request fun _ _ _ _ _ => rfl))) ?_
  intro site₁ s₁ _ h₁
  refine Returns.bind (Q := fun _ s' tally => tally.report.moved = 0 ∧ s'.conflicts = s₁.conflicts)
    ?_ ?_
  · rw [runUploads_passive hpassive]
    refine Returns.bind (Q := fun _ s' _ => s' = s₁) (Returns.request fun _ _ _ _ _ => rfl) ?_
    rintro site₂ s₂ _ rfl
    refine Returns.bind (Q := fun _ s' _ => s' = s₂) (Returns.request fun _ _ _ _ _ => rfl) ?_
    rintro site₃ s₃ _ rfl
    exact ⟨rfl, rfl⟩
  rintro site₂ s₂ tally ⟨hmoved, h₂⟩
  refine Returns.bind (Q := fun _ s' tally => tally.report.moved = 0 ∧ s'.conflicts = s₂.conflicts)
    ?_ ?_
  · refine Comp.wp_imp (Comp.wp_foldlM (fun rest _ s' (tally : Tally) =>
      (∀ operation ∈ rest, operation ∈ plan) ∧ tally.report.moved = 0 ∧
        s'.conflicts = s₂.conflicts) ?_ ⟨fun _ hop => hop, hmoved, rfl⟩) fun _ _ _ hj => hj.2
    rintro operation rest site' s' tally ⟨hin, hmoved, hs⟩
    obtain ⟨hop, hrest⟩ := List.forall_mem_cons.mp hin
    have hboth : Returns S (runOperation locals tally operation) _ site' s' :=
      Comp.wp_and (runOperation_moved (hpassive operation hop) tally)
        (Comp.Within.sameTable (runOperation_sparesTable locals tally operation))
    exact Returns.imp hboth fun _ _ _ h => ⟨hrest, h.1.trans hmoved, h.2.trans hs⟩
  rintro site₃ s₃ tally ⟨hmoved, h₃⟩
  have hacks : Comp.Within AnyCall SameTable (acknowledgePlan rt plan) :=
    .bind .get fun _ => .request trivial _
  refine (Comp.Within.sameTable hacks).bind fun site₄ s₄ _ h₄ => ?_
  refine Comp.wp_bind.mpr (Comp.wp_modify.mpr (Returns.bind
    (Q := fun _ s' _ => s'.conflicts = s₄.conflicts) (Returns.request fun _ _ _ _ _ => rfl) ?_))
  intro site₅ s₅ _ h₅
  exact ⟨hmoved, h₅.trans (h₄.trans (h₃.trans (h₂.trans h₁)))⟩

end Passive

section Repeats

variable [Crates] {S : Setting} {realm : Realm} {s : RuntimeState} {request : SyncRequest}

/-- What a `reconcile` moves and lists where everything in its scopes was settled before. -/
structure Unmoved (realm : Realm) (s : RuntimeState) (realm' : Realm) (s' : RuntimeState)
    (report : SyncReport) : Prop where
  published : realm'.published = realm.published
  files : realm'.site.files = realm.site.files
  moved : report.moved = 0
  conflicts : ∀ id, (s'.conflicts.get? id).isSome = true ↔ (s.conflicts.get? id).isSome = true

/-- What is planned on, and listed, is the same. -/
structure SameView (s t : RuntimeState) : Prop where
  commits : t.commits = s.commits
  baselines : t.baselines = s.baselines
  conflicts : t.conflicts = s.conflicts

instance : IsPreorder RuntimeState SameView where
  refl _ := ⟨rfl, rfl, rfl⟩
  trans _ _ _ hst htu := ⟨htu.commits.trans hst.commits, htu.baselines.trans hst.baselines,
    htu.conflicts.trans hst.conflicts⟩

theorem Outcome.of_same {key : ResourceKey} {site site' : Site} {t : RuntimeState}
    (h : Outcome key site s) (hfiles : site'.files = site.files) (hs : SameView s t) :
    Outcome key site' t := by
  obtain ⟨remote, files⟩ := site
  obtain ⟨remote', files'⟩ := site'
  obtain rfl : files' = files := hfiles
  rw [Outcome, hs.conflicts]
  rcases h with ⟨hagrees, hcalm⟩ | ⟨hvouched, record, hres, hplans, hrest⟩
  · exact Or.inl ⟨hagrees.of_same hs.commits hs.baselines, hcalm⟩
  · exact Or.inr ⟨hvouched.of_same hs.baselines, record, hres,
      hplans.of_same hs.commits hs.baselines, hrest⟩

theorem snapshotLargeCatalogs_still (rt : SyncRuntime) :
    Comp.Within Still SameView (snapshotLargeCatalogs rt) :=
  .bind .get fun _ => .foldlM (fun _ _ => .bind .get fun _ => .bind (.request trivial _) fun _ =>
    .bind (.request trivial _) fun _ => .modify fun _ => ⟨rfl, rfl, rfl⟩) _ _

/-- The conflicts of a plan made where everything is settled are those that are listed. -/
theorem conflicts_of_outcomes {site : Site} {plan : List PlanOperation}
    (hscopes : ∀ key : ResourceKey, key.scopeId ∈ request.scopes → Outcome key site s)
    (hplans : ∀ operation ∈ plan, operation.key.scopeId ∈ request.scopes ∧
      Plans operation.key site s operation)
    (hcovers : ∀ key : ResourceKey, key.scopeId ∈ request.scopes →
      (∀ operation ∈ plan, operation.key ≠ key) → Agrees key site s) (id : String) :
    (((s.recordConflicts request plan).conflicts).get? id).isSome = true ↔
      (s.conflicts.get? id).isSome = true := by
  have hnever : ∀ {key : ResourceKey} {record : ConflictRecord},
      Agrees key site s → ¬ Plans key site s (.conflict record) := by
    intro key record hagrees hplans
    cases (hagrees.passive hplans).2
  have hlisted : ∀ {record}, record ∈ s.conflicts → (s.conflicts.get? record.id).isSome = true :=
    fun hr => Option.isSome_iff_exists.mpr ⟨_, KeyedMap.mem_def.mp hr⟩
  constructor
  · intro hsome
    obtain ⟨record, hget⟩ := Option.isSome_iff_exists.mp hsome
    obtain rfl := KeyedMap.key_of_get? hget
    rcases KeyedMap.mem_of_mem_insertAll (KeyedMap.mem_of_get? hget) with hkept | hplanned
    · exact hlisted (KeyedMap.mem_retain.mp hkept).1
    · obtain ⟨hscope, hplans⟩ := hplans _ (mem_plannedRecords.mp hplanned)
      rcases hscopes _ hscope with ⟨hagrees, -⟩ | ⟨-, record', -, hplans', hsome', -⟩
      · exact absurd hplans (hnever hagrees)
      · rwa [PlanOperation.conflict.inj (hplans.unique hplans')]
  · intro hsome
    obtain ⟨record, hget⟩ := Option.isSome_iff_exists.mp hsome
    obtain rfl := KeyedMap.key_of_get? hget
    have hr := KeyedMap.mem_of_get? hget
    by_cases hscope : record.resource.scopeId ∈ request.scopes
    · rcases hscopes _ hscope with ⟨-, hcalm⟩ | ⟨-, record', -, hplans', -, honly⟩
      · exact absurd rfl (hcalm record hr)
      · obtain rfl := honly record hr rfl
        have hplanned : .conflict record ∈ plan := by
          by_contra hnot
          refine hnever (hcovers _ hscope fun operation hop hkey => hnot ?_) hplans'
          have hown := (hplans operation hop).2
          rw [hkey] at hown
          exact hown.unique hplans' ▸ hop
        exact KeyedMap.isSome_get?_insertAll_of_mem (mem_plannedRecords.mpr hplanned)
    · refine KeyedMap.isSome_get?_insertAll (Option.isSome_iff_exists.mpr ⟨record, ?_⟩)
      exact KeyedMap.mem_def.mp (KeyedMap.mem_retain.mpr ⟨hr, decide_eq_true hscope⟩)

/-- A `reconcile` of scopes where everything is settled and seen changes nothing. -/
theorem reconcile_unmoved (hhosts : realm.Hosts S s) (hsome : request.scopes ≠ [])
    (habreast : Abreast request.scopes [] realm.site.remote s)
    (hkind : ∀ key : ResourceKey, key.scopeId ∈ request.scopes → S.kindOf key = .binary)
    (hscopes : ∀ key : ResourceKey, key.scopeId ∈ request.scopes → Outcome key realm.site s)
    (rt : SyncRuntime) : Concludes S (Rollforward.reconcile rt request)
      (fun realm' s' report => Unmoved realm s realm' s' report) realm s := by
  have hin : ∀ {scope}, inScopes request.scopes scope = true ↔ scope ∈ request.scopes := by
    intro scope
    simp [inScopes, hsome]
  rw [Rollforward.reconcile]
  refine Comp.wp_bind.mpr (Comp.wp_modify.mpr ?_)
  have hrefresh : Returns S (refreshRemote request.scopes) _ realm.site { s with activeRun := none } :=
    refreshRemote_returns fun _ hscan => habreast.scan hhosts.lawful.wellFormed hscan
  have hread : Comp.Within Still Anyhow (refreshRemote request.scopes) :=
    .bind .get fun _ => .bind (.request trivial _) fun _ => .bind (.modify fun _ => trivial) fun _ =>
      .bind .get fun _ => .bind (.request trivial _) fun _ => .modify fun _ => trivial
  refine Concludes.bind (Comp.wp_and (hrefresh.concludes hhosts.lawful)
    (Comp.Within.still hhosts.lawful hread)) ?_
  rintro realm₁ s₁ _ ⟨⟨⟨-, hcommits₁, hbaselines₁, hconflicts₁⟩, -⟩, hstays₁, -⟩
  have hsame₁ : SameView s s₁ := ⟨hcommits₁, hbaselines₁, hconflicts₁⟩
  refine (Comp.Within.still hstays₁.follows.lawful (snapshotLargeCatalogs_still rt)).bind ?_
  rintro realm₂ s₂ _ ⟨hstays₂, hsame₂⟩
  have hlocals : Returns S (localInventory request.scopes) _ realm₂.site s₂ :=
    localInventory_returns _
  have hlists : Comp.Within Still Anyhow (localInventory request.scopes) :=
    (localInventory_reads _).mono (fun q hq => by cases q <;> first | exact trivial | exact hq.elim)
      fun _ _ _ => trivial
  refine Concludes.bind (Comp.wp_and (hlocals.concludes hstays₂.follows.lawful)
    (Comp.Within.still hstays₂.follows.lawful hlists)) ?_
  rintro realm₃ s₃ locals ⟨⟨⟨hsite, rfl, hinv⟩, -⟩, hstays₃, -⟩
  refine Comp.wp_bind.mpr (Comp.wp_modify.mpr (Comp.wp_bind.mpr (Comp.wp_get.mpr
    (Comp.wp_bind.mpr (Comp.wp_ofExcept.mpr ⟨fun plan hbuilt => ?_, fun _ _ => trivial⟩)))))
  rw [← hsite] at hinv
  replace hinv : Inventory S realm₃.site.files request.scopes (s₃.recordKinds locals) locals :=
    ⟨hinv.shown, hinv.complete⟩
  have hsame : SameView s (s₃.recordKinds locals) := by
    have hboth := trans_of SameView hsame₁ hsame₂
    exact ⟨hboth.commits, hboth.baselines, hboth.conflicts⟩
  have hfiles : realm₃.site.files = realm.site.files :=
    hstays₃.files.trans (hstays₂.files.trans hstays₁.files)
  have houtcomes : ∀ key : ResourceKey, key.scopeId ∈ request.scopes →
      Outcome key realm₃.site (s₃.recordKinds locals) :=
    fun key hscope => (hscopes key hscope).of_same hfiles hsame
  have hplans : ∀ operation ∈ plan, operation.key.scopeId ∈ request.scopes ∧
      Plans operation.key realm₃.site (s₃.recordKinds locals) operation := by
    intro operation hop
    have hscope := hin.mp (mem_buildPlan_scoped hbuilt (fun r hr => (hinv.shown r hr).1) hop).1
    exact ⟨hscope, plans_of_mem hbuilt hinv hop (hkind _ hscope) (houtcomes _ hscope).vouched⟩
  have hpassive : ∀ operation ∈ plan, operation.Passive := by
    intro operation hop
    obtain ⟨hscope, hplan⟩ := hplans operation hop
    rcases houtcomes _ hscope with ⟨hagrees, -⟩ | ⟨-, record, -, hplan', -⟩
    · exact (hagrees.passive hplan).1
    · rw [hplan.unique hplan']
      exact trivial
  have hvalues : Returns S (execute rt request locals plan) _ realm₃.site (s₃.recordKinds locals) :=
    execute_passive hpassive rt request
  refine Comp.wp_imp (Comp.wp_and (hvalues.concludes hstays₃.follows.lawful)
    (Comp.Within.still hstays₃.follows.lawful (execute_still hpassive rt request))) ?_
  rintro realm₄ s₄ report ⟨⟨⟨hmoved, hconflicts⟩, -⟩, hstays₄, -⟩
  refine ⟨?_, hstays₄.files.trans hfiles, hmoved, fun id => ?_⟩
  · exact hstays₄.published.trans (hstays₃.published.trans (hstays₂.published.trans hstays₁.published))
  · rw [hconflicts, conflicts_of_outcomes houtcomes hplans (fun key hscope hnone =>
      agrees_of_unplanned hbuilt hinv (hin.mpr hscope) hnone) id, hsame.conflicts]

end Repeats

section Calls

variable [Crates] {S : Setting} {w w₁ w₂ : World} {c : String} {ok : World → Label → Prop}
variable {s₁ s₂ : RuntimeState} {request : SyncRequest} {report₁ report₂ : SyncReport}

/-- A second `reconcile` right after one that reported no failure publishes nothing, writes no
file, moves nothing and lists the same conflicts. -/
theorem World.reconcile_repeats (hcol : Collisionless) (hcdc : FastcdcTiles)
    (hw : w.Reachable S ok) (hapart : TellsApart (w.clients c).versions)
    (hfirst : World.Reconciles S c request w w₁ s₁ report₁) (hok : report₁.failures = 0)
    (hsecond : World.Reconciles S c request w₁ w₂ s₂ report₂) (hsome : request.scopes ≠ [])
    (hkind : ∀ key : ResourceKey, key.scopeId ∈ request.scopes → S.kindOf key = .binary)
    (hown : ∀ key : ResourceKey, key.scopeId ∈ request.scopes → key.Own request.scopes)
    (hplain : ∀ key : ResourceKey, key.scopeId ∈ request.scopes →
      (w.clients c).files[key]? ≠ none → key.Own [])
    (hfew : (w.memory c).FewEvents w.remote request.scopes) :
    Unmoved (w₁.realm c) s₁ (w₂.realm c) s₂ report₂ := by
  have hvouched : ∀ key : ResourceKey, key.scopeId ∈ request.scopes →
      (w.clients c).files.Vouched (w.memory c) key := by
    intro key hscope data versionToken hfile
    have hown := hplain key hscope (by rw [hfile]; simp)
    obtain ⟨v, hstart, -⟩ := hfirst.calls.run
    exact hw.vouched hcol hcdc hapart (hkind key hscope) hown hstart data versionToken hfile
  have hw₁ : w₁.Reachable S fun _ _ => True :=
    hfirst.calls.keeps (fun hw hs => .tail hw ⟨_, trivial, hs⟩) (hw.mono fun _ _ _ => trivial)
  have hmemory := hfirst.memory
  have hhosts := hw₁.hosts hcol hcdc c
  have houtcomes : ∀ key : ResourceKey, key.scopeId ∈ request.scopes →
      Outcome key (w₁.realm c).site s₁ := by
    intro key hscope
    refine (hfirst.concludes hcol hcdc hw (Q := fun realm' s' report => 0 < report.failures ∨
      Outcome key realm'.site s') ?_).resolve_left (hok ▸ Nat.lt_irrefl 0)
    exact reconcile_outcome hcol hcdc (hw.hosts hcol hcdc c) (hkind key hscope)
      (hvouched key hscope) _ hscope (hown key hscope)
  have habreast : Abreast request.scopes [] (w₁.realm c).site.remote s₁ :=
    hfirst.concludes hcol hcdc hw
      (Q := fun realm' s' _ => Abreast request.scopes [] realm'.site.remote s')
      (reconcile_abreast hfew _)
  rw [hmemory] at hhosts
  have hunmoved := reconcile_unmoved hhosts hsome habreast hkind houtcomes ⟨c, S.policy c⟩
  rw [← hmemory] at hunmoved ⊢
  exact hsecond.concludes hcol hcdc hw₁ hunmoved

end Calls

section Scripts

open Sample

attribute [local instance] spelled

/-- `A` takes over one file and is left with a conflict on another, and comes again. -/
theorem World.reconcile_repeats_conflict : ∃ w w₁ w₂ s₁ s₂ report₁ report₂,
    World.Reconciles {} "A" ⟨["s"]⟩ w w₁ s₁ report₁ ∧
      World.Reconciles {} "A" ⟨["s"]⟩ w₁ w₂ s₂ report₂ ∧ report₁.downloaded = 1 ∧
      report₁.conflicts = 1 ∧ report₂.conflicts = 1 ∧
      Unmoved (w₁.realm "A") s₁ (w₂.realm "A") s₂ report₂ := by
  have hplayed : ((play {} (fun _ _ => True) (upload "B" "a" "1" "t1" ++ upload "B" "b" "2" "t2" ++
      [.step (.edit "A" (key "a") (text "3" "t3"))]) 0 {}).any fun w =>
      (reconcileAt {} "A" ⟨["s"]⟩ 5000 w).any fun (w₁, report₁) =>
        (reconcileAt {} "A" ⟨["s"]⟩ 6000 w₁).any fun (_, report₂) =>
          report₁.failures = 0 ∧ report₁.downloaded = 1 ∧ report₁.conflicts = 1 ∧
            report₂.conflicts = 1 ∧ (w.memory "A").FewEvents w.remote ["s"] ∧
            TellsApart (w.clients "A").versions ∧
            (w.clients "A").files.keys = [key "a"]) = true := by
    decide +kernel
  obtain ⟨w, hw, h⟩ := (Option.any_eq_true _ _).mp hplayed
  obtain ⟨⟨w₁, report₁⟩, hrun₁, h⟩ := (Option.any_eq_true _ _).mp h
  obtain ⟨⟨w₂, report₂⟩, hrun₂, h⟩ := (Option.any_eq_true _ _).mp h
  obtain ⟨hok, hdownloaded, hconflicts₁, hconflicts₂, hfew, hapart, hkeys⟩ := of_decide_eq_true h
  obtain ⟨hw₁, s₁, hfirst⟩ := reconciles_of_reconcileAt (play_reach hw) hrun₁
  obtain ⟨-, s₂, hsecond⟩ := reconciles_of_reconcileAt hw₁ hrun₂
  refine ⟨w, w₁, w₂, s₁, s₂, report₁, report₂, hfirst, hsecond, hdownloaded, hconflicts₁,
    hconflicts₂, ?_⟩
  refine World.reconcile_repeats spelled_collisionless spelled_fastcdcTiles (play_reach hw) hapart
    hfirst hok hsecond (List.cons_ne_nil _ _) (fun _ _ => rfl) (fun key hscope other hin he => ?_)
    (fun key _ hfile => ?_) hfew
  · refine encoded_inj ?_ he
    rw [List.mem_singleton.mp hscope]
    simpa [inScopes] using hin
  · obtain ⟨file, hfile⟩ := Option.ne_none_iff_exists'.mp hfile
    have hmem : key ∈ (w.clients "A").files.keys :=
      ExtTreeMap.mem_keys.mpr (ExtTreeMap.mem_iff_isSome_getElem?.mpr (by rw [hfile]; rfl))
    rw [hkeys] at hmem
    rw [List.mem_singleton.mp hmem]
    exact ResourceKey.own_of_plain (by decide) (by decide)

end Scripts

end Rollforward
