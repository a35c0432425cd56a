import Rollforward.Conflicts
import Rollforward.Losses
import Rollforward.Upkeep

/-! A whole `reconcile` with nobody else moving, as far as one binary resource goes. -/

namespace Rollforward

open Std Lib

section Enlists

variable [Crates] {S : Setting} {key : ResourceKey} {site : Site} {s t : RuntimeState}

/-- No conflict of the resource is new, and every conflict is still listed under its id. -/
def Enlists (key : ResourceKey) (s t : RuntimeState) : Prop :=
  (∀ record ∈ t.conflicts, record.resource = key → record ∈ s.conflicts) ∧
    ∀ id, (s.conflicts.get? id).isSome = true → (t.conflicts.get? id).isSome = true

instance : IsPreorder RuntimeState (Enlists key) where
  refl _ := ⟨fun _ hr _ => hr, fun _ hid => hid⟩
  trans _ _ _ hst htu := ⟨fun record hr hkey => hst.1 record (htu.1 record hr hkey) hkey,
    fun id hid => htu.2 id (hst.2 id hid)⟩

theorem Enlists.of_same (h : t.conflicts = s.conflicts) : Enlists key s t := by
  rw [Enlists, h]
  exact ⟨fun _ hr _ => hr, fun _ hid => hid⟩

theorem SparesTable.enlists {x : Sync α} (hx : SparesTable x) : Comp.Within AnyCall (Enlists key) x :=
  hx.mono (fun _ _ => trivial) fun _ _ hst => .of_same hst

theorem prepareUpload_enlists (rt : SyncRuntime) {contents : Map ResourceKey ResourceContent}
    (hbinary : ∀ c, contents[key]? = some c → c.kind = .binary) (prepared : Prepared)
    (operation : PlanOperation) :
    Comp.Within AnyCall (Enlists key) (prepareUpload rt contents prepared operation) := by
  unfold prepareUpload
  split
  · next key' localState =>
    split
    · exact .pure _
    · next c hread =>
      split
      · exact .pure _
      · refine .bind .get fun state => .ofExcept_bind fun verdict hverdict => ?_
        cases verdict with
        | notHandled => exact .pure _
        | merged data => exact .bind (.ofExcept _) fun _ => .pure _
        | conflict reason =>
          have hne : key' ≠ key := by
            rintro rfl
            rw [askPolicy_binary (hbinary c hread)] at hverdict
            cases hverdict
          refine .bind (.ofExcept _) fun remote => .bind (.modify fun s => ⟨?_, fun id hid => ?_⟩)
            fun _ => .pure _
          · intro record hr hkey
            rcases KeyedMap.mem_insert.mp hr with rfl | hr
            · exact absurd hkey hne
            · exact hr.1
          · rw [KeyedMap.get?_insert]
            split
            · rfl
            · exact hid
  · exact .pure _

theorem Comp.Within.enlists {x : Sync α} (hx : Comp.Within AnyCall (Enlists key) x) :
    Returns S x (fun _ s' _ => Enlists key s s') site s := by
  refine Comp.wp_mono (hx.wp (J := fun _ s' => Enlists key s s') ?_ ?_ ?_ (refl_of (Enlists key) s))
    (fun _ _ _ _ => trivial) fun _ _ _ hj => hj
  · exact fun _ _ _ hj hr => trans_of (Enlists key) hj hr
  · exact fun _ _ _ _ _ => trivial
  · exact fun _ _ _ _ _ hj _ _ => hj

theorem runUploads_enlists (hkind : S.kindOf key = .binary) (rt : SyncRuntime)
    (locals : List LocalResource) (plan : List PlanOperation) (tally : Tally) :
    Returns S (runUploads rt locals plan tally) (fun _ s' _ => Enlists key s s') site s := by
  refine Returns.bind (Q := fun _ s' contents => s' = s ∧
    ∃ keys, contents = S.read site.files keys) (Returns.request ?_) ?_
  · intro r contents site' hserves hr
    obtain rfl : r = .ok contents := hr
    exact ⟨rfl, _, hserves.2⟩
  rintro site' s _ ⟨rfl, keys, rfl⟩
  have hbinary : ∀ c, (contentMap (S.read site.files keys))[key]? = some c → c.kind = .binary := by
    intro c hc
    obtain ⟨c', hmem, he⟩ := List.mem_map.mp (Map.mem_of_get?_ofList hc)
    obtain ⟨rfl, rfl⟩ := Prod.mk.inj he
    obtain ⟨k, -, hk⟩ := List.mem_filterMap.mp hmem
    obtain ⟨file, -, hdata⟩ := Option.bind_eq_some_iff.mp hk
    obtain ⟨bytes, -, rfl⟩ := Option.map_eq_some_iff.mp hdata
    exact hkind
  refine Comp.Within.enlists ?_
  exact .bind (.foldlM (fun prepared operation => prepareUpload_enlists rt hbinary prepared operation)
      _ _) fun prepared =>
    .bind (.request (by exact trivial) _) fun _ =>
    .bind (.foldlM (fun created operation =>
      (createCommit_sparesTable rt _ prepared created operation).enlists) _ _) fun _ =>
    (publishBatch_sparesTable locals _ _).enlists

/-- The conflicts of a resource are those that were planned. -/
theorem execute_enlists (hkind : S.kindOf key = .binary) (rt : SyncRuntime) (request : SyncRequest)
    (locals : List LocalResource) (plan : List PlanOperation) :
    Returns S (execute rt request locals plan)
      (fun _ s' _ => Enlists key (s.recordConflicts request plan) s') site s := by
  refine Returns.bind (Q := fun _ s' _ => Enlists key (s.recordConflicts request plan) s') ?_ ?_
  · exact Comp.wp_bind.mpr (Comp.wp_modify.mpr (Returns.request fun _ _ _ _ _ => .of_same rfl))
  intro site₁ s₁ _ h₁
  refine (runUploads_enlists hkind rt locals plan _).bind fun site₂ s₂ tally h₂ => ?_
  have hrest : Comp.Within AnyCall (Enlists key) (do
      let tally ← plan.foldlM (runOperation locals) tally
      acknowledgePlan rt plan
      Comp.modify fun state => { state with activeRun := none }
      Sync.saveRuntimeState
      return { tally.report with scopes := reportScopes request plan tally.failures } :
        Sync SyncReport) :=
    .bind (.foldlM (fun tally operation =>
        (runOperation_sparesTable locals tally operation).enlists) _ _) fun _ =>
      .bind (.bind .get fun _ => .request trivial _) fun _ =>
      .bind (.modify fun _ => .of_same rfl) fun _ => .bind (.request trivial _) fun _ => .pure _
  refine Returns.imp (Comp.Within.enlists hrest) fun _ _ _ h₃ => ?_
  exact trans_of (Enlists key) h₁ (trans_of (Enlists key) h₂ h₃)

end Enlists

section Execution

variable [Crates] {S : Setting} {key : ResourceKey} {site : Site} {realm : Realm}
variable {s : RuntimeState} {locals : List LocalResource} {plan : List PlanOperation}

theorem applyOperation_failures (tally : Tally) (operation : PlanOperation) :
    Returns S (applyOperation locals tally operation)
      (fun _ _ tally' => tally'.report.failures = tally.report.failures) site s := by
  cases operation with
  | noop | upload | publishDelete | conflict => exact rfl
  | establishBaseline =>
    exact Returns.any.bind fun _ _ _ _ => Returns.any.bind fun _ _ _ _ => rfl
  | establishDeletedBaseline => exact Returns.any.bind fun _ _ _ _ => rfl
  | download =>
    exact Returns.any.bind fun _ _ _ _ => Returns.any.bind fun _ _ _ _ =>
      Returns.any.bind fun _ _ _ _ => Returns.any.bind fun _ _ _ _ =>
      Returns.any.bind fun _ _ _ _ => rfl
  | applyDelete =>
    exact Returns.any.bind fun _ _ _ _ => Returns.any.bind fun _ _ _ _ => rfl

/-- An operation either comes to its end or is counted as a failure. -/
theorem runOperation_either {Q : Site → RuntimeState → Prop} {tally : Tally}
    {operation : PlanOperation}
    (hx : Returns S (applyOperation locals tally operation) (fun site' s' _ => Q site' s') site s) :
    Returns S (runOperation locals tally operation) (fun site' s' tally' =>
      tally.report.failures ≤ tally'.report.failures ∧ (Q site' s' ∨ 0 < tally'.report.failures))
      site s := by
  have hsave : ∀ {site : Site} {s : RuntimeState}, Returns S Sync.saveRuntimeState
      (fun site' s' _ => site' = site ∧ s' = s) site s := by
    intro site s
    refine Returns.request fun r _ site' hserves _ => ⟨?_, rfl⟩
    cases r <;> exact hserves
  refine Comp.wp_bind.mpr (Comp.wp_attempt.mpr (Comp.wp_mono
    (Comp.wp_and hx (applyOperation_failures tally operation)) ?_ ?_))
  · intro site' s' e _
    refine hsave.bind ?_
    rintro _ _ _ ⟨rfl, rfl⟩
    exact ⟨Nat.le_succ _, Or.inr (Nat.succ_pos _)⟩
  · rintro site' s' tally' ⟨hq, hfailures⟩
    refine hsave.bind ?_
    rintro _ _ _ ⟨rfl, rfl⟩
    exact ⟨hfailures.ge, Or.inl hq⟩

/-- A baseline that agrees vouches for the file with its digest. -/
theorem Agrees.vouched (h : Agrees key site s) : site.files.Vouched s key := by
  obtain ⟨remote, -, hheld⟩ := h
  intro data versionToken hfile contentId hcached
  rw [hfile] at hheld
  cases remote with
  | missing => cases hheld
  | forked => exact hheld.elim
  | deleted => cases hheld.1
  | present id size heads =>
    obtain ⟨data', token', he, rfl, hentry⟩ := hheld
    obtain ⟨rfl, rfl⟩ : data = data' ∧ versionToken = token' := by simpa using he
    simp only [RuntimeState.cachedId, hentry, Option.map_some, if_true, Option.some.injEq] at hcached
    exact hcached.symm

/-- What has become of a planned resource: it agrees, or is as disputed as it was. -/
def Settles (key : ResourceKey) (plan : List PlanOperation) (site : Site) (s : RuntimeState) : Prop :=
  (Agrees key site s ∧ ∀ record, .conflict record ∈ plan → record.resource ≠ key) ∨
    (site.files.Vouched s key ∧ ∃ record, .conflict record ∈ plan ∧ record.resource = key ∧
      Plans key site s (.conflict record))

theorem Settles.spared {site' : Site} {s' : RuntimeState} (h : Settles key plan site s)
    (hcreated : ∀ x ∈ s.commits, x.Created) (hs : Spared key site s site' s') :
    Settles key plan site' s' := by
  rcases h with ⟨hagrees, hcalm⟩ | ⟨hvouched, record, hmem, hres, hplans⟩
  · exact Or.inl ⟨hagrees.spared hcreated hs, hcalm⟩
  · exact Or.inr ⟨hvouched.spared hcreated hs, record, hmem, hres, hplans.spared hcreated hs⟩

/-- An operation that nothing is left to do for once the uploads are published. -/
def PlanOperation.Idle (operation : PlanOperation) : Prop :=
  operation.isUpload = true ∨ operation.isConflict = true

theorem runOperation_idle {tally : Tally} {operation : PlanOperation} (hidle : operation.Idle) :
    Returns S (runOperation locals tally operation) (fun site' s' tally' =>
      tally.report.failures ≤ tally'.report.failures ∧
        ((site' = site ∧ s' = s) ∨ 0 < tally'.report.failures)) site s := by
  refine runOperation_either (Q := fun site' s' => site' = site ∧ s' = s) ?_
  cases operation with
  | upload | publishDelete | conflict => exact ⟨rfl, rfl⟩
  | _ => rcases hidle with h | h <;> cases h

/-- Where the loop over a plan stands, as far as one resource goes: `rest` is still to come. -/
structure Turns (S : Setting) (key : ResourceKey) (plan rest : List PlanOperation) (realm : Realm)
    (s : RuntimeState) (tally : Tally) : Prop where
  hosts : realm.Hosts S s
  planned : ∀ operation ∈ rest, operation ∈ plan
  distinct : (rest.map PlanOperation.key).Nodup
  state : 0 < tally.report.failures ∨
    (Settles key plan realm.site s ∧ ∀ operation ∈ rest, operation.key = key → operation.Idle) ∨
    ∃ operation ∈ rest, Plans key realm.site s operation ∧ ¬ operation.Idle

theorem runOperation_turns (hcol : Collisionless) (hcdc : FastcdcTiles)
    (hkind : S.kindOf key = .binary) (hdistinct : (plan.map PlanOperation.key).Nodup)
    (hname : ∀ operation ∈ plan, operation.key.encoded = key.encoded → operation.key = key)
    {operation : PlanOperation} {rest : List PlanOperation} {tally : Tally}
    (h : Turns S key plan (operation :: rest) realm s tally) :
    Concludes S (runOperation locals tally operation)
      (fun realm' s' tally' => Turns S key plan rest realm' s' tally') realm s := by
  obtain ⟨hop, hplanned⟩ := List.forall_mem_cons.mp h.planned
  obtain ⟨hfresh, hrestDistinct⟩ := List.nodup_cons.mp h.distinct
  have hstate : Returns S (runOperation locals tally operation) (fun site' s' tally' =>
      0 < tally'.report.failures ∨
      (Settles key plan site' s' ∧ ∀ operation ∈ rest, operation.key = key → operation.Idle) ∨
      ∃ operation ∈ rest, Plans key site' s' operation ∧ ¬ operation.Idle) realm.site s := by
    have hspared : operation.key ≠ key → Returns S (runOperation locals tally operation) _
        realm.site s := fun hne =>
      (runOperation_sparing locals tally fun e => hne (hname operation hop e)).returns
    rcases h.state with hfailed | ⟨hsettles, hidle⟩ | ⟨own, hown, hplans, hbusy⟩
    · refine Returns.imp (runOperation_either (Q := fun _ _ => True) Returns.any) fun _ _ _ h' => ?_
      exact Or.inl (hfailed.trans_le h'.1)
    · have hrest : ∀ operation ∈ rest, operation.key = key → operation.Idle :=
        (List.forall_mem_cons.mp hidle).2
      by_cases hkey : operation.key = key
      · refine Returns.imp (runOperation_idle (hidle operation List.mem_cons_self hkey)) ?_
        rintro site' s' tally' ⟨-, ⟨rfl, rfl⟩ | hfailed⟩
        · exact Or.inr (Or.inl ⟨hsettles, hrest⟩)
        · exact Or.inl hfailed
      · refine Returns.imp (hspared hkey) fun site' s' _ hs => ?_
        exact Or.inr (Or.inl ⟨hsettles.spared h.hosts.created hs, hrest⟩)
    · rcases List.mem_cons.mp hown with rfl | hmem
      · have hup : own.isUpload = false := Bool.eq_false_iff.mpr fun e => hbusy (Or.inl e)
        have hcalm : own.isConflict = false := Bool.eq_false_iff.mpr fun e => hbusy (Or.inr e)
        refine Returns.imp (runOperation_either
          (applyOperation_agrees hcol hcdc h.hosts hkind tally hplans hup hcalm)) ?_
        rintro site' s' tally' ⟨-, hagrees | hfailed⟩
        · refine Or.inr (Or.inl ⟨Or.inl ⟨hagrees, fun record hrecord e => ?_⟩, fun other hother e =>
            absurd (List.mem_map.mpr ⟨other, hother, e.trans hplans.concerns.symm⟩) hfresh⟩)
          have hsame : .conflict record = own := List.inj_on_of_nodup_map hdistinct hrecord hop
            (e.trans hplans.concerns.symm)
          exact hbusy (Or.inr (hsame ▸ rfl))
        · exact Or.inl hfailed
      · have hkey : operation.key ≠ key := fun e =>
          hfresh (List.mem_map.mpr ⟨own, hmem, hplans.concerns.trans e.symm⟩)
        refine Returns.imp (hspared hkey) fun site' s' _ hs => ?_
        exact Or.inr (Or.inr ⟨own, hmem, hplans.spared h.hosts.created hs, hbusy⟩)
  have hcommits : Returns S (runOperation locals tally operation) _ realm.site s :=
    (runOperation_silent locals tally operation).returns
  have hboth : Returns S (runOperation locals tally operation) _ realm.site s :=
    Comp.wp_and hstate hcommits
  refine (hboth.concludes h.hosts.lawful).imp ?_
  rintro realm' s' tally' ⟨⟨hstate', hcommits'⟩, hfollows⟩
  exact ⟨h.hosts.follows hfollows hcommits', hplanned, hrestDistinct, hstate'⟩

theorem Prepares.hosts {x : Sync α} (hx : Prepares x) (hhosts : realm.Hosts S s) :
    Concludes S x (fun realm' s' _ => realm'.Hosts S s') realm s := by
  refine (hx.returns.concludes hhosts.lawful).imp ?_
  rintro realm' s' _ ⟨⟨-, hs⟩, hfollows⟩
  exact hhosts.follows hfollows hs.commits

theorem runUploads_hosts (hhosts : realm.Hosts S s) (rt : SyncRuntime) (tally : Tally) :
    Concludes S (runUploads rt locals plan tally) (fun realm' s' _ => realm'.Hosts S s') realm s := by
  have hread : ∀ {q : Req} {α : Type} {f : q.Resp → Except SyncError α} {realm : Realm}
      {s : RuntimeState}, realm.Hosts S s →
      Concludes S (Comp.request q f) (fun realm' s' _ => realm'.Hosts S s') realm s :=
    fun hhosts => Concludes.request fun _ _ _ hserves _ =>
      hhosts.follows (hhosts.lawful.follows.serves hserves) rfl
  refine (hread hhosts).bind fun realm₁ s₁ contents h₁ => ?_
  have hprepare : Prepares ((plan.filter PlanOperation.isUpload).foldlM
      (prepareUpload rt (contentMap contents)) { tally }) :=
    .foldlM (fun prepared operation => prepareUpload_prepares rt _ prepared operation) _ _
  refine (hprepare.hosts h₁).bind fun realm₂ s₂ prepared h₂ => ?_
  refine (hread h₂).bind fun realm₃ s₃ existing h₃ => ?_
  have hcreate : Prepares ((plan.filter PlanOperation.isUpload).foldlM
      (createCommit rt (contentMap contents) prepared) []) :=
    .foldlM (fun created operation => createCommit_prepares rt _ prepared created operation) _ _
  exact (hcreate.hosts h₃).bind fun realm₄ s₄ commits h₄ => publishBatch_hosts h₄ _ _

theorem Plans.of_same {operation : PlanOperation} {t : RuntimeState}
    (h : Plans key site s operation) (hcommits : t.commits = s.commits)
    (hbaselines : t.baselines = s.baselines) : Plans key site t operation := by
  obtain ⟨remote, hremote, hop⟩ := h
  refine ⟨remote, (RuntimeState.remoteState_of_commits hcommits key).trans hremote, ?_⟩
  rwa [RuntimeState.baselineFor, hbaselines]

theorem Agrees.of_same {t : RuntimeState} (h : Agrees key site s)
    (hcommits : t.commits = s.commits) (hbaselines : t.baselines = s.baselines) :
    Agrees key site t := by
  obtain ⟨remote, hremote, hheld⟩ := h
  refine ⟨remote, (RuntimeState.remoteState_of_commits hcommits key).trans hremote, ?_⟩
  rwa [hbaselines]

theorem Files.Vouched.of_same {files : Files} {t : RuntimeState} (h : files.Vouched s key)
    (hbaselines : t.baselines = s.baselines) : files.Vouched t key := by
  intro data versionToken hfile contentId hcached
  rw [RuntimeState.cachedId, hbaselines] at hcached
  exact h data versionToken hfile contentId hcached

/-- Once the uploads of a plan are published, a resource that was one of them agrees, and the
others are as they were. -/
theorem runUploads_settles (hcol : Collisionless) (hhosts : realm.Hosts S s)
    (hkind : S.kindOf key = .binary) (hdistinct : (plan.map PlanOperation.key).Nodup)
    (hname : ∀ operation ∈ plan, operation.key.encoded = key.encoded → operation.key = key)
    (hstate : localStateOf locals key = realm.site.files.stateOf key)
    (hplans : ∀ operation ∈ plan, operation.key = key → Plans key realm.site s operation)
    (hunplanned : (∀ operation ∈ plan, operation.key ≠ key) → Agrees key realm.site s)
    (hvouched : realm.site.files.Vouched s key) (rt : SyncRuntime) (tally : Tally) :
    Concludes S (runUploads rt locals plan tally) (fun realm' s' _ =>
      (Settles key plan realm'.site s' ∧
        ∀ operation ∈ plan, operation.key = key → operation.Idle) ∨
      ∃ operation ∈ plan, Plans key realm'.site s' operation ∧ ¬ operation.Idle) realm s := by
  have hspared : (∀ operation ∈ plan, operation.key = key → operation.isUpload = false) →
      Concludes S (runUploads rt locals plan tally)
        (fun realm' s' _ => Spared key realm.site s realm'.site s') realm s := by
    intro hnone
    have hreturns : Returns S (runUploads rt locals plan tally) _ realm.site s :=
      runUploads_returns hcol rt (fun operation hop hup e => by
        rw [hnone operation hop (hname operation hop e)] at hup
        cases hup) tally
    exact (hreturns.concludes hhosts.lawful).imp fun _ _ _ h => h.1
  by_cases hplanned : ∃ operation ∈ plan, operation.key = key
  · obtain ⟨own, hop, hkey⟩ := hplanned
    have honly : ∀ operation ∈ plan, operation.key = key → operation = own :=
      fun operation hother e => List.inj_on_of_nodup_map hdistinct hother hop (e.trans hkey.symm)
    cases hup : own.isUpload with
    | true =>
      refine (runUploads_agrees hcol hhosts hdistinct hname hop hup (hplans own hop hkey) hkind
        hstate tally).imp fun realm' s' _ hagrees => ?_
      refine Or.inl ⟨Or.inl ⟨hagrees, fun record hrecord e => ?_⟩, fun operation hother e =>
        Or.inl ((honly operation hother e) ▸ hup)⟩
      rw [← honly _ hrecord e] at hup
      cases hup
    | false =>
      refine (hspared fun operation hother e => (honly operation hother e) ▸ hup).imp ?_
      intro realm' s' _ hs
      have hplans' := (hplans own hop hkey).spared hhosts.created hs
      cases hcalm : own.isConflict with
      | true =>
        refine Or.inl ⟨Or.inr ?_, fun operation hother e =>
          Or.inr ((honly operation hother e) ▸ hcalm)⟩
        cases own with
        | conflict record => exact ⟨hvouched.spared hhosts.created hs, record, hop, hkey, hplans'⟩
        | _ => cases hcalm
      | false =>
        refine Or.inr ⟨own, hop, hplans', fun hidle => ?_⟩
        rcases hidle with h | h
        · exact absurd (hup.symm.trans h) (by decide)
        · exact absurd (hcalm.symm.trans h) (by decide)
  · have hnone : ∀ operation ∈ plan, operation.key ≠ key := fun operation hop e =>
      hplanned ⟨operation, hop, e⟩
    refine (hspared fun operation hop e => absurd e (hnone operation hop)).imp ?_
    intro realm' s' _ hs
    exact Or.inl ⟨Or.inl ⟨(hunplanned hnone).spared hhosts.created hs,
      fun record hrecord => hnone _ hrecord⟩, fun operation hop e => absurd e (hnone operation hop)⟩

/-- A plan that is executed brings every resource to agreement, or leaves it disputed, unless
a failure is reported. -/
theorem execute_settles (hcol : Collisionless) (hcdc : FastcdcTiles) (hhosts : realm.Hosts S s)
    (hkind : S.kindOf key = .binary) (hdistinct : (plan.map PlanOperation.key).Nodup)
    (hname : ∀ operation ∈ plan, operation.key.encoded = key.encoded → operation.key = key)
    (hstate : localStateOf locals key = realm.site.files.stateOf key)
    (hplans : ∀ operation ∈ plan, operation.key = key → Plans key realm.site s operation)
    (hunplanned : (∀ operation ∈ plan, operation.key ≠ key) → Agrees key realm.site s)
    (hvouched : realm.site.files.Vouched s key) (rt : SyncRuntime) (request : SyncRequest) :
    Concludes S (execute rt request locals plan) (fun realm' s' report =>
      0 < report.failures ∨ Settles key plan realm'.site s') realm s := by
  rw [execute]
  refine Concludes.bind (Q := fun realm' s' _ => realm'.site = realm.site ∧ realm'.Hosts S s' ∧
    s'.commits = s.commits ∧ s'.baselines = s.baselines) ?_ ?_
  · refine Comp.wp_bind.mpr (Comp.wp_modify.mpr (Concludes.request fun r _ realm' hserves _ => ?_))
    exact ⟨hserves.saves, hhosts.follows (hhosts.lawful.follows.serves hserves) rfl, rfl, rfl⟩
  rintro realm₁ s₁ _ ⟨hsite, hhosts₁, hcommits, hbaselines⟩
  rw [← hsite] at hstate hplans hunplanned hvouched
  have hsettles : Concludes S (runUploads rt locals plan
      { report := { conflicts := (plan.filter PlanOperation.isConflict).length } }) _ realm₁ s₁ :=
    runUploads_settles hcol hhosts₁ hkind hdistinct hname hstate
      (fun operation hop e => (hplans operation hop e).of_same hcommits hbaselines)
      (fun hnone => (hunplanned hnone).of_same hcommits hbaselines)
      (hvouched.of_same hbaselines) rt _
  refine Concludes.bind (Comp.wp_and (runUploads_hosts hhosts₁ rt _) hsettles) ?_
  rintro realm₂ s₂ tally ⟨hhosts₂, hstate₂⟩
  refine Concludes.bind (Q := fun realm' s' tally' => Turns S key plan [] realm' s' tally')
    (Comp.wp_foldlM (fun rest realm' s' tally' => Turns S key plan rest realm' s' tally')
      (fun _ _ _ _ _ hturns => runOperation_turns hcol hcdc hkind hdistinct hname hturns)
      ⟨hhosts₂, fun _ hop => hop, hdistinct, Or.inr hstate₂⟩) ?_
  intro realm₃ s₃ tally' hturns
  have hrest : Sparing key (do
      acknowledgePlan rt plan
      Comp.modify fun state => { state with activeRun := none }
      Sync.saveRuntimeState
      return { tally'.report with scopes := reportScopes request plan tally'.failures } :
        Sync SyncReport) :=
    .bind (.bind .get fun _ => .request (by exact trivial) _) fun _ =>
      .bind (.modify fun _ => .of_same rfl rfl rfl) fun _ =>
      .bind (.request (by exact trivial) _) fun _ => .pure _
  have hreport : Returns S (do
      acknowledgePlan rt plan
      Comp.modify fun state => { state with activeRun := none }
      Sync.saveRuntimeState
      return { tally'.report with scopes := reportScopes request plan tally'.failures } :
        Sync SyncReport) (fun _ _ report => report.failures = tally'.report.failures)
        realm₃.site s₃ :=
    Returns.any.bind fun _ _ _ _ => Returns.any.bind fun _ _ _ _ =>
      Returns.any.bind fun _ _ _ _ => rfl
  have hboth : Returns S _ _ realm₃.site s₃ := Comp.wp_and hrest.returns hreport
  refine (hboth.concludes hturns.hosts.lawful).imp ?_
  rintro realm' s' report ⟨⟨hs, hfailures⟩, -⟩
  rw [hfailures]
  rcases hturns.state with hfailed | ⟨hsettles, -⟩ | ⟨own, hown, -⟩
  · exact Or.inl hfailed
  · exact Or.inr (hsettles.spared hturns.hosts.created hs)
  · cases hown

end Execution

section Reconcile

variable [Crates] {S : Setting} {key : ResourceKey} {realm : Realm} {s : RuntimeState}

/-- What a `reconcile` leaves of a resource: agreement and no conflict, or the one conflict that
the planner finds on it, listed under its id, with an honest baseline. -/
def Outcome (key : ResourceKey) (site : Site) (s : RuntimeState) : Prop :=
  (Agrees key site s ∧ ∀ record ∈ s.conflicts, record.resource ≠ key) ∨
    (site.files.Vouched s key ∧ ∃ record, record.resource = key ∧
      Plans key site s (.conflict record) ∧ (s.conflicts.get? record.id).isSome = true ∧
      ∀ other ∈ s.conflicts, other.resource = key → other = record)

theorem Outcome.vouched {site : Site} (h : Outcome key site s) : site.files.Vouched s key := by
  rcases h with ⟨hagrees, -⟩ | ⟨hvouched, -⟩
  · exact hagrees.vouched
  · exact hvouched

/-- What comes before a plan: the file and the baseline of the resource are as they were. -/
structure Planning (S : Setting) (key : ResourceKey) (realm : Realm) (s : RuntimeState)
    (realm' : Realm) (s' : RuntimeState) : Prop where
  hosts : realm'.Hosts S s'
  file : realm'.site.files[key]? = realm.site.files[key]?
  baseline : s'.baselines.get? key.encoded = s.baselines.get? key.encoded

theorem Planning.vouched {realm' : Realm} {s' : RuntimeState} (h : Planning S key realm s realm' s')
    (hvouched : realm.site.files.Vouched s key) : realm'.site.files.Vouched s' key := by
  intro data versionToken hfile contentId hcached
  refine hvouched data versionToken (h.file.symm.trans hfile) contentId ?_
  rwa [RuntimeState.cachedId, h.baseline] at hcached

theorem refreshRemote_planning (hhosts : realm.Hosts S s) (scopes : List String) :
    Concludes S (refreshRemote scopes) (fun realm' s' _ => Planning S key realm s realm' s')
      realm s := by
  refine Comp.wp_bind.mpr (Comp.wp_get.mpr ?_)
  refine Concludes.bind (Q := fun realm' s' _ => Planning S key realm s realm' s')
    (Concludes.request ?_) ?_
  · intro r delta realm' hserves hr
    obtain rfl : r = .ok delta := hr
    refine ⟨hhosts.follows (hhosts.lawful.follows.serves hserves) rfl, ?_, rfl⟩
    rw [hserves.1.1]
  intro realm₁ s₁ delta h₁
  refine Comp.wp_bind.mpr (Comp.wp_modify.mpr (Comp.wp_bind.mpr (Comp.wp_get.mpr ?_)))
  refine Concludes.bind (Q := fun realm' s' commits => Planning S key realm s realm' s' ∧
    ∀ x ∈ commits, x ∈ realm'.published) (Concludes.request ?_) ?_
  · intro r commits realm' hserves hr
    obtain rfl : r = .ok commits := hr
    have hsite : realm'.site = realm₁.site := hserves.1.1
    have hfollows := h₁.hosts.lawful.follows.serves hserves
    refine ⟨⟨⟨hfollows.lawful, fun x hx => hfollows.published x (h₁.hosts.held x hx)⟩, ?_,
      h₁.baseline⟩, fun x hx => hfollows.lawful.stored x ?_⟩
    · rw [hsite, h₁.file]
    · rw [hsite]
      exact ((mem_loadCommits hserves.1.2).1 x hx).1
  rintro realm₂ s₂ commits ⟨h₂, hloaded⟩
  refine Comp.wp_modify.mpr ⟨⟨h₂.hosts.lawful, fun x hx => ?_⟩, h₂.file, h₂.baseline⟩
  rcases KeyedMap.mem_of_mem_insertAll hx with hx | hx
  · exact h₂.hosts.held x hx
  · exact hloaded x hx

/-- What is settled and enlisted after a plan was carried out is an outcome. -/
theorem Settles.outcome {plan : List PlanOperation} {request : SyncRequest} {site : Site}
    {s s' : RuntimeState} (hscope : key.scopeId ∈ request.scopes)
    (hdistinct : (plan.map PlanOperation.key).Nodup) (hsettles : Settles key plan site s')
    (henlists : Enlists key (s.recordConflicts request plan) s') : Outcome key site s' := by
  have hplanned : ∀ record ∈ s'.conflicts, record.resource = key → .conflict record ∈ plan := by
    intro record hr hres
    rcases KeyedMap.mem_of_mem_insertAll (henlists.1 record hr hres) with hkept | hr
    · have hout := (KeyedMap.mem_retain.mp hkept).2
      rw [decide_eq_true_iff, hres] at hout
      exact absurd hscope hout
    · exact mem_plannedRecords.mp hr
  rcases hsettles with ⟨hagrees, hcalm⟩ | ⟨hvouched, record, hmem, hres, hplans⟩
  · exact Or.inl ⟨hagrees, fun record hr hres => hcalm record (hplanned record hr hres) hres⟩
  · refine Or.inr ⟨hvouched, record, hres, hplans, henlists.2 _ ?_, fun other hr hother => ?_⟩
    · exact KeyedMap.isSome_get?_insertAll_of_mem (mem_plannedRecords.mpr hmem)
    · have hsame := List.inj_on_of_nodup_map hdistinct (hplanned other hr hother) hmem
        (hother.trans hres.symm)
      exact PlanOperation.conflict.inj hsame

/-- A `reconcile` that reports no failure brings a binary resource to agreement with its heads,
or leaves the one conflict that the planner finds on it. -/
theorem reconcile_outcome (hcol : Collisionless) (hcdc : FastcdcTiles) (hhosts : realm.Hosts S s)
    (hkind : S.kindOf key = .binary) (hvouched : realm.site.files.Vouched s key) (rt : SyncRuntime)
    {request : SyncRequest} (hscope : key.scopeId ∈ request.scopes) (hown : key.Own request.scopes) :
    Concludes S (Rollforward.reconcile rt request) (fun realm' s' report =>
      0 < report.failures ∨ Outcome key realm'.site s') realm s := by
  have hin : inScopes request.scopes key.scopeId = true := by
    rw [inScopes, decide_eq_true hscope, Bool.or_true]
  rw [Rollforward.reconcile]
  refine Comp.wp_bind.mpr (Comp.wp_modify.mpr ?_)
  have hcleared : realm.Hosts S { s with activeRun := none } := ⟨hhosts.lawful, hhosts.held⟩
  have hrefresh : Concludes S (refreshRemote request.scopes) (fun realm' s' _ =>
      Planning S key realm { s with activeRun := none } realm' s') realm _ :=
    refreshRemote_planning hcleared request.scopes
  refine hrefresh.bind ?_
  intro realm₁ s₁ _ h₁
  have hsnapshots : Sparing key (snapshotLargeCatalogs rt) := snapshotLargeCatalogs_sparing rt
  have hboth : Returns S (snapshotLargeCatalogs rt) _ realm₁.site s₁ :=
    Comp.wp_and hsnapshots.returns (snapshotLargeCatalogs_commits rt)
  refine (hboth.concludes h₁.hosts.lawful).bind ?_
  rintro realm₂ s₂ _ ⟨⟨hs₂, hcommits₂⟩, hfollows₂⟩
  have hhosts₂ := h₁.hosts.follows hfollows₂ hcommits₂
  have hvouched₂ : realm₂.site.files.Vouched s₂ key :=
    (h₁.vouched hvouched).spared h₁.hosts.created hs₂
  refine ((localInventory_returns _).concludes hhosts₂.lawful).bind ?_
  rintro realm₃ s₃ locals ⟨⟨hsite₃, rfl, hinv⟩, hfollows₃⟩
  have hhosts₃ : realm₃.Hosts S s₃ := hhosts₂.follows hfollows₃ rfl
  rw [← hsite₃] at hvouched₂ hinv
  refine Comp.wp_bind.mpr (Comp.wp_modify.mpr (Comp.wp_bind.mpr (Comp.wp_get.mpr
    (Comp.wp_bind.mpr (Comp.wp_ofExcept.mpr ⟨fun plan hbuilt => ?_, fun _ _ => trivial⟩)))))
  have hhosts₄ : realm₃.Hosts S (s₃.recordKinds locals) := ⟨hhosts₃.lawful, hhosts₃.held⟩
  have hvouched₄ : realm₃.site.files.Vouched (s₃.recordKinds locals) key := hvouched₂
  have hinv₄ : Inventory S realm₃.site.files request.scopes (s₃.recordKinds locals) locals :=
    ⟨hinv.shown, hinv.complete⟩
  have hname : ∀ operation ∈ plan, operation.key.encoded = key.encoded → operation.key = key :=
    fun operation hop => hown _ (mem_buildPlan_scoped hbuilt (fun r hr => (hinv.shown r hr).1) hop).1
  have hdistinct := buildPlan_nodup hbuilt
  have hsettles : Concludes S (execute rt request locals plan) _ realm₃ (s₃.recordKinds locals) :=
    execute_settles hcol hcdc hhosts₄ hkind hdistinct hname (hinv₄.stateOf hin hvouched₄)
      (fun operation hop e => by
        subst e
        exact plans_of_mem hbuilt hinv₄ hop hkind hvouched₄)
      (fun hnone => agrees_of_unplanned hbuilt hinv₄ hin hnone) hvouched₄ rt request
  have henlists : Returns S (execute rt request locals plan) _ realm₃.site (s₃.recordKinds locals) :=
    execute_enlists hkind rt request locals plan
  refine Comp.wp_imp (Comp.wp_and hsettles (henlists.concludes hhosts₄.lawful)) ?_
  rintro realm' s' report ⟨hor, hlists, -⟩
  exact hor.imp_right fun hsettles => hsettles.outcome hscope hdistinct hlists

end Reconcile

section Calls

variable [Crates] {S : Setting} {w w' : World} {c : String} {ok : World → Label → Prop}
variable {s : RuntimeState} {request : SyncRequest} {report : SyncReport} {key : ResourceKey}

/-- A `reconcile` of `c` that returns a report, with nobody else moving. -/
structure World.Reconciles (S : Setting) (c : String) (request : SyncRequest) (w w' : World)
    (s : RuntimeState) (report : SyncReport) : Prop where
  calls : World.Calls S c (.reconcile request) w w' s
  reports : Prog.Exec AnyAnswer [] (Rollforward.reconcile ⟨c, S.policy c⟩ request (w.memory c))
    (w'.clients c).trace s (.ok report)

/-- A `reconcile` keeps what it promises, and the report goes with it. -/
theorem World.Calls.reconciles (hcall : World.Calls S c (.reconcile request) w w' s)
    (hcol : Collisionless) (hcdc : FastcdcTiles) (hw : w.Reachable S ok)
    {Q : Realm → RuntimeState → SyncReport → Prop}
    (hx : Concludes S (Rollforward.reconcile ⟨c, S.policy c⟩ request) Q (w.realm c) (w.memory c)) :
    ∃ report, World.Reconciles S c request w w' s report ∧ Q (w'.realm c) s report := by
  have hstep : ∀ {w w' : World} {l : Label}, w.Reachable S (fun _ _ => True) →
      w.step S l = some w' → w'.Reachable S (fun _ _ => True) :=
    fun hw hs => .tail hw ⟨_, trivial, hs⟩
  have hends := hcall.meets_run hstep (hw.mono fun _ _ _ => trivial)
    (fun w => (w.realm c, (w.clients c).trace))
    (T := fun x e y => Realm.Serves S x.1 e y.1 ∧ y.2 = e :: x.2) (C := fun _ _ _ => True)
    (Q := fun x s r => r = .ok () → ∃ report, Q x.1 s report ∧ Prog.Exec AnyAnswer []
      (Rollforward.reconcile ⟨c, S.policy c⟩ request (w.memory c)) x.2 s (.ok report)) ?_ ?_
  · obtain ⟨report, hq, hexec⟩ := hends rfl
    exact ⟨report, ⟨hcall, hexec⟩, hq⟩
  · intro w s q k a r w₁ hw _ hr hnext
    have hafter : (w₁.resume c s q r (k r)).realm c = w₁.realm c := World.realm_setClient w₁ _ rfl
    have htrace : ((w₁.resume c s q r (k r)).clients c).trace = ⟨s, q, r⟩ :: (w.clients c).trace := by
      obtain ⟨hans, -⟩ := World.respond_fair (hw.relies c).files hw.inv.objects hr
      rw [World.resume, World.setClient_self, hans.trace]
    refine ⟨?_, htrace⟩
    rw [hafter]
    exact World.respond_realm hr (hafter ▸ hnext.lawful hcol hcdc c)
  · have hstarted : ((w.setClient c ((w.clients c).start ⟨c, S.policy c⟩
        (.reconcile request))).realm c) = w.realm c := World.realm_setClient w _ rfl
    rw [hstarted, World.setClient_self]
    have hwp : Comp.wp _ _ _ ((Command.reconcile request).run ⟨c, S.policy c⟩) (fun x s _ =>
        ∃ report, Q x.1 s report ∧ Prog.Exec AnyAnswer []
          (Rollforward.reconcile ⟨c, S.policy c⟩ request (w.memory c)) x.2 s (.ok report))
        (w.realm c, []) (w.memory c) :=
      Comp.wp_bind.mpr (Comp.wp_imp (Comp.wp_traced hx []) fun _ _ report h => ⟨report, h⟩)
    refine Prog.Meets.imp hwp (fun _ _ _ _ => trivial) ?_
    rintro x s (e | a) hq hr
    · cases hr
    · exact hq

theorem World.Reconciles.concludes (hcall : World.Reconciles S c request w w' s report)
    (hcol : Collisionless) (hcdc : FastcdcTiles) (hw : w.Reachable S ok)
    {Q : Realm → RuntimeState → SyncReport → Prop}
    (hx : Concludes S (Rollforward.reconcile ⟨c, S.policy c⟩ request) Q (w.realm c) (w.memory c)) :
    Q (w'.realm c) s report := by
  obtain ⟨report', hother, hq⟩ := hcall.calls.reconciles hcol hcdc hw hx
  have hsame := Prog.Exec.determined hcall.reports List.suffix_rfl hother.reports List.suffix_rfl
  rwa [Except.ok.inj hsame.2.2]

theorem World.Reconciles.memory (hcall : World.Reconciles S c request w w' s report) :
    w'.memory c = s := by
  rw [World.memory, Client.memory, hcall.calls.returned]
  rfl

/-- Where a host's tokens tell versions apart, a `reconcile` with nobody else moving that reports
no failure leaves every binary resource of its scopes as its heads have it, with no conflict, or
with the one conflict that the planner finds on it. -/
theorem World.reconcile_settles_all (hcol : Collisionless) (hcdc : FastcdcTiles)
    (hw : w.Reachable S ok) (hapart : TellsApart (w.clients c).versions)
    (hcall : World.Reconciles S c request w w' s report) (hok : report.failures = 0)
    (hkind : S.kindOf key = .binary) (hscope : key.scopeId ∈ request.scopes)
    (hown : key.Own []) : Outcome key (w'.site c) s := by
  obtain ⟨w₁, hstart, -⟩ := hcall.calls.run
  have hvouched := hw.vouched hcol hcdc hapart hkind hown hstart
  refine (hcall.concludes hcol hcdc hw (Q := fun realm' s' report => 0 < report.failures ∨
    Outcome key realm'.site s') ?_).resolve_left (hok ▸ Nat.lt_irrefl 0)
  exact reconcile_outcome hcol hcdc (hw.hosts hcol hcdc c) hkind hvouched _ hscope
    fun other _ => hown other rfl

end Calls

section Players

open Sample

variable [Crates] {S : Setting} {c : String}

/-- Answer the calls of a program that `c` runs, with `f` to be done after it. -/
def follow (S : Setting) (c : String)
    (f : RuntimeState → Except SyncError α → Prog host RuntimeState (Except SyncError Unit)) :
    Nat → Prog host RuntimeState (Except SyncError α) → World → Option (World × Except SyncError α)
  | _, .done _ a, w => some (w, a)
  | clock, .call s q k, w => (w.respond S c s q (reply clock q)).bind fun (r, w₁) =>
    follow S c f (clock + 1) (k r) (w₁.resume c s q r ((k r).bind f))

theorem follow_spec
    {f : RuntimeState → Except SyncError α → Prog host RuntimeState (Except SyncError Unit)}
    {p : Prog host RuntimeState (Except SyncError α)} {clock : Nat} {w w' : World}
    {a : Except SyncError α} (hw : w.Reachable S fun _ _ => True)
    (hp : (w.clients c).prog = p.bind f) (h : follow S c f clock p w = some (w', a)) :
    Relation.ReflTransGen (World.Next S (World.Alone c)) w w' ∧
      ∃ s, (w'.clients c).prog = f s a ∧
        Prog.Exec AnyAnswer (w.clients c).trace p (w'.clients c).trace s a := by
  induction p generalizing clock w with
  | done s b =>
    obtain ⟨rfl, rfl⟩ := Prod.mk.inj (Option.some.inj h)
    exact ⟨.refl, s, hp, .done⟩
  | call s q k ih =>
    obtain ⟨⟨r, w₁⟩, hr, hrest⟩ := Option.bind_eq_some_iff.mp h
    have hstep : w.step S (.answer c (reply clock q)) = some (w₁.resume c s q r ((k r).bind f)) := by
      rw [World.step, World.answer, hp]
      change (w.respond S c s q (reply clock q)).map _ = _
      rw [hr]
      rfl
    have hnext := Relation.ReflTransGen.tail hw ⟨_, trivial, hstep⟩
    obtain ⟨hrun, s', hprog, hexec⟩ := ih r hnext (World.setClient_self .. ▸ rfl) hrest
    refine ⟨.head ⟨.answer c (reply clock q), rfl, hstep⟩ hrun, s', hprog, .call ⟨?_, trivial⟩ hexec⟩
    obtain ⟨hans, -⟩ := World.respond_fair (World.Reachable.relies hw c).files
      (World.Reachable.inv hw).objects hr
    rw [World.resume, World.setClient_self, hans.trace]

/-- What is done once the report is there. -/
def dropReport (s : RuntimeState) (r : Except SyncError SyncReport) :
    Prog host RuntimeState (Except SyncError Unit) :=
  match r with
  | .ok _ => .done s (.ok ())
  | .error e => .done s (.error e)

/-- A `reconcile` with nobody else moving. -/
def reconcileAt (S : Setting) (c : String) (request : SyncRequest) (clock : Nat) (w : World) :
    Option (World × SyncReport) :=
  (w.step S (.start c (.reconcile request))).bind fun w₁ =>
    (follow S c dropReport clock (Rollforward.reconcile ⟨c, S.policy c⟩ request (w.memory c))
      w₁).bind fun (w₂, r) => r.toOption.map fun report => (w₂, report)

theorem reconciles_of_reconcileAt {request : SyncRequest} {clock : Nat} {w w' : World}
    {report : SyncReport} (hw : w.Reachable S fun _ _ => True)
    (h : reconcileAt S c request clock w = some (w', report)) :
    w'.Reachable S (fun _ _ => True) ∧ ∃ s, World.Reconciles S c request w w' s report := by
  obtain ⟨w₁, hstarted, h⟩ := Option.bind_eq_some_iff.mp h
  obtain ⟨⟨w₂, r⟩, hrun, h⟩ := Option.bind_eq_some_iff.mp h
  obtain ⟨report', hr, he⟩ := Option.map_eq_some_iff.mp h
  obtain ⟨rfl, rfl⟩ := Prod.mk.inj he
  obtain rfl := World.start_cases hstarted
  have hprog : (((w.setClient c ((w.clients c).start ⟨c, S.policy c⟩ (.reconcile request))).clients
      c).prog) = (Rollforward.reconcile ⟨c, S.policy c⟩ request (w.memory c)).bind dropReport := by
    rw [World.setClient_self]
    refine congrArg (Prog.bind _) (funext fun s => funext fun r => ?_)
    cases r <;> rfl
  have hreach := Relation.ReflTransGen.tail hw ⟨_, trivial, hstarted⟩
  obtain ⟨halone, s, hdone, hexec⟩ := follow_spec hreach hprog hrun
  cases r with
  | error e => cases hr
  | ok report =>
    obtain rfl : report = report' := Option.some.inj hr
    have hafter : w₂.Reachable S fun _ _ => True := Relation.ReflTransGen.trans hreach
      (Relation.ReflTransGen.mono (fun _ _ ⟨l, _, hs⟩ => ⟨l, trivial, hs⟩) _ _ halone)
    refine ⟨hafter, s, ⟨⟨_, hstarted, halone⟩, hdone⟩, ?_⟩
    rwa [World.setClient_self] at hexec

/-- A script, and then a `reconcile`. -/
theorem exists_reconciles (lines : List Line) (c : String) (request : SyncRequest)
    (p : World → World → SyncReport → Bool) (h : ((play S (fun _ _ => True) lines 0 {}).any fun w =>
      (reconcileAt S c request 5000 w).any fun (w', report) => p w w' report) = true) :
    ∃ w w' s report, w.Reachable S (fun _ _ => True) ∧
      World.Reconciles S c request w w' s report ∧ p w w' report = true := by
  obtain ⟨w, hw, h⟩ := (Option.any_eq_true _ _).mp h
  obtain ⟨⟨w', report⟩, hrun, hp⟩ := (Option.any_eq_true _ _).mp h
  obtain ⟨-, s, hcall⟩ := reconciles_of_reconcileAt (play_reach hw) hrun
  exact ⟨w, w', s, report, play_reach hw, hcall, hp⟩

end Players

section Scripts

open Sample

attribute [local instance] spelled

/-- `B` has a version of a binary file that `A` has not seen, and `A` one of another. -/
theorem World.reconcile_settles_all_download : ∃ w w' s report,
    World.Reconciles {} "A" ⟨["s"]⟩ w w' s report ∧
      (w.site "A").files[key "b"]? = none ∧
      (w'.site "A").files[key "b"]?.bind File.data = some (textBytes "2") ∧
      Outcome (key "b") (w'.site "A") s := by
  obtain ⟨w, w', s, report, hw, hcall, hp⟩ := exists_reconciles (S := {})
    (upload "B" "b" "2" "t1" ++ [.step (.edit "A" (key "a") (text "1" "t1"))]) "A" ⟨["s"]⟩
    (fun w w' report => report.failures = 0 ∧ TellsApart (w.clients "A").versions ∧
      (w.clients "A").files[key "b"]? = none ∧
      (w'.site "A").files[key "b"]?.bind File.data = some (textBytes "2"))
    (by decide +kernel)
  obtain ⟨hok, hapart, hbefore, hafter⟩ := of_decide_eq_true hp
  refine ⟨w, w', s, report, hcall, hbefore, hafter, ?_⟩
  exact World.reconcile_settles_all spelled_collisionless spelled_fastcdcTiles hw hapart hcall hok
    rfl List.mem_cons_self (ResourceKey.own_of_plain (by decide) (by decide))

end Scripts

end Rollforward
