import Rollforward.Heads
import Rollforward.Rounds

/-! What `maintain` decides about each resource, and the compactions that follow from it.
The decisions are about the memory as it is after the refresh that `maintain` starts with. -/

namespace Rollforward

open Std Lib

variable [Crates]

/-- The decision about one resource: leave it, publish a checkpoint over its head, or cut
its history under the checkpoint. -/
inductive Verdict
  | keep
  | checkpoint (commit : Commit)
  | truncate (checkpoint : String)

abbrev Verdicts := List (ResourceKey × Verdict)

/-- What is true of a decision about `key` that was made on `m`. -/
def Verdict.Fits (rt : SyncRuntime) (versions : Nat) (m : RuntimeState) (key : ResourceKey) :
    Verdict → Prop
  | .keep => True
  | .checkpoint x => versions < (m.resourceCommits key).length ∧ x.resource = key ∧
      x.author = rt.clientId ∧ m.commits.get? x.id = none ∧
      ∃ head, m.heads key = [head] ∧ x.parents = sortDedup [head]
  | .truncate _ => versions < (m.resourceCommits key).length ∧ ∃ head, m.heads key = [head]

/-- How the decision about `key` comes about in memory `s`. -/
def Verdict.Decided (rt : SyncRuntime) (acks : List ResourceAck) (s : RuntimeState)
    (key : ResourceKey) : Verdict → Prop
  | .keep => True
  | .checkpoint _ => s.conflicted key = false ∧ s.resourceKind key ≠ .text
  | .truncate id => s.conflicted key = false ∧ s.resourceKind key ≠ .text ∧
      (s.checkpoints.get? key.encoded).map StoredCheckpoint.commitId = some id ∧
      s.allAcknowledged rt acks key id = true

namespace Verdicts

def checkpoints (vs : Verdicts) : List Commit :=
  vs.filterMap fun (_, verdict) =>
    match verdict with
    | .checkpoint commit => some commit
    | _ => none

/-- The ids given up in a scope. -/
def obsolete (vs : Verdicts) (m : RuntimeState) (versions : Nat) (acks : List ResourceAck)
    (scope : String) : List String :=
  vs.flatMap fun (key, verdict) =>
    match verdict with
    | .truncate checkpoint =>
      if key.scopeId = scope then m.obsolete versions acks key checkpoint else []
    | _ => []

theorem mem_checkpoints {vs : Verdicts} {x : Commit} :
    x ∈ vs.checkpoints ↔ ∃ key, (key, Verdict.checkpoint x) ∈ vs := by
  simp only [checkpoints, List.mem_filterMap, Prod.exists]
  constructor
  · rintro ⟨key, verdict, hv, hx⟩
    cases verdict with
    | checkpoint commit => exact ⟨key, Option.some.inj hx ▸ hv⟩
    | keep => cases hx
    | truncate => cases hx
  · rintro ⟨key, hv⟩
    exact ⟨key, _, hv, rfl⟩

theorem checkpoints_append (vs : Verdicts) (key : ResourceKey) (x : Commit) :
    (vs ++ [(key, Verdict.checkpoint x)]).checkpoints = vs.checkpoints ++ [x] := by
  rw [checkpoints, List.filterMap_append]
  rfl

theorem mem_obsolete {vs : Verdicts} {m : RuntimeState} {versions : Nat} {acks : List ResourceAck}
    {scope id : String} : id ∈ vs.obsolete m versions acks scope ↔
      ∃ key checkpoint, (key, Verdict.truncate checkpoint) ∈ vs ∧ key.scopeId = scope ∧
        id ∈ m.obsolete versions acks key checkpoint := by
  simp only [obsolete, List.mem_flatMap, Prod.exists]
  constructor
  · rintro ⟨key, verdict, hv, hid⟩
    cases verdict with
    | truncate checkpoint =>
      dsimp only at hid
      split at hid
      · next hscope => exact ⟨key, checkpoint, hv, hscope, hid⟩
      · cases hid
    | keep => cases hid
    | checkpoint => cases hid
  · rintro ⟨key, checkpoint, hv, hscope, hid⟩
    refine ⟨key, _, hv, ?_⟩
    dsimp only
    rwa [if_pos hscope]

end Verdicts

/-- A batch brings no other commit under an id that its client holds. -/
def SameIds : SyncEvent → Prop
  | ⟨s, .commitBatch batch, .ok _⟩ => ∀ x ∈ batch.commits, ∀ y ∈ s.commits, y.id = x.id → y = x
  | _ => True

/-- `m` is the memory that a refresh of every scope, the first two calls after `h₀`, left. -/
inductive Caught (h₀ : List SyncEvent) : List SyncEvent → RuntimeState → Prop
  | mk {s s' ids commits delta} : Caught h₀ (⟨s', .loadCommits ids, .ok commits⟩ ::
      ⟨s, .scanCatalog ⟨[], s.cursors⟩, .ok delta⟩ :: h₀) (s'.absorb commits delta)

/-- The survey has decided about the keys of `vs`, and published since `h₀` what it decided. -/
structure Surveyed (rt : SyncRuntime) (versions : Nat) (acks : List ResourceAck)
    (h₀ : List SyncEvent) (m : RuntimeState) (vs : Verdicts) (h : List SyncEvent)
    (s : RuntimeState) (survey : Survey) : Prop where
  fits : ∀ key verdict, (key, verdict) ∈ vs → verdict.Fits rt versions m key
  commits : s.commits = m.commits.insertAll vs.checkpoints
  cursors : s.cursors = m.cursors
  obsolete : ∀ scope, survey.obsoleteByScope[scope]?.getD [] = vs.obsolete m versions acks scope
  own : ∀ x, x ∈ ownCommits h ↔ x ∈ ownCommits h₀ ∨ x ∈ vs.checkpoints

section Survey

variable {rt : SyncRuntime} {versions : Nat} {acks : List ResourceAck} {m s t : RuntimeState}
variable {vs : Verdicts} {survey : Survey} {key : ResourceKey} {h₀ h h' : List SyncEvent}

theorem resourceCommits_congr (hres : ∀ x : Commit, x.resource = key →
    (x ∈ s.commits ↔ x ∈ t.commits)) : s.resourceCommits key = t.resourceCommits key := by
  refine KeyedMap.filter_values_congr fun x hx => ?_
  exact hres x (of_decide_eq_true hx)

theorem heads_of_resourceCommits (hres : s.resourceCommits key = t.resourceCommits key) :
    s.heads key = t.heads key := by
  rw [RuntimeState.heads, hres, ← RuntimeState.heads]

theorem obsolete_of_resourceCommits (hres : s.resourceCommits key = t.resourceCommits key)
    (checkpoint : String) :
    s.obsolete versions acks key checkpoint = t.obsolete versions acks key checkpoint := by
  rw [RuntimeState.obsolete, RuntimeState.retained, hres, ← RuntimeState.retained,
    ← RuntimeState.obsolete]

/-- Other resources are as they were: checkpoints are new commits of decided keys. -/
theorem Surveyed.resourceCommits (hs : Surveyed rt versions acks h₀ m vs h s survey)
    (hnew : key ∉ vs.map Prod.fst) : s.resourceCommits key = m.resourceCommits key := by
  refine resourceCommits_congr fun x hx => ?_
  rw [hs.commits]
  constructor
  · intro hmem
    refine (KeyedMap.mem_of_mem_insertAll hmem).resolve_right fun hcp => hnew ?_
    obtain ⟨key', hv⟩ := Verdicts.mem_checkpoints.mp hcp
    obtain ⟨-, hr, -⟩ := hs.fits key' _ hv
    exact List.mem_map.mpr ⟨_, hv, hr.symm.trans hx⟩
  · intro hmem
    refine KeyedMap.mem_insertAll_of_new hmem fun y hy e => ?_
    obtain ⟨key', hv⟩ := Verdicts.mem_checkpoints.mp hy
    obtain ⟨-, -, -, hnone, -⟩ := hs.fits key' _ hv
    rw [e, KeyedMap.mem_def.mp hmem] at hnone
    cases hnone

theorem Surveyed.keep (hs : Surveyed rt versions acks h₀ m vs h s survey)
    (hcommits : t.commits = s.commits) (hcursors : t.cursors = s.cursors) {survey' : Survey}
    (hsurvey : survey'.obsoleteByScope = survey.obsoleteByScope) :
    Surveyed rt versions acks h₀ m (vs ++ [(key, .keep)]) h t survey' where
  fits key' verdict hv := by
    rcases List.mem_append.mp hv with hv | hv
    · exact hs.fits key' verdict hv
    · rw [(Prod.mk.inj (List.mem_singleton.mp hv)).2]
      trivial
  commits := by
    rw [hcommits, hs.commits]
    simp [Verdicts.checkpoints]
  cursors := hcursors.trans hs.cursors
  obsolete scope := by
    rw [hsurvey, hs.obsolete]
    simp [Verdicts.obsolete]
  own x := by
    rw [hs.own]
    simp [Verdicts.checkpoints]

theorem Surveyed.checkpoint (hs : Surveyed rt versions acks h₀ m vs h s survey) {x : Commit}
    (hcommits : t.commits = s.commits.insert x) (hcursors : t.cursors = s.cursors)
    (hown : ownCommits h' = x :: ownCommits h)
    {survey' : Survey} (hsurvey : survey'.obsoleteByScope = survey.obsoleteByScope)
    (hfits : (Verdict.checkpoint x).Fits rt versions m key) :
    Surveyed rt versions acks h₀ m (vs ++ [(key, .checkpoint x)]) h' t survey' where
  fits key' verdict hv := by
    rcases List.mem_append.mp hv with hv | hv
    · exact hs.fits key' verdict hv
    · obtain ⟨rfl, rfl⟩ := Prod.mk.inj (List.mem_singleton.mp hv)
      exact hfits
  commits := by
    rw [hcommits, hs.commits, Verdicts.checkpoints_append, KeyedMap.insertAll_append]
    rfl
  cursors := hcursors.trans hs.cursors
  obsolete scope := by
    rw [hsurvey, hs.obsolete]
    simp [Verdicts.obsolete]
  own y := by
    rw [hown, Verdicts.checkpoints_append, List.mem_cons, hs.own, List.mem_append,
      List.mem_singleton]
    tauto

theorem Surveyed.truncate (hs : Surveyed rt versions acks h₀ m vs h s survey)
    {checkpoint : String} (hfits : (Verdict.truncate checkpoint).Fits rt versions m key) :
    Surveyed rt versions acks h₀ m (vs ++ [(key, .truncate checkpoint)]) h s
      (survey.add key.scopeId (m.obsolete versions acks key checkpoint)) where
  fits key' verdict hv := by
    rcases List.mem_append.mp hv with hv | hv
    · exact hs.fits key' verdict hv
    · obtain ⟨rfl, rfl⟩ := Prod.mk.inj (List.mem_singleton.mp hv)
      exact hfits
  commits := by
    rw [hs.commits]
    simp [Verdicts.checkpoints]
  cursors := hs.cursors
  obsolete scope := by
    rw [Survey.add, Map.get?_insert, Verdicts.obsolete, List.flatMap_append, ← Verdicts.obsolete,
      ← hs.obsolete]
    by_cases hscope : key.scopeId = scope
    · simp [hscope]
    · simp [hscope]
  own x := by
    rw [hs.own]
    simp [Verdicts.checkpoints]

end Survey

/-- Any call but a compaction. -/
def NoCompaction : Req → Prop
  | .compactCatalog _ => False
  | _ => True

theorem Quiet.noCompaction {q : Req} (hq : Quiet q) : NoCompaction q := by
  cases q <;> first | exact trivial | exact hq.elim

/-- The ids that were handed to `compact_catalog` so far. -/
def handed : List SyncEvent → List String
  | [] => []
  | ⟨_, .compactCatalog compaction, .ok _⟩ :: h => handed h ++ compaction.obsoleteCommitIds
  | _ :: h => handed h

theorem NoCompaction.handed {q : Req} (hq : NoCompaction q) {s : RuntimeState} {r : q.Resp}
    {h : List SyncEvent} : Rollforward.handed (⟨s, q, r⟩ :: h) = Rollforward.handed h := by
  cases q <;> first | rfl | exact hq.elim

theorem handed_cons (e : SyncEvent) (h : List SyncEvent) :
    handed (e :: h) = handed h ++ handed [e] := by
  obtain ⟨t, q, r⟩ := e
  cases q with
  | compactCatalog compaction => cases r <;> simp [handed]
  | _ => simp [handed]

theorem NoBatch.ownCommits {q : Req} (hq : NoBatch q) {s : RuntimeState} {r : q.Resp}
    {h : List SyncEvent} : Rollforward.ownCommits (⟨s, q, r⟩ :: h) = Rollforward.ownCommits h := by
  cases q <;> first | rfl | exact hq.elim

/-- Any call but a deletion of packs. -/
def NoDeletion : Req → Prop
  | .deletePackObjects _ => False
  | _ => True

/-- Any call but a compaction or a deletion. -/
def Tame (q : Req) : Prop := NoCompaction q ∧ NoDeletion q

/-- What the survey of a resource leaves alone. -/
structure SameBooks (key : ResourceKey) (s t : RuntimeState) : Prop where
  kinds : t.kinds = s.kinds
  conflicts : t.conflicts = s.conflicts
  activeRun : t.activeRun = s.activeRun
  retired : t.retiredClients = s.retiredClients
  checkpoints : ∀ name ≠ key.encoded, t.checkpoints.get? name = s.checkpoints.get? name

instance (key : ResourceKey) : IsPreorder RuntimeState (SameBooks key) where
  refl _ := ⟨rfl, rfl, rfl, rfl, fun _ _ => rfl⟩
  trans _ _ _ hst htu := ⟨htu.kinds.trans hst.kinds, htu.conflicts.trans hst.conflicts,
    htu.activeRun.trans hst.activeRun, htu.retired.trans hst.retired,
    fun name hne => (htu.checkpoints name hne).trans (hst.checkpoints name hne)⟩

theorem IsRead.tame {q : Req} (hq : IsRead q) : Tame q := by
  cases q <;> first | exact ⟨trivial, trivial⟩ | exact hq.elim

section Footprints

theorem Reads.tame {R : RuntimeState → RuntimeState → Prop} [IsPreorder RuntimeState R]
    {x : Sync α} (hx : Reads x) : Comp.Within Tame R x :=
  Comp.Within.mono hx (fun _ => IsRead.tame) fun s _ e => e ▸ refl_of R s

theorem nextCounter_tame (key : ResourceKey) : Comp.Within Tame (SameBooks key) nextCounter :=
  .bind (.modify fun _ => ⟨rfl, rfl, rfl, rfl, fun _ _ => rfl⟩) fun _ => .bind .get fun _ => .pure _

theorem publishCommit_tame (rt : SyncRuntime) (key : ResourceKey) (parents : List String)
    (counter : Nat) (change : ResourceChange) (batch : CommitBatch) :
    Comp.Within Tame (SameBooks key) (publishCommit rt key parents counter change batch) :=
  .bind (.request ⟨trivial, trivial⟩ _) fun _ => .bind (.request ⟨trivial, trivial⟩ _) fun _ =>
    .bind (.modify fun _ => ⟨rfl, rfl, rfl, rfl, fun _ _ => rfl⟩) fun _ => .pure _

theorem publishCheckpoint_tame (rt : SyncRuntime) (key : ResourceKey) (head : String) :
    Comp.Within Tame (SameBooks key) (publishCheckpoint rt key head) := by
  refine .bind .get fun state => ?_
  split
  · exact .throw _
  split
  · exact .bind (nextCounter_tame key) fun _ => publishCommit_tame _ _ _ _ _ _
  · exact .bind (contentForRemote_reads _ _).tame fun _ =>
      .bind (nextCounter_tame key) fun _ =>
      .bind (prepareChange_reads _ _ _).tame fun _ => publishCommit_tame _ _ _ _ _ _

theorem dropCheckpoint_books (key : ResourceKey) (s : RuntimeState) :
    SameBooks key s (s.dropCheckpoint key) := by
  refine ⟨rfl, rfl, rfl, rfl, fun name hne => ?_⟩
  rw [RuntimeState.dropCheckpoint, KeyedMap.get?_erase, if_neg hne.symm]

theorem surveyKey_tame (rt : SyncRuntime) (versions : Nat) (acks : List ResourceAck)
    (survey : Survey) (key : ResourceKey) :
    Comp.Within Tame (SameBooks key) (surveyKey rt versions acks survey key) := by
  refine .bind .get fun state => ?_
  split
  · exact .bind (.modify (dropCheckpoint_books key)) fun _ => .pure _
  split
  · exact .pure _
  split
  · refine .bind (.bind (publishCheckpoint_tame _ _ _) fun commit =>
      .bind (.modify fun s => ⟨rfl, rfl, rfl, rfl, fun name hne => ?_⟩) fun _ =>
        .request ⟨trivial, trivial⟩ _) fun _ => .pure _
    exact (KeyedMap.get?_insert ..).trans (if_neg hne.symm)
  split
  · exact .pure _
  dsimp only
  split
  · exact .bind (.modify (dropCheckpoint_books key)) fun _ => .pure _
  · exact .pure _

theorem refreshRemote_tame (scopes : List String) :
    Comp.Within Tame Anyhow (refreshRemote scopes) :=
  .bind .get fun _ => .bind (.request ⟨trivial, trivial⟩ _) fun _ =>
    .bind (.modify fun _ => trivial) fun _ => .bind .get fun _ =>
    .bind (.request ⟨trivial, trivial⟩ _) fun _ => .modify fun _ => trivial

theorem compactScope_noBatch (rt : SyncRuntime) (report : V2MaintenanceReport)
    (entry : String × List String) : Comp.Within NoBatch Anyhow (compactScope rt report entry) :=
  .bind .get fun _ => .bind (.request (by exact trivial) _) fun _ =>
    .bind (.request (by exact trivial) _) fun _ => .bind (.modify fun _ => trivial) fun _ => .pure _

theorem Tame.noCompaction {R : RuntimeState → RuntimeState → Prop} {x : Sync α}
    (hx : Comp.Within Tame R x) : Comp.Within NoCompaction Anyhow x :=
  Comp.Within.mono hx (fun _ hq => hq.1) fun _ _ _ => trivial

theorem Tame.noDeletion {R : RuntimeState → RuntimeState → Prop} {x : Sync α}
    (hx : Comp.Within Tame R x) : Comp.Within NoDeletion Anyhow x :=
  Comp.Within.mono hx (fun _ hq => hq.2) fun _ _ _ => trivial

theorem Silent.noBatch {x : Sync α} (hx : Silent x) : Comp.Within NoBatch Anyhow x :=
  Comp.Within.mono hx (fun _ => Quiet.noBatch) fun _ _ _ => trivial

theorem Silent.noCompaction {x : Sync α} (hx : Silent x) : Comp.Within NoCompaction Anyhow x :=
  Comp.Within.mono hx (fun _ => Quiet.noCompaction) fun _ _ _ => trivial

/-- What is read off the calls made so far, and not off those in `K`. -/
theorem traced_of_within {K : Req → Prop} {x : Sync α} (hx : Comp.Within K Anyhow x)
    {f : List SyncEvent → β} (hf : ∀ {q : Req}, K q → ∀ {s : RuntimeState} {r : q.Resp}
      {h : List SyncEvent}, f (⟨s, q, r⟩ :: h) = f h)
    {F : SyncEvent → Prop} {C : List SyncEvent → RuntimeState → Req → Prop}
    (hC : ∀ h s q, K q → C h s q) (h : List SyncEvent) (s : RuntimeState) :
    Comp.wp (Prog.fairly F) C (fun _ _ _ => True) x (fun h' _ _ => f h' = f h) h s := by
  refine Comp.wp_mono (hx.wp (J := fun h' _ => f h' = f h)
    (fun _ _ _ hj _ => hj) (fun h s q _ hq => hC h s q hq) ?_ rfl) (fun _ _ _ _ => trivial)
    fun _ _ _ hj => hj
  rintro h₁ s₁ q r _ hj hq ⟨rfl, -⟩
  rw [hf hq, hj]

/-- What makes no compaction hands nothing over. -/
theorem handed_of_within {x : Sync α} (hx : Comp.Within NoCompaction Anyhow x)
    {F : SyncEvent → Prop} {C : List SyncEvent → RuntimeState → Req → Prop}
    (hC : ∀ h s q, NoCompaction q → C h s q) (h : List SyncEvent) (s : RuntimeState) :
    Comp.wp (Prog.fairly F) C (fun _ _ _ => True) x
      (fun h' _ _ => Rollforward.handed h' = Rollforward.handed h) h s :=
  traced_of_within hx NoCompaction.handed hC h s

end Footprints

section Programs

variable {F : SyncEvent → Prop} {C : List SyncEvent → RuntimeState → Req → Prop}
variable {h : List SyncEvent} {s : RuntimeState}

/-- A commit that was published and recorded. -/
structure PublishedOver (rt : SyncRuntime) (key : ResourceKey) (parents : List String)
    (h : List SyncEvent) (s : RuntimeState) (h' : List SyncEvent) (t : RuntimeState)
    (x : Commit) : Prop where
  commits : t.commits = s.commits.insert x
  cursors : t.cursors = s.cursors
  resource : x.resource = key
  parents : x.parents = sortDedup parents
  author : x.author = rt.clientId
  ids : ∀ y ∈ s.commits, y.id = x.id → y = x
  own : ownCommits h' = x :: ownCommits h

variable (hF : ∀ e, F e → SameIds e) (hC : ∀ h s q, NoCompaction q → C h s q)

theorem Silent.calls {x : Sync α} (hx : Silent x) (hC : ∀ h s q, NoCompaction q → C h s q)
    (h : List SyncEvent) (s : RuntimeState) :
    Comp.wp (Prog.fairly F) C (fun _ _ _ => True) x
      (fun h' t _ => SameCatalog s t ∧ ownCommits h' = ownCommits h) h s := by
  have hsame : Comp.wp (Prog.fairly F) C (fun _ _ _ => True) x (fun _ t _ => SameCatalog s t) h s :=
    Comp.wp_mono (Comp.Within.frame hx (fun h s q hq => hC h s q hq.noCompaction) h s)
      (fun _ _ _ _ => trivial) fun _ _ _ hr => hr.1
  exact Comp.wp_and hsame (traced_of_within hx.noBatch NoBatch.ownCommits
    (C := fun _ _ _ => True) (fun _ _ _ _ => trivial) h s)

include hF hC

theorem publishCommit_over (rt : SyncRuntime) (key : ResourceKey) (parents : List String)
    (counter : Nat) (change : ResourceChange) (batch : CommitBatch) :
    Comp.wp (Prog.fairly F) C (fun _ _ _ => True)
      (publishCommit rt key parents counter change batch)
      (fun h' t x => PublishedOver rt key parents h s h' t x) h s := by
  rw [publishCommit, Comp.wp_bind]
  refine Comp.wp_request.mpr ⟨hC _ _ _ trivial, ?_⟩
  rintro now _ ⟨rfl, -⟩
  refine ⟨fun now _ => ?_, fun _ _ => trivial⟩
  dsimp only
  rw [Comp.wp_bind]
  refine Comp.wp_request.mpr ⟨hC _ _ _ trivial, ?_⟩
  rintro r _ ⟨rfl, hfair⟩
  refine ⟨fun _ hok => ?_, fun _ _ => trivial⟩
  obtain rfl : r = .ok () := hok
  exact ⟨rfl, rfl, rfl, rfl, rfl, hF _ hfair _ List.mem_cons_self, rfl⟩

omit hF hC in
theorem PublishedOver.of_same {rt : SyncRuntime} {key : ResourceKey} {parents : List String}
    {h₁ h' : List SyncEvent} {s₁ t : RuntimeState} {x : Commit}
    (hp : PublishedOver rt key parents h₁ s₁ h' t x)
    (hs : SameCatalog s s₁ ∧ ownCommits h₁ = ownCommits h) :
    PublishedOver rt key parents h s h' t x :=
  ⟨by rw [hp.commits, hs.1.commits], hp.cursors.trans hs.1.cursors, hp.resource, hp.parents,
    hp.author, by rw [← hs.1.commits]; exact hp.ids, by rw [hp.own, hs.2]⟩

theorem publishBytes_over (rt : SyncRuntime) (key : ResourceKey) (kind : ResourceKind)
    (data : Bytes) (parents : List String) :
    Comp.wp (Prog.fairly F) C (fun _ _ _ => True) (publishBytes rt key kind data parents)
      (fun h' t x => PublishedOver rt key parents h s h' t x) h s := by
  rw [publishBytes, Comp.wp_bind]
  refine Comp.wp_imp (nextCounter_prepares.silent.calls hC h s) fun h₁ s₁ counter hs₁ => ?_
  rw [Comp.wp_bind]
  refine Comp.wp_imp ((prepareChange_reads key kind data).silent.calls hC h₁ s₁) ?_
  intro h₂ s₂ prepared hs₂
  exact Comp.wp_imp (publishCommit_over hF hC rt key parents counter _ _)
    fun _ _ _ hp => (hp.of_same hs₂).of_same hs₁

theorem publishDelete_over (rt : SyncRuntime) (key : ResourceKey) (parents : List String) :
    Comp.wp (Prog.fairly F) C (fun _ _ _ => True) (publishDelete rt key parents)
      (fun h' t x => PublishedOver rt key parents h s h' t x) h s := by
  rw [publishDelete, Comp.wp_bind]
  refine Comp.wp_imp (nextCounter_prepares.silent.calls hC h s) fun h₁ s₁ counter hs₁ => ?_
  exact Comp.wp_imp (publishCommit_over hF hC rt key parents counter _ _)
    fun _ _ _ hp => hp.of_same hs₁

theorem startCheckpoint_over (rt : SyncRuntime) (key : ResourceKey) (head : String) :
    Comp.wp (Prog.fairly F) C (fun _ _ _ => True) (startCheckpoint rt key head)
      (fun h' t _ => ∃ x, PublishedOver rt key [head] h s h' t x) h s := by
  rw [startCheckpoint, Comp.wp_bind]
  refine Comp.wp_imp (Q := fun h' t x => PublishedOver rt key [head] h s h' t x) ?_ ?_
  · refine Comp.wp_bind.mpr (Comp.wp_get.mpr ?_)
    split
    · trivial
    split
    · exact publishDelete_over hF hC rt key [head]
    · rw [Comp.wp_bind]
      refine Comp.wp_imp ((contentForRemote_reads key (some head)).silent.calls hC h s) ?_
      intro h₁ s₁ content hs
      exact Comp.wp_imp (publishBytes_over hF hC rt key .binary content [head])
        fun _ _ _ hp => hp.of_same hs
  · intro h₁ s₁ x hp
    rw [Comp.wp_bind, Comp.wp_modify]
    refine Comp.wp_imp (Silent.calls (.request (by exact trivial) _) hC _ _) fun _ t _ hs => ⟨x, ?_⟩
    exact ⟨by rw [hs.1.commits, hp.commits], hs.1.cursors.trans hp.cursors, hp.resource, hp.parents,
      hp.author, hp.ids, hs.2.trans hp.own⟩

theorem surveyKey_surveyed {rt : SyncRuntime} {versions : Nat} {acks : List ResourceAck}
    {m : RuntimeState} {vs : Verdicts} {survey : Survey} {key : ResourceKey}
    {h₀ : List SyncEvent} (hs : Surveyed rt versions acks h₀ m vs h s survey)
    (hnew : key ∉ vs.map Prod.fst) :
    Comp.wp (Prog.fairly F) C (fun _ _ _ => True) (surveyKey rt versions acks survey key)
      (fun h' t survey' => ∃ verdict, verdict.Decided rt acks s key ∧
        Surveyed rt versions acks h₀ m (vs ++ [(key, verdict)]) h' t survey') h s := by
  have hres := hs.resourceCommits hnew
  have hheads := heads_of_resourceCommits hres
  refine Comp.wp_bind.mpr (Comp.wp_get.mpr ?_)
  split
  · exact ⟨.keep, trivial, hs.keep (t := s.dropCheckpoint key) rfl rfl rfl⟩
  next hlength =>
  split
  · exact ⟨.keep, trivial, hs.keep rfl rfl rfl⟩
  next hclear =>
  have hbinary : s.conflicted key = false ∧ s.resourceKind key ≠ .text := by
    simpa using hclear
  have hlong : versions < (m.resourceCommits key).length := by
    rw [← hres]
    exact Nat.not_le.mp hlength
  obtain ⟨head, hhead⟩ : ∃ head, s.heads key = [head] := by
    simp only [RuntimeState.conflicted, Bool.or_eq_true, decide_eq_true_eq, not_or, not_not] at hclear
    exact List.length_eq_one_iff.mp hclear.1.1.1
  split
  · rw [hhead, Comp.wp_bind]
    refine Comp.wp_imp (startCheckpoint_over hF hC rt key _) ?_
    rintro h₁ s₁ _ ⟨x, hp⟩
    refine ⟨.checkpoint x, hbinary, hs.checkpoint hp.commits hp.cursors hp.own rfl
      ⟨hlong, hp.resource, hp.author, ?_, head, hheads.symm.trans hhead, hp.parents⟩⟩
    by_contra hsome
    have hheld : (s.commits.get? x.id).isSome := by
      rw [hs.commits]
      exact KeyedMap.isSome_get?_insertAll (Option.isSome_iff_ne_none.mpr hsome)
    obtain ⟨y, hy⟩ := Option.isSome_iff_exists.mp hheld
    -- a commit over the head would have been seen
    obtain rfl := hp.ids y (KeyedMap.mem_of_get? hy) (KeyedMap.key_of_get? hy)
    have hin : head ∈ s.heads key := hhead ▸ List.mem_singleton_self head
    refine (RuntimeState.mem_heads.mp hin).2 y (KeyedMap.mem_of_get? hy) hp.resource ?_
    rw [hp.parents]
    exact mem_sortDedup.mpr (List.mem_singleton_self head)
  · next checkpoint hcheckpoint =>
    split
    · exact ⟨.keep, trivial, hs.keep rfl rfl rfl⟩
    next hacknowledged =>
    dsimp only
    split
    · exact ⟨.keep, trivial, hs.keep (t := s.dropCheckpoint key) rfl rfl rfl⟩
    · rw [obsolete_of_resourceCommits hres]
      refine ⟨.truncate checkpoint.commitId, ⟨hbinary.1, hbinary.2, by rw [hcheckpoint]; rfl, ?_⟩,
        hs.truncate ⟨hlong, head, hheads.symm.trans hhead⟩⟩
      simpa using hacknowledged

omit hF hC

/-- What the survey of the keys of `vs` left of the books of `m`. -/
structure Books (m : RuntimeState) (vs : Verdicts) (s : RuntimeState) : Prop where
  commits : s.commits = m.commits.insertAll vs.checkpoints
  kinds : s.kinds = m.kinds
  conflicts : s.conflicts = m.conflicts
  activeRun : s.activeRun = m.activeRun
  retired : s.retiredClients = m.retiredClients
  checkpoints : ∀ name, (∀ key ∈ vs.map Prod.fst, key.encoded ≠ name) →
    s.checkpoints.get? name = m.checkpoints.get? name

/-- Every decision was made in its turn, and on nothing but what `m` says of the resource and
what was published before. -/
def Verdicts.Ruled (vs : Verdicts) (rt : SyncRuntime) (acks : List ResourceAck)
    (m : RuntimeState) : Prop :=
  ∀ key verdict, (key, verdict) ∈ vs → ∃ vs₁ s₁, vs₁ <+: vs ∧ key ∉ vs₁.map Prod.fst ∧
    s₁.resourceCommits key = m.resourceCommits key ∧ Books m vs₁ s₁ ∧ verdict.Decided rt acks s₁ key

theorem Books.next {m s t : RuntimeState} {vs : Verdicts} {key : ResourceKey} {verdict : Verdict}
    (hb : Books m vs s) (ht : SameBooks key s t)
    (hcommits : t.commits = m.commits.insertAll (vs ++ [(key, verdict)]).checkpoints) :
    Books m (vs ++ [(key, verdict)]) t where
  commits := hcommits
  kinds := ht.kinds.trans hb.kinds
  conflicts := ht.conflicts.trans hb.conflicts
  activeRun := ht.activeRun.trans hb.activeRun
  retired := ht.retired.trans hb.retired
  checkpoints := by
    intro name hname
    rw [List.map_append, List.map_cons, List.map_nil] at hname
    rw [ht.checkpoints name fun e => hname key (by simp) e.symm]
    exact hb.checkpoints name fun key hkey => hname key (List.mem_append_left _ hkey)

theorem Verdicts.Ruled.next {rt : SyncRuntime} {acks : List ResourceAck} {m s : RuntimeState}
    {vs : Verdicts} {key : ResourceKey} {verdict : Verdict} (hr : vs.Ruled rt acks m)
    (hnew : key ∉ vs.map Prod.fst) (hres : s.resourceCommits key = m.resourceCommits key)
    (hb : Books m vs s) (hd : verdict.Decided rt acks s key) :
    Verdicts.Ruled (vs ++ [(key, verdict)]) rt acks m := by
  intro key' verdict' hv
  rcases List.mem_append.mp hv with hv | hv
  · obtain ⟨vs₁, s₁, hprefix, hrest⟩ := hr key' verdict' hv
    exact ⟨vs₁, s₁, hprefix.trans (List.prefix_append _ _), hrest⟩
  · obtain ⟨rfl, rfl⟩ := Prod.mk.inj (List.mem_singleton.mp hv)
    exact ⟨vs, s, List.prefix_append _ _, hnew, hres, hb, hd⟩

/-- A compaction that `maintain` asks for in state `s`. -/
structure Truncates (rt : SyncRuntime) (versions : Nat) (h₀ : List SyncEvent) (m : RuntimeState)
    (acks : List ResourceAck) (vs : Verdicts) (h : List SyncEvent) (s : RuntimeState)
    (compaction : CatalogCompaction) : Prop where
  caught : ∃ h₁, Caught h₀ h₁ m ∧ h₁ <:+ h
  fits : ∀ key verdict, (key, verdict) ∈ vs → verdict.Fits rt versions m key
  distinct : (vs.map Prod.fst).Nodup
  obsolete : compaction.obsoleteCommitIds = vs.obsolete m versions acks compaction.snapshot.scopeId
  commits : ∃ gone, s.commits = (m.commits.insertAll vs.checkpoints).eraseAll gone ∧
    ∀ id ∈ gone, ∃ scope ≠ compaction.snapshot.scopeId, id ∈ vs.obsolete m versions acks scope
  cursors : s.cursors = m.cursors

/-- What a call of `maintain` that succeeds leaves. -/
structure Truncated (rt : SyncRuntime) (versions : Nat) (h₀ : List SyncEvent) (m : RuntimeState)
    (acks : List ResourceAck) (vs : Verdicts) (h : List SyncEvent) (s : RuntimeState) : Prop where
  caught : ∃ h₁, Caught h₀ h₁ m ∧ h₁ <:+ h
  fits : ∀ key verdict, (key, verdict) ∈ vs → verdict.Fits rt versions m key
  distinct : (vs.map Prod.fst).Nodup
  commits : ∃ gone, s.commits = (m.commits.insertAll vs.checkpoints).eraseAll gone ∧
    ∀ id, id ∈ gone ↔ ∃ scope, id ∈ vs.obsolete m versions acks scope
  handed : ∀ id, id ∈ handed h ↔ id ∈ handed h₀ ∨ ∃ scope, id ∈ vs.obsolete m versions acks scope
  own : ∀ x, x ∈ ownCommits h ↔ x ∈ ownCommits h₀ ∨ x ∈ vs.checkpoints

/-- How a call of `maintain` came to its verdicts: after the refresh it had the acknowledgements
listed and went through the keys. -/
structure Ruling (rt : SyncRuntime) (request : MaintenanceRequest) (h₀ : List SyncEvent)
    (m : RuntimeState) (acks : List ResourceAck) (vs : Verdicts) (h : List SyncEvent) : Prop where
  listed : ∃ h₁, Caught h₀ h₁ m ∧
    ⟨m, .listAcknowledgements (m.remoteKeys request.scopes), .ok acks⟩ :: h₁ <:+ h
  keys : vs.map Prod.fst = m.remoteKeys request.scopes
  ruled : vs.Ruled rt acks m

theorem Ruling.suffix {rt : SyncRuntime} {request : MaintenanceRequest} {h₀ h h' : List SyncEvent}
    {m : RuntimeState} {acks : List ResourceAck} {vs : Verdicts}
    (hr : Ruling rt request h₀ m acks vs h) (hh : h <:+ h') :
    Ruling rt request h₀ m acks vs h' := by
  obtain ⟨h₁, hcaught, hlisted⟩ := hr.listed
  exact ⟨⟨h₁, hcaught, hlisted.trans hh⟩, hr.keys, hr.ruled⟩

theorem remoteKeys_nodup (s : RuntimeState) (scopes : List String) : (s.remoteKeys scopes).Nodup :=
  ExtTreeMap.distinct_keys.imp fun h e => by simp [e] at h

theorem refreshRemote_caught (hC : ∀ h s q, NoCompaction q → C h s q) :
    Comp.wp (Prog.fairly F) C (fun _ _ _ => True) (refreshRemote []) (fun h₁ m _ => Caught h h₁ m)
      h s := by
  rw [refreshRemote, Comp.wp_bind, Comp.wp_get, Comp.wp_bind]
  refine Comp.wp_request.mpr ⟨hC _ _ _ trivial, ?_⟩
  rintro r _ ⟨rfl, -⟩
  refine ⟨fun delta hr => ?_, fun _ _ => trivial⟩
  obtain rfl : r = .ok delta := hr
  rw [Comp.wp_bind, Comp.wp_modify, Comp.wp_bind, Comp.wp_get, Comp.wp_bind]
  refine Comp.wp_request.mpr ⟨hC _ _ _ trivial, ?_⟩
  rintro r _ ⟨rfl, -⟩
  refine ⟨fun commits hr => ?_, fun _ _ => trivial⟩
  obtain rfl : r = .ok commits := hr
  exact .mk

/-- The loop over the scopes: `done` are those compacted so far. -/
structure Compacting (rt : SyncRuntime) (versions : Nat) (acks : List ResourceAck)
    (m : RuntimeState) (vs : Verdicts) (start : List String)
    (done rest : List (String × List String)) (h : List SyncEvent) (s : RuntimeState) : Prop where
  entries : ∀ entry ∈ done ++ rest, entry.2 = vs.obsolete m versions acks entry.1
  scopes : ((done ++ rest).map Prod.fst).Nodup
  commits : s.commits = (m.commits.insertAll vs.checkpoints).eraseAll (done.flatMap Prod.snd)
  cursors : s.cursors = m.cursors
  handed : handed h = start ++ done.flatMap Prod.snd

variable {rt : SyncRuntime} {versions : Nat} {acks : List ResourceAck} {m : RuntimeState}
variable {vs : Verdicts} {h₀ : List SyncEvent}

theorem Compacting.next {done rest : List (String × List String)} {entry : String × List String}
    {start : List String} {h' : List SyncEvent} {t : RuntimeState}
    (hc : Compacting rt versions acks m vs start done (entry :: rest) h s)
    (hcommits : t.commits = s.commits.eraseAll entry.2) (hcursors : t.cursors = s.cursors)
    (hhanded : Rollforward.handed h' = Rollforward.handed h ++ entry.2) :
    Compacting rt versions acks m vs start (done ++ [entry]) rest h' t where
  entries := by
    rw [List.append_assoc]
    exact hc.entries
  scopes := by
    rw [List.append_assoc]
    exact hc.scopes
  commits := by
    rw [hcommits, hc.commits, List.flatMap_append, List.flatMap_singleton, KeyedMap.eraseAll,
      KeyedMap.eraseAll, KeyedMap.eraseAll, List.foldl_append]
  cursors := hcursors.trans hc.cursors
  handed := by
    rw [hhanded, hc.handed, List.flatMap_append, List.flatMap_singleton, List.append_assoc]

/-- One turn of the loop over the scopes. -/
theorem compactScope_compacting (hC : ∀ h s q, NoCompaction q → C h s q)
    (hfits : ∀ key verdict, (key, verdict) ∈ vs → verdict.Fits rt versions m key)
    (hdistinct : (vs.map Prod.fst).Nodup) (hcaught : ∃ h₁, Caught h₀ h₁ m ∧ h₁ <:+ h)
    {h₂ : List SyncEvent} (hlater : h₂ <:+ h)
    (hcompact : ∀ h s compaction, h₂ <:+ h → Truncates rt versions h₀ m acks vs h s compaction →
      C h s (.compactCatalog compaction))
    (report : V2MaintenanceReport) {done rest : List (String × List String)}
    {entry : String × List String} {start : List String}
    (hc : Compacting rt versions acks m vs start done (entry :: rest) h s) :
    Comp.wp (Prog.fairly F) C (fun _ _ _ => True) (compactScope rt report entry)
      (fun h' t _ => Compacting rt versions acks m vs start (done ++ [entry]) rest h' t) h s := by
  refine Comp.wp_bind.mpr (Comp.wp_get.mpr ?_)
  rw [Comp.wp_bind]
  refine Comp.wp_request.mpr ⟨hC _ _ _ trivial, ?_⟩
  rintro now _ ⟨rfl, -⟩
  refine ⟨fun now _ => ?_, fun _ _ => trivial⟩
  rw [Comp.wp_bind]
  refine Comp.wp_request.mpr ⟨hcompact _ _ _ (hlater.trans (List.suffix_cons _ _))
    ⟨?_, hfits, hdistinct, ?_, ⟨_, hc.commits, ?_⟩, hc.cursors⟩, ?_⟩
  · obtain ⟨h₁, hm, hsuffix⟩ := hcaught
    exact ⟨h₁, hm, hsuffix.trans (List.suffix_cons _ _)⟩
  · exact hc.entries entry (List.mem_append_right _ List.mem_cons_self)
  · intro id hid
    obtain ⟨other, ho, hid⟩ := List.mem_flatMap.mp hid
    refine ⟨other.1, fun e => ?_, hc.entries other (List.mem_append_left _ ho) ▸ hid⟩
    have hnodup := hc.scopes
    rw [List.map_append, List.map_cons, List.nodup_append] at hnodup
    exact hnodup.2.2 _ (List.mem_map_of_mem ho) _ List.mem_cons_self e
  · rintro r _ ⟨rfl, -⟩
    refine ⟨fun _ hr => ?_, fun _ _ => trivial⟩
    obtain rfl : r = .ok () := hr
    exact hc.next rfl rfl rfl

/-- The turns of the survey: the keys of the verdicts are those passed so far. -/
theorem survey_surveyed (hF : ∀ e, F e → SameIds e) {keys : List ResourceKey} (hkeys : keys.Nodup)
    {start : List SyncEvent} {survey : Survey}
    (hinit : Surveyed rt versions acks h₀ m [] start m survey)
    (hturn : ∀ {vs : Verdicts} {key h₁ s₁ survey₁}, key ∈ keys → start <:+ h₁ →
      s₁.resourceCommits key = m.resourceCommits key → Books m vs s₁ →
      Comp.wp (Prog.fairly F) C (fun _ _ _ => True) (surveyKey rt versions acks survey₁ key)
        (fun _ _ _ => True) h₁ s₁) :
    Comp.wp (Prog.fairly F) C (fun _ _ _ => True) (keys.foldlM (surveyKey rt versions acks) survey)
      (fun h' s survey' => (start <:+ h' ∧ handed h' = handed start) ∧ ∃ vs : Verdicts,
        vs.map Prod.fst = keys ∧ Surveyed rt versions acks h₀ m vs h' s survey' ∧ Books m vs s ∧
        vs.Ruled rt acks m) start m := by
  refine Comp.wp_imp (Comp.wp_foldlM (fun rest h' s survey' =>
    (start <:+ h' ∧ handed h' = handed start) ∧ ∃ vs : Verdicts, keys = vs.map Prod.fst ++ rest ∧
      Surveyed rt versions acks h₀ m vs h' s survey' ∧ Books m vs s ∧ vs.Ruled rt acks m) ?_
    ⟨⟨List.suffix_rfl, rfl⟩, [], rfl, hinit,
      ⟨rfl, rfl, rfl, rfl, rfl, fun _ _ => rfl⟩, by intro key verdict hv; cases hv⟩) ?_
  · rintro key rest h₁ s₁ survey₁ ⟨⟨hsuffix, hhand⟩, vs, hlist, hs, hb, hr⟩
    have hnew : key ∉ vs.map Prod.fst := by
      rw [hlist, List.nodup_append] at hkeys
      exact fun hin => hkeys.2.2 _ hin _ List.mem_cons_self rfl
    have hkey : key ∈ keys := hlist ▸ List.mem_append_right _ List.mem_cons_self
    have hframe : Comp.wp (Prog.fairly F) (fun _ _ _ => True) (fun _ _ _ => True)
        (surveyKey rt versions acks survey₁ key)
        (fun h' t _ => SameBooks key s₁ t ∧ h₁ <:+ h') h₁ s₁ :=
      Comp.wp_mono (Comp.Within.frame (surveyKey_tame rt versions acks survey₁ key)
        (fun _ _ _ _ => trivial) h₁ s₁) (fun _ _ _ _ => trivial) fun _ _ _ hf => hf
    have hhands := handed_of_within (F := F) (C := fun _ _ _ => True)
      (Tame.noCompaction (surveyKey_tame rt versions acks survey₁ key)) (fun _ _ _ _ => trivial) h₁ s₁
    refine Comp.wp_imp (Comp.wp_and (Comp.wp_and (Comp.wp_and
      (hturn hkey hsuffix (hs.resourceCommits hnew) hb)
      (surveyKey_surveyed (C := fun _ _ _ => True) hF (fun _ _ _ _ => trivial) hs hnew))
      hhands) hframe) ?_
    rintro h₂ s₂ survey₂ ⟨⟨⟨-, verdict, hd, hs'⟩, hhand'⟩, hbooks, hsuffix'⟩
    exact ⟨⟨hsuffix.trans hsuffix', hhand'.trans hhand⟩, _, by simpa using hlist, hs',
      hb.next hbooks hs'.commits, hr.next hnew (hs.resourceCommits hnew) hb hd⟩
  · rintro h' s' survey' ⟨hstart, vs, hlist, hrest⟩
    exact ⟨hstart, vs, by simpa using hlist.symm, hrest⟩

/-- Every compaction of `maintain` follows from verdicts on the memory after its refresh,
and so does the memory that it leaves. -/
theorem maintain_truncates (hF : ∀ e, F e → SameIds e) (hC : ∀ h s q, NoCompaction q → C h s q)
    (rt : SyncRuntime) (request : MaintenanceRequest) (h : List SyncEvent) (s : RuntimeState)
    (hcompact : ∀ m acks vs h' s' compaction,
      Truncates rt request.historyRetentionVersions h m acks vs h' s' compaction →
      Ruling rt request h m acks vs h' → C h' s' (.compactCatalog compaction)) :
    Comp.wp (Prog.fairly F) C (fun _ _ _ => True) (Rollforward.maintain rt request)
      (fun h' s' _ => request.historyRetentionVersions = 0 ∧ h' = h ∧ s' = s ∨ ∃ m acks vs,
        Truncated rt request.historyRetentionVersions h m acks vs h' s' ∧
        Ruling rt request h m acks vs h') h s := by
  unfold maintain
  split
  · next hzero => exact Or.inl ⟨hzero, rfl, rfl⟩
  rw [Comp.wp_bind]
  refine Comp.wp_imp (Comp.wp_and (refreshRemote_caught hC)
    (handed_of_within (Tame.noCompaction (refreshRemote_tame [])) hC h s)) ?_
  rintro h₁ m _ ⟨hcaught, hhand₁⟩
  have hown₁ : ownCommits h₁ = ownCommits h := by
    cases hcaught
    rfl
  rw [Comp.wp_bind, Comp.wp_get, Comp.wp_bind]
  refine Comp.wp_request.mpr ⟨hC _ _ _ trivial, ?_⟩
  rintro r _ ⟨rfl, -⟩
  refine ⟨fun acks hr => ?_, fun _ _ => trivial⟩
  obtain rfl : r = .ok acks := hr
  have hinit : Surveyed rt request.historyRetentionVersions acks h m []
      (⟨m, .listAcknowledgements (m.remoteKeys request.scopes), .ok acks⟩ :: h₁) m
      { report := { resources := (m.remoteKeys request.scopes).length } } :=
    ⟨by simp, rfl, rfl, by simp [Verdicts.obsolete], by simp [ownCommits, hown₁, Verdicts.checkpoints]⟩
  rw [Comp.wp_bind]
  refine Comp.wp_imp (survey_surveyed hF (remoteKeys_nodup m request.scopes) hinit
    fun _ _ _ _ => Comp.wp_imp (handed_of_within
      (Tame.noCompaction (surveyKey_tame rt _ acks _ _)) hC _ _) fun _ _ _ _ => trivial) ?_
  rintro h₂ s₂ survey ⟨⟨hlisted, hhand₂⟩, vs, hkeys, hs, hbooks, hruled⟩
  have hdistinct : (vs.map Prod.fst).Nodup := hkeys ▸ remoteKeys_nodup m request.scopes
  have hruling : Ruling rt request h m acks vs h₂ := ⟨⟨h₁, hcaught, hlisted⟩, hkeys, hruled⟩
  have hh₂ : h₁ <:+ h₂ := (List.suffix_cons _ _).trans hlisted
  have hsuffix : ∀ {α : Type} {x : Sync α} {Q : List SyncEvent → RuntimeState → α → Prop}
      {h₃ : List SyncEvent} {s₃ : RuntimeState}, h₂ <:+ h₃ →
      Comp.wp (Prog.fairly F) C (fun _ _ _ => True) x Q h₃ s₃ →
      Comp.wp (Prog.fairly F) C (fun _ _ _ => True) x (fun h s a => Q h s a ∧ h₂ <:+ h) h₃ s₃ :=
    fun hh hx => Comp.wp_and_invariant hx
      (fun _ _ _ ht hj => ht.1 ▸ hj.trans (List.suffix_cons _ _)) hh
  have hentries : ∀ entry ∈ survey.obsoleteByScope.toList,
      entry.2 = vs.obsolete m request.historyRetentionVersions acks entry.1 := by
    intro entry he
    rw [← hs.obsolete, ExtTreeMap.mem_toList_iff_getElem?_eq_some.mp he]
    rfl
  rw [Comp.wp_bind]
  -- the compactions, one scope after the other
  refine Comp.wp_imp (hsuffix List.suffix_rfl (Comp.wp_foldlM
    (fun rest h s (_ : V2MaintenanceReport) => h₂ <:+ h ∧ ownCommits h = ownCommits h₂ ∧
      ∃ done, survey.obsoleteByScope.toList = done ++ rest ∧
        Compacting rt request.historyRetentionVersions acks m vs (handed h₂) done rest h s) ?_
    ⟨List.suffix_rfl, rfl, [], rfl, hentries, ?_, hs.commits, hs.cursors, by simp⟩)) ?_
  · rintro entry rest h₃ s₃ report ⟨hh₃, hown₃, done, hlist, hc⟩
    refine Comp.wp_imp (hsuffix hh₃ (Comp.wp_and (compactScope_compacting hC hs.fits hdistinct
      ⟨h₁, hcaught, hh₂.trans hh₃⟩ hh₃
      (fun h' s' compaction hh' ht => hcompact m acks vs h' s' compaction ht (hruling.suffix hh'))
      report hc) (traced_of_within
        (compactScope_noBatch rt report entry) NoBatch.ownCommits (C := fun _ _ _ => True)
        (fun _ _ _ _ => trivial) h₃ s₃))) ?_
    rintro h₄ s₄ _ ⟨⟨hc₄, hown₄⟩, hh₄⟩
    exact ⟨hh₄, hown₄.trans hown₃, _, by simpa using hlist, hc₄⟩
  · refine List.pairwise_map.mpr (ExtTreeMap.distinct_keys_toList.imp fun hne e => ?_)
    rw [e] at hne
    simp at hne
  rintro h₃ s₃ report ⟨⟨-, hown₃, done, hlist, hc⟩, hh₃⟩
  rw [List.append_nil] at hlist
  have hrest : Silent (do
      let report ← collectPacks report
      Sync.saveRuntimeState
      return report : Sync V2MaintenanceReport) :=
    .bind (collectPacks_silent report) fun _ => .bind (.request (by exact trivial) _) fun _ =>
      .pure _
  refine Comp.wp_imp (hsuffix hh₃ (Comp.wp_and (hrest.calls hC h₃ s₃)
    (handed_of_within hrest.noCompaction hC h₃ s₃))) ?_
  rintro h₄ s₄ _ ⟨⟨⟨hsame, hown₄⟩, hhand₄⟩, hh₄⟩
  have hgone : ∀ id, id ∈ done.flatMap Prod.snd ↔
      ∃ scope, id ∈ vs.obsolete m request.historyRetentionVersions acks scope := by
    intro id
    rw [List.mem_flatMap, ← hlist]
    constructor
    · rintro ⟨entry, he, hid⟩
      exact ⟨entry.1, hentries entry he ▸ hid⟩
    · rintro ⟨scope, hid⟩
      cases hget : survey.obsoleteByScope[scope]? with
      | none =>
        rw [← hs.obsolete, hget] at hid
        cases hid
      | some ids =>
        rw [← hs.obsolete, hget] at hid
        exact ⟨(scope, ids), ExtTreeMap.mem_toList_iff_getElem?_eq_some.mpr hget, hid⟩
  refine Or.inr ⟨m, acks, vs, ⟨⟨h₁, hcaught, hh₂.trans hh₄⟩, hs.fits, hdistinct,
    ⟨done.flatMap Prod.snd, ?_, hgone⟩, fun id => ?_, fun x => ?_⟩, hruling.suffix hh₄⟩
  · rw [hsame.commits, hc.commits]
  · rw [hhand₄, hc.handed, hhand₂, show handed (_ :: h₁) = handed h₁ from rfl, hhand₁,
      List.mem_append, hgone]
  · rw [hown₄, hown₃, hs.own]

end Programs

end Rollforward
