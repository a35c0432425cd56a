import Rollforward.Plan
import Rollforward.Runs

/-! One round of `reconcile`, from its inventory to the batch it publishes, against an
environment that keeps to `Fair`. -/

namespace Rollforward

open Std Lib

variable [Crates]

/-- The chunks of `files`, in order. -/
def chunksOf (files : List Bytes) : List (ChunkInfo × Bytes) := files.flatMap chunkData

/-- The chunks of `files` were looked up, and the remote listed `existing`. -/
def Looked (h : List SyncEvent) (files : List Bytes) (existing : List ChunkLocation) : Prop :=
  files = [] ∨ ∃ s, (⟨s, .lookupChunks ((chunksOf files).map fun chunk => chunk.1.hash),
    .ok existing⟩ : SyncEvent) ∈ h

/-- One run of `reconcile` up to its batch. -/
structure Round where
  scopes : List String
  locals : List LocalResource
  plan : List PlanOperation
  contents : Map ResourceKey ResourceContent
  prepared : Prepared
  files : List Bytes
  existing : List ChunkLocation

section Inventory

variable {S : Setting} {versions : List (ResourceKey × File)} {scopes : List String}

/-- What an inventory of `scopes` lists. -/
def Inventoried (S : Setting) (scopes : List String) (locals : List LocalResource) : Prop :=
  ∀ resource ∈ locals, inScopes scopes resource.key.scopeId = true ∧
    resource.kind = S.kindOf resource.key

/-- The contents that were read, by key. -/
def WasRead (S : Setting) (versions : List (ResourceKey × File))
    (contents : Map ResourceKey ResourceContent) : Prop :=
  ∀ key content, contents[key]? = some content → content.key = key ∧
    content.kind = S.kindOf key ∧ (key, ⟨some content.data, content.versionToken⟩) ∈ versions

theorem Setting.list_inventoried (files : Files) (shown : ResourceKey → Bool) :
    Inventoried S scopes (S.list files scopes shown) := by
  intro resource hr
  obtain ⟨⟨key, file⟩, hmem, rfl⟩ := List.mem_map.mp hr
  exact ⟨(List.mem_filter.mp hmem).2, rfl⟩

omit [Crates] in
theorem wasRead_of_read {files : Files} (hfiles : files.Within versions)
    (keys : List ResourceKey) : WasRead S versions (contentMap (S.read files keys)) := by
  intro key content hc
  obtain ⟨content', hmem, he⟩ := List.mem_map.mp (Map.mem_of_get?_ofList hc)
  obtain ⟨rfl, rfl⟩ := Prod.mk.inj he
  obtain ⟨key, -, hkey⟩ := List.mem_filterMap.mp hmem
  obtain ⟨⟨data, versionToken⟩, hf, hdata⟩ := Option.bind_eq_some_iff.mp hkey
  obtain ⟨bytes, hb, rfl⟩ := Option.map_eq_some_iff.mp hdata
  obtain rfl : data = some bytes := hb
  exact ⟨rfl, rfl, hfiles key _ hf⟩

theorem fillCached_key (s : RuntimeState) (resource : LocalResource) :
    (s.fillCached resource).key = resource.key ∧ (s.fillCached resource).kind = resource.kind := by
  unfold RuntimeState.fillCached
  split
  · split <;> exact ⟨rfl, rfl⟩
  · exact ⟨rfl, rfl⟩

theorem fillRead_key {contents : Map ResourceKey ResourceContent} {resource filled : LocalResource}
    (h : fillRead contents resource = .ok filled) :
    filled.key = resource.key ∧ filled.kind = resource.kind := by
  unfold fillRead at h
  split at h
  · split at h
    · split at h
      · obtain rfl := Except.ok.inj h
        exact ⟨rfl, rfl⟩
      · cases h
    · obtain rfl := Except.ok.inj h
      exact ⟨rfl, rfl⟩
  · obtain rfl := Except.ok.inj h
    exact ⟨rfl, rfl⟩

theorem localInventory_inventoried {published : List Commit}
    {C : List SyncEvent → RuntimeState → Req → Prop} (hC : ∀ h s q, IsRead q → C h s q)
    (h : List SyncEvent) (s : RuntimeState) :
    Comp.wp (Prog.fairly (Fair S published versions)) C (fun _ _ _ => True) (localInventory scopes)
      (fun h' s' locals => s' = s ∧ h <:+ h' ∧ Inventoried S scopes locals) h s := by
  rw [localInventory, Comp.wp_bind, Comp.wp_get, Comp.wp_bind]
  refine Comp.wp_request.mpr ⟨hC _ _ _ trivial, ?_⟩
  rintro r _ ⟨rfl, hfair⟩
  refine ⟨fun resources hr => ?_, fun _ _ => trivial⟩
  obtain rfl : r = .ok resources := hr
  obtain ⟨files, shown, -, rfl⟩ := hfair
  have hcached : Inventoried S scopes ((S.list files scopes shown).map s.fillCached) := by
    intro resource hr
    obtain ⟨listed, hl, rfl⟩ := List.mem_map.mp hr
    obtain ⟨hkey, hkind⟩ := fillCached_key s listed
    rw [hkey, hkind]
    exact Setting.list_inventoried files shown listed hl
  dsimp only
  rw [Comp.wp_ite]
  refine ⟨fun _ => ⟨rfl, List.suffix_cons _ _, hcached⟩, fun _ => ?_⟩
  rw [Comp.wp_bind]
  refine Comp.wp_request.mpr ⟨hC _ _ _ trivial, ?_⟩
  rintro r _ ⟨rfl, -⟩
  refine ⟨fun contents _ => Comp.wp_ofExcept.mpr ⟨fun locals hl => ?_, fun _ _ => trivial⟩,
    fun _ _ => trivial⟩
  refine ⟨rfl, (List.suffix_cons _ _).trans (List.suffix_cons _ _), fun resource hr => ?_⟩
  obtain ⟨listed, hm, hfill⟩ := exists_of_mem_mapM hl hr
  obtain ⟨hkey, hkind⟩ := fillRead_key hfill
  rw [hkey, hkind]
  exact hcached listed hm

end Inventory

section Upload

variable {contents : Map ResourceKey ResourceContent} {files : List Bytes} {prepared : Prepared}

/-- An upload that did not fail: its content was read at the planned version, and what a
binary file needs is prepared. -/
def Prepared.Holds (prepared : Prepared) (contents : Map ResourceKey ResourceContent)
    (files : List Bytes) (key : ResourceKey) (localState : ReplicaState) : Prop :=
  key ∈ prepared.failedUploadKeys ∨ ∃ content, contents[key]? = some content ∧
    localState.versionToken = some content.versionToken ∧
    (content.kind = .binary → content.data ∈ files ∧ prepared.manifests[key]? =
      some ((chunkData content.data).map fun chunk => chunk.1.hash))

/-- The state of the loop that prepares uploads, `done` being those it went over. -/
structure Prepared.Covers (prepared : Prepared) (contents : Map ResourceKey ResourceContent)
    (files : List Bytes) (done : List PlanOperation) : Prop where
  chunks : prepared.allChunks = chunksOf files
  holds : ∀ key localState, .upload key localState ∈ done →
    prepared.Holds contents files key localState

theorem Prepared.Holds.failUpload {key key' : ResourceKey} {localState : ReplicaState}
    (h : prepared.Holds contents files key localState) (failed : Tally) :
    { prepared with
      failedUploadKeys := key' :: prepared.failedUploadKeys
      tally := failed : Prepared }.Holds contents files key localState :=
  h.imp (List.mem_cons_of_mem _) fun hc => hc

theorem Prepared.Covers.fail {done : List PlanOperation} (h : prepared.Covers contents files done)
    (key : ResourceKey) (localState : ReplicaState) (failed : Tally) :
    { prepared with
      failedUploadKeys := key :: prepared.failedUploadKeys
      tally := failed : Prepared }.Covers contents files (done ++ [.upload key localState]) where
  chunks := h.chunks
  holds key' localState' hmem := by
    rcases List.mem_append.mp hmem with hmem | hmem
    · exact (h.holds key' localState' hmem).failUpload failed
    · obtain ⟨rfl, rfl⟩ := PlanOperation.upload.inj (List.mem_singleton.mp hmem)
      exact Or.inl List.mem_cons_self

theorem Prepared.Covers.skip {done : List PlanOperation} (h : prepared.Covers contents files done)
    {operation : PlanOperation} (hop : ∀ key localState, operation ≠ .upload key localState) :
    prepared.Covers contents files (done ++ [operation]) where
  chunks := h.chunks
  holds key localState hmem := by
    rcases List.mem_append.mp hmem with hmem | hmem
    · exact h.holds key localState hmem
    · exact absurd (List.mem_singleton.mp hmem).symm (hop key localState)

/-- The files of a content that is uploaded. -/
def filesOf (content : ResourceContent) : List Bytes :=
  match content.kind with
  | .text => []
  | .binary => [content.data]

theorem Prepared.Covers.add {done : List PlanOperation} (h : prepared.Covers contents files done)
    {key : ResourceKey} {localState : ReplicaState} {content : ResourceContent}
    (hcontent : contents[key]? = some content)
    (hversion : localState.versionToken = some content.versionToken)
    (merged : Map ResourceKey Bytes) :
    ({ prepared with mergedTexts := merged }.addChunks key content).Covers contents
      (files ++ filesOf content) (done ++ [PlanOperation.upload key localState]) := by
  cases hkind : content.kind with
  | text =>
    simp only [Prepared.addChunks, filesOf, hkind, List.append_nil]
    refine ⟨h.chunks, fun key' localState' hmem => ?_⟩
    rcases List.mem_append.mp hmem with hmem | hmem
    · exact h.holds key' localState' hmem
    · obtain ⟨rfl, rfl⟩ := PlanOperation.upload.inj (List.mem_singleton.mp hmem)
      exact Or.inr ⟨content, hcontent, hversion, by simp [hkind]⟩
  | binary =>
    simp only [Prepared.addChunks, filesOf, hkind]
    refine ⟨?_, fun key' localState' hmem => ?_⟩
    · simp [h.chunks, chunksOf]
    · rcases List.mem_append.mp hmem with hmem | hmem
      · refine (h.holds key' localState' hmem).imp_right ?_
        rintro ⟨content', hc', hv', hbin⟩
        refine ⟨content', hc', hv', fun hk => ⟨List.mem_append_left _ (hbin hk).1, ?_⟩⟩
        rw [Map.get?_insert]
        split
        · next e =>
          rw [← e, hcontent] at hc'
          rw [Option.some.inj hc']
        · exact (hbin hk).2
      · obtain ⟨rfl, rfl⟩ := PlanOperation.upload.inj (List.mem_singleton.mp hmem)
        refine Or.inr ⟨content, hcontent, hversion, fun _ => ⟨by simp, ?_⟩⟩
        rw [Map.get?_insert, if_pos rfl]

variable {H : Type} {T : H → SyncEvent → H → Prop} {C : H → RuntimeState → Req → Prop}

theorem prepareUpload_covers (rt : SyncRuntime) {done : List PlanOperation}
    (hprep : prepared.Covers contents files done) (operation : PlanOperation) (h : H)
    (s : RuntimeState) :
    Comp.wp T C (fun _ _ _ => True) (prepareUpload rt contents prepared operation)
      (fun h' s' prepared => h' = h ∧ SameBase s s' ∧
        ∃ files, prepared.Covers contents files (done ++ [operation])) h s := by
  unfold prepareUpload
  split
  · next key localState =>
    split
    · exact ⟨rfl, .refl s, files, hprep.fail key localState _⟩
    · next content hcontent =>
      split
      · exact ⟨rfl, .refl s, files, hprep.fail key localState _⟩
      · next hversion =>
        rw [Comp.wp_bind, Comp.wp_get, Comp.wp_bind]
        refine Comp.wp_ofExcept.mpr ⟨fun verdict _ => ?_, fun _ _ => trivial⟩
        have hversion := not_not.mp hversion
        cases verdict with
        | notHandled => exact ⟨rfl, .refl s, _, hprep.add hcontent hversion prepared.mergedTexts⟩
        | merged data =>
          rw [Comp.wp_bind]
          refine Comp.wp_ofExcept.mpr ⟨fun _ _ => ?_, fun _ _ => trivial⟩
          exact ⟨rfl, .refl s, _, hprep.add hcontent hversion _⟩
        | conflict reason =>
          rw [Comp.wp_bind]
          refine Comp.wp_ofExcept.mpr ⟨fun remote _ => ?_, fun _ _ => trivial⟩
          rw [Comp.wp_bind, Comp.wp_modify]
          exact ⟨rfl, ⟨⟨rfl, rfl, le_rfl⟩, rfl, rfl, rfl⟩, files, hprep.fail key localState _⟩
  · next hop =>
    exact ⟨rfl, .refl s, files, hprep.skip fun key localState e => hop key localState e⟩

/-- The change that an operation of the plan is published as. -/
def PlanOperation.Change (s : RuntimeState) (round : Round) (change : ResourceChange) :
    PlanOperation → Prop
  | .publishDelete _ => change = .delete
  | .upload key localState => ∃ content, round.contents[key]? = some content ∧
      localState.versionToken = some content.versionToken ∧
      (content.kind = .binary → content.data ∈ round.files ∧ change = binarySnapshot content.data) ∧
      (content.kind = .text → ∃ client doc text, uploadBase s round.prepared key = .ok doc ∧
        fromUtf8 (round.prepared.mergedTexts[key]?.getD content.data) = .ok text ∧
        change = .textDelta (TextDoc.setText client doc text).2)
  | _ => False

/-- The commit that an operation of the plan is published as. -/
structure Uploaded (s : RuntimeState) (round : Round) (x : Commit) (operation : PlanOperation) :
    Prop where
  resource : x.resource = operation.key
  parents : x.parents = sortDedup (s.heads operation.key)
  change : operation.Change s round x.change

theorem Uploaded.congr {s t : RuntimeState} {round : Round} {x : Commit}
    {operation : PlanOperation} (hx : Uploaded s round x operation)
    (hcommits : t.commits = s.commits) (hbaselines : t.baselines = s.baselines)
    (htexts : t.textStates = s.textStates) : Uploaded t round x operation := by
  refine ⟨hx.resource, by rw [hx.parents, RuntimeState.heads_of_commits hcommits], ?_⟩
  have hbase : ∀ key, uploadBase t round.prepared key = uploadBase s round.prepared key := fun key => by
    simp only [uploadBase, RuntimeState.textDoc_of_commits hcommits, hbaselines, htexts]
  have hchange := hx.change
  cases operation with
  | upload key localState =>
    obtain ⟨content, hc, hv, hbin, htext⟩ := hchange
    refine ⟨content, hc, hv, hbin, fun hk => ?_⟩
    obtain ⟨client, doc, text, hdoc, ht, e⟩ := htext hk
    exact ⟨client, doc, text, by rw [hbase, hdoc], ht, e⟩
  | _ => exact hchange

theorem Considers.congr {s t : RuntimeState} {locals : List LocalResource} {key : ResourceKey}
    {l : ReplicaState} {b : Option BaselineState} {r : RemoteResourceState}
    (hx : Considers s locals key l b r) (h : SameBase s t) : Considers t locals key l b r :=
  ⟨hx.locals, by rw [h.baselines]; exact hx.baseline,
    by rw [RuntimeState.remoteState_of_commits h.commits, hx.remote]⟩

theorem operationChange_change (round : Round) {operation : PlanOperation}
    (hup : operation.isUpload = true)
    (hholds : ∀ key localState, operation = .upload key localState →
      round.prepared.Holds round.contents round.files key localState)
    (hfailed : operation.key ∉ round.prepared.failedUploadKeys)
    (hC : ∀ h s q, IsRead q → C h s q) (h : H) (s : RuntimeState) :
    Comp.wp T C (fun _ _ _ => True) (operationChange round.contents round.prepared operation)
      (fun _ s' change => s' = s ∧ ∃ value, change = some value ∧
        operation.Change s round value) h s := by
  cases operation with
  | publishDelete key => exact ⟨rfl, _, rfl, rfl⟩
  | upload key localState =>
    obtain ⟨content, hcontent, hversion, hbin⟩ := (hholds key localState rfl).resolve_left hfailed
    simp only [operationChange, hcontent, Comp.wp_bind, uploadChange]
    cases hkind : content.kind with
    | binary =>
      obtain ⟨hmem, hmanifest⟩ := hbin hkind
      rw [hmanifest]
      refine ⟨rfl, _, rfl, content, hcontent, hversion, fun _ => ⟨hmem, rfl⟩, ?_⟩
      simp [hkind]
    | text =>
      simp only [Comp.wp_bind, Comp.wp_get]
      refine Comp.wp_ofExcept.mpr ⟨fun doc hdoc => ?_, fun _ _ => trivial⟩
      refine Comp.wp_ofExcept.mpr ⟨fun text htext => ?_, fun _ _ => trivial⟩
      refine Comp.wp_request.mpr ⟨hC _ _ _ trivial, fun client h' _ => ⟨fun client hclient => ?_,
        fun _ _ => trivial⟩⟩
      refine ⟨rfl, _, rfl, content, hcontent, hversion, by simp [hkind], fun _ => ?_⟩
      exact ⟨client, doc, text, hdoc, htext, rfl⟩
  | _ => cases hup

theorem createCommit_uploaded (rt : SyncRuntime) (round : Round) {operation : PlanOperation}
    (hup : operation.isUpload = true)
    (hholds : ∀ key localState, operation = .upload key localState →
      round.prepared.Holds round.contents round.files key localState)
    (hC : ∀ h s q, IsRead q → C h s q) {created : List Commit} (h : H) (s : RuntimeState) :
    Comp.wp T C (fun _ _ _ => True)
      (createCommit rt round.contents round.prepared created operation)
      (fun _ s' after => SameBase s s' ∧ (after = created ∨
        ∃ x, after = created ++ [x] ∧ Uploaded s round x operation)) h s := by
  rw [createCommit]
  dsimp only
  split
  · exact ⟨.refl s, Or.inl rfl⟩
  next hfailed =>
  simp only [Comp.wp_bind, Comp.wp_get, nextCounter, Comp.wp_modify, Comp.wp_pure]
  have hs : SameBase s { s with counter := s.counter + 1 } :=
    ⟨⟨rfl, rfl, Nat.le_succ _⟩, rfl, rfl, rfl⟩
  refine Comp.wp_imp (operationChange_change round hup hholds hfailed hC h _) ?_
  rintro h' _ _ ⟨rfl, change, rfl, hchange⟩
  dsimp only
  rw [Comp.wp_bind]
  refine Comp.wp_request.mpr ⟨hC _ _ _ trivial, fun now h'' _ => ⟨fun now _ => ?_,
    fun _ _ => trivial⟩⟩
  refine ⟨hs, Or.inr ⟨_, rfl, ?_⟩⟩
  have hx : Uploaded { s with counter := s.counter + 1 } round
      (Commit.create operation.key (s.heads operation.key) rt.clientId (s.counter + 1) now change)
      operation := ⟨rfl, rfl, hchange⟩
  exact hx.congr rfl rfl rfl

end Upload

section Reconcile

variable {S : Setting} {published : List Commit} {versions : List (ResourceKey × File)}
variable {C : List SyncEvent → RuntimeState → Req → Prop}

/-- Anything but a batch. -/
def NoBatch : Req → Prop
  | .commitBatch _ => False
  | _ => True

theorem Quiet.noBatch {q : Req} (hq : Quiet q) : NoBatch q := by
  cases q <;> first | exact trivial | exact hq.elim

/-- The batch that a round of `reconcile` asks for in state `s`. -/
structure Round.Publishes (S : Setting) (versions : List (ResourceKey × File)) (round : Round)
    (h : List SyncEvent) (s : RuntimeState) (batch : CommitBatch) : Prop where
  inventory : Inventoried S round.scopes round.locals
  planned : ∀ operation ∈ round.plan, Planned s round.locals operation
  keys : (round.plan.map PlanOperation.key).Nodup
  contents : WasRead S versions round.contents
  uploaded : ∀ x ∈ batch.commits, ∃ operation ∈ round.plan, operation.isUpload = true ∧
    Uploaded s round x operation
  order : (batch.commits.map Commit.resource).Sublist (round.plan.map PlanOperation.key)
  looked : Looked h round.files round.existing
  packs : batch.packs = (packBatch (newChunks (chunksOf round.files) round.existing)).packs
  indexes : batch.indexes = (packBatch (newChunks (chunksOf round.files) round.existing)).indexes

instance : IsPreorder RuntimeState Extends where
  refl _ _ h := h
  trans _ _ _ := Extends.trans

theorem afterCommit_extends (locals : List LocalResource) (tally : Tally) (commit : Commit) :
    Comp.Within Quiet Extends (afterCommit locals tally commit) := by
  have hinsert : ∀ s : RuntimeState, Extends s { s with commits := s.commits.insert commit } :=
    fun s => (Grown.insert (List.mem_singleton_self commit)).extends
  have hsilent : ∀ {α : Type} (x : Sync α), Silent x → Comp.Within Quiet Extends x :=
    fun x hx => hx.mono (fun _ hq => hq) fun _ _ hs => hs.extends
  refine .bind (.modify hinsert) fun _ => .bind .get fun _ => ?_
  split
  · exact hsilent _ (.bind (.modify fun _ => ⟨rfl, rfl, le_rfl⟩) fun _ => .pure _)
  · exact hsilent _ (.bind (.modify fun _ => ⟨rfl, rfl, le_rfl⟩) fun _ => .pure _)
  · exact hsilent _ (writeBack_silent _ _ _ _)

theorem publishBatch_publishes (hC : ∀ h s q, NoBatch q → C h s q) (locals : List LocalResource)
    {batch : CommitBatch} (tally : Tally) {h : List SyncEvent} {s : RuntimeState}
    (hbatch : C h s (.commitBatch batch)) :
    Comp.wp (Prog.fairly (Fair S published versions)) C (fun _ _ _ => True)
      (publishBatch locals batch tally) (fun _ _ _ => True) h s := by
  rw [publishBatch]
  split
  · trivial
  rw [Comp.wp_bind]
  refine Comp.wp_request.mpr ⟨hbatch, fun r h' _ => ⟨fun _ _ => ?_, fun _ _ => trivial⟩⟩
  have hrest : Comp.Within Quiet Extends (do
      let tally ← batch.commits.foldlM (afterCommit locals) tally
      Sync.saveRuntimeState
      return tally : Sync Tally) :=
    .bind (.foldlM (afterCommit_extends locals) _ _) fun _ =>
      .bind (.request (by exact trivial) _) fun _ => .pure _
  exact Comp.wp_mono (hrest.frame (fun h s q hq => hC h s q hq.noBatch) h' s)
    (fun _ _ _ _ => trivial) fun _ _ _ _ => trivial

/-- Up to its batch, the uploads of a plan leave the state as the planner saw it. -/
theorem runUploads_round {E : List SyncEvent → RuntimeState → SyncError → Prop}
    {Q : List SyncEvent → RuntimeState → Tally → Prop} (rt : SyncRuntime) {scopes : List String}
    {locals : List LocalResource} {plan : List PlanOperation} (tally : Tally)
    (hinv : Inventoried S scopes locals) (hkeys : (plan.map PlanOperation.key).Nodup)
    (h : List SyncEvent) (s : RuntimeState)
    (hplan : ∀ operation ∈ plan, Planned s locals operation)
    (hC : ∀ h s' q, SameBase s s' → NoBatch q → C h s' q)
    (hE : ∀ h s' e, SameBase s s' → E h s' e)
    (hbatch : ∀ (round : Round) h s' batch tally, round.plan = plan → SameBase s s' →
      round.Publishes S versions h s' batch →
      Comp.wp (Prog.fairly (Fair S published versions)) C E (publishBatch locals batch tally) Q h s') :
    Comp.wp (Prog.fairly (Fair S published versions)) C E (runUploads rt locals plan tally) Q h s := by
  have hprepares : ∀ {α : Type} {x : Sync α} {h' : List SyncEvent} {s' : RuntimeState},
      Prepares x → SameBase s s' → Comp.wp (Prog.fairly (Fair S published versions)) C E x
        (fun _ t _ => SameBase s t) h' s' := by
    intro α x h' s' hx hs
    refine Comp.wp_mono (Comp.Within.wp (J := fun _ t => SameBase s t) hx
      (fun _ _ _ hj hr => hj.trans hr) (fun _ _ _ hj hq => hC _ _ _ hj hq.quiet.noBatch)
      (fun _ _ _ _ _ hj _ _ => hj) hs) (fun _ _ _ hj => hE _ _ _ hj) fun _ _ _ hj => hj
  rw [runUploads, Comp.wp_bind]
  refine Comp.wp_request.mpr ⟨hC _ _ _ (.refl s) trivial, ?_⟩
  rintro r _ ⟨rfl, hfair⟩
  refine ⟨fun contents hr => ?_, fun _ _ => hE _ _ _ (.refl s)⟩
  obtain rfl : r = .ok contents := hr
  obtain ⟨files, hfiles, rfl⟩ := hfair
  have hread := wasRead_of_read (S := S) hfiles (uploadKeys (plan.filter PlanOperation.isUpload))
  generalize contentMap (S.read files (uploadKeys (plan.filter PlanOperation.isUpload))) =
    contents at hread ⊢
  rw [Comp.wp_bind]
  -- the uploads are prepared one by one
  refine Comp.wp_imp (Comp.wp_foldlM (fun rest _ s' (prepared : Prepared) => SameBase s s' ∧
      ∃ done files, plan.filter PlanOperation.isUpload = done ++ rest ∧
        prepared.Covers contents files done) ?_ ⟨.refl s, [], [], rfl, rfl, by simp⟩) ?_
  · rintro operation rest h' s' prepared ⟨hs, done, files, hdone, hcovers⟩
    refine Comp.wp_imp (Comp.wp_and
      (hprepares (prepareUpload_prepares rt contents prepared operation) hs)
      (prepareUpload_covers (C := fun _ _ _ => True) rt hcovers operation h' s')) ?_
    rintro h'' s'' prepared' ⟨hs', -, -, files', hcovers'⟩
    exact ⟨hs', _, files', by simp [hdone], hcovers'⟩
  rintro h₁ s₁ prepared ⟨hs₁, done, files, hdone, hcovers⟩
  rw [List.append_nil] at hdone
  subst hdone
  rw [Comp.wp_bind]
  refine Comp.wp_request.mpr ⟨hC _ _ _ hs₁ trivial, ?_⟩
  rintro r _ ⟨rfl, -⟩
  refine ⟨fun existing hr => ?_, fun _ _ => hE _ _ _ hs₁⟩
  obtain rfl : r = .ok existing := hr
  rw [Comp.wp_bind]
  -- and turned into commits, the memory as it was for the planner
  refine Comp.wp_imp (Comp.wp_and_invariant (J := fun h' =>
      (⟨s₁, .lookupChunks (prepared.allChunks.map fun chunk => chunk.1.hash), .ok existing⟩ :
        SyncEvent) ∈ h') (Comp.wp_foldlM (fun rest h' s' created => SameBase s s' ∧
      ∃ done, plan.filter PlanOperation.isUpload = done ++ rest ∧
        (created.map Commit.resource).Sublist (done.map PlanOperation.key) ∧
        ∀ x ∈ created, ∃ operation ∈ plan, operation.isUpload = true ∧
          Uploaded s ⟨scopes, locals, plan, contents, prepared, files, existing⟩ x operation) ?_
      ⟨hs₁, [], rfl, .slnil, by simp⟩) ?_ List.mem_cons_self) ?_
  · rintro operation rest h' s' created ⟨hs, done, hdone, hsub, hcreated⟩
    have hop : operation ∈ plan.filter PlanOperation.isUpload := by simp [hdone]
    obtain ⟨hmem, hup⟩ := List.mem_filter.mp hop
    refine Comp.wp_imp (Comp.wp_and
      (hprepares (createCommit_prepares rt contents prepared created operation) hs)
      (createCommit_uploaded (C := fun _ _ _ => True) rt
        ⟨scopes, locals, plan, contents, prepared, files, existing⟩ hup ?_
        (fun _ _ _ _ => trivial) h' s')) ?_
    · rintro key localState rfl
      exact hcovers.holds key localState hop
    · rintro h'' s'' after ⟨hs', -, rfl | ⟨x, rfl, hx⟩⟩
      · refine ⟨hs', done ++ [operation], by simp [hdone], ?_, hcreated⟩
        rw [List.map_append]
        exact hsub.trans (List.sublist_append_left _ _)
      · refine ⟨hs', done ++ [operation], by simp [hdone], ?_, fun y hy => ?_⟩
        · rw [List.map_append, List.map_append, List.map_singleton, List.map_singleton,
            hx.resource]
          exact hsub.append (List.Sublist.refl _)
        · rcases List.mem_append.mp hy with hy | hy
          · exact hcreated y hy
          · rw [List.mem_singleton.mp hy]
            exact ⟨operation, hmem, hup,
              hx.congr hs.commits.symm hs.baselines.symm hs.textStates.symm⟩
  · rintro h' e _ ⟨rfl, -⟩ he
    exact List.mem_cons_of_mem _ he
  rintro h₂ s₂ created ⟨⟨hs₂, done, hdone, hsub, hcreated⟩, hlooked⟩
  rw [List.append_nil] at hdone
  subst hdone
  refine hbatch ⟨scopes, locals, plan, contents, prepared, files, existing⟩ _ _ _ _ rfl hs₂
    ⟨hinv, ?_, hkeys, hread, ?_, ?_,
      Or.inr ⟨s₁, by rw [← hcovers.chunks]; exact hlooked⟩, by rw [hcovers.chunks],
      by rw [hcovers.chunks]⟩
  · intro operation hop
    obtain ⟨l, b, r, hc, e⟩ := hplan operation hop
    exact ⟨l, b, r, hc.congr hs₂, e⟩
  · intro x hx
    obtain ⟨operation, hop, hup, hu⟩ := hcreated x hx
    exact ⟨operation, hop, hup, hu.congr hs₂.commits hs₂.baselines hs₂.textStates⟩
  · exact hsub.trans (List.filter_sublist.map _)

theorem runUploads_publishes (hC : ∀ h s q, NoBatch q → C h s q)
    (hbatch : ∀ (round : Round) h s batch, round.Publishes S versions h s batch →
      C h s (.commitBatch batch))
    (rt : SyncRuntime) {scopes : List String} {locals : List LocalResource}
    {plan : List PlanOperation} (tally : Tally) (hinv : Inventoried S scopes locals)
    (hkeys : (plan.map PlanOperation.key).Nodup) (h : List SyncEvent) (s : RuntimeState)
    (hplan : ∀ operation ∈ plan, Planned s locals operation) :
    Comp.wp (Prog.fairly (Fair S published versions)) C (fun _ _ _ => True)
      (runUploads rt locals plan tally) (fun _ _ _ => True) h s :=
  runUploads_round rt tally hinv hkeys h s hplan (fun h s' q _ hq => hC h s' q hq)
    (fun _ _ _ _ => trivial) fun round h s' batch tally _ _ hround =>
      publishBatch_publishes hC locals tally (hbatch round h s' batch hround)

theorem execute_publishes (hC : ∀ h s q, NoBatch q → C h s q)
    (hbatch : ∀ (round : Round) h s batch, round.Publishes S versions h s batch →
      C h s (.commitBatch batch))
    (rt : SyncRuntime) (request : SyncRequest) {scopes : List String}
    {locals : List LocalResource} {plan : List PlanOperation} (hinv : Inventoried S scopes locals)
    (hkeys : (plan.map PlanOperation.key).Nodup) (h : List SyncEvent) (s : RuntimeState)
    (hplan : ∀ operation ∈ plan, Planned s locals operation) :
    Comp.wp (Prog.fairly (Fair S published versions)) C (fun _ _ _ => True)
      (execute rt request locals plan) (fun _ _ _ => True) h s := by
  have hstart : Comp.Within Quiet SameBase (startRun request plan) :=
    .bind (.modify fun _ => ⟨⟨rfl, rfl, le_rfl⟩, rfl, rfl, rfl⟩) fun _ => .request (by exact trivial) _
  have hquiet : ∀ h s q, Quiet q → C h s q := fun h s q hq => hC h s q hq.noBatch
  simp only [execute]
  rw [Comp.wp_bind]
  refine Comp.wp_mono (hstart.frame hquiet h s) (fun _ _ _ _ => trivial) ?_
  rintro h₁ s₁ _ ⟨hs, -⟩
  rw [Comp.wp_bind]
  refine Comp.wp_imp (runUploads_publishes hC hbatch rt _ hinv hkeys h₁ s₁ fun operation hop => ?_) ?_
  · obtain ⟨l, b, r, hc, e⟩ := hplan operation hop
    exact ⟨l, b, r, hc.congr hs, e⟩
  intro h₂ s₂ tally _
  have hrest : Silent (do
      let tally ← plan.foldlM (runOperation locals) tally
      acknowledgePlan rt plan
      Comp.modify fun state => { state with activeRun := none }
      Sync.saveRuntimeState
      return { tally.report with scopes := reportScopes request plan tally.failures } :
        Sync SyncReport) :=
    .bind (.foldlM (runOperation_silent locals) plan tally) fun _ =>
      .bind (acknowledgePlan_silent rt plan) fun _ =>
      .bind (.modify fun _ => ⟨rfl, rfl, le_rfl⟩) fun _ =>
      .bind (.request (by exact trivial) _) fun _ => .pure _
  exact Comp.wp_mono (Comp.Within.frame hrest hquiet h₂ s₂) (fun _ _ _ _ => trivial)
    fun _ _ _ _ => trivial

theorem refreshRemote_noBatch (scopes : List String) :
    Comp.Within NoBatch Anyhow (refreshRemote scopes) :=
  .bind .get fun _ => .bind (.request (by exact trivial) _) fun _ =>
    .bind (.modify fun _ => trivial) fun _ => .bind .get fun _ =>
    .bind (.request (by exact trivial) _) fun _ => .modify fun _ => trivial

theorem snapshotLargeCatalogs_noBatch (rt : SyncRuntime) :
    Comp.Within NoBatch Anyhow (snapshotLargeCatalogs rt) :=
  .bind .get fun _ => .foldlM (fun _ _ => .bind .get fun _ =>
    .bind (.request (by exact trivial) _) fun _ => .bind (.request (by exact trivial) _) fun _ =>
    .modify fun _ => trivial) _ _

/-- Every batch of `reconcile` is the batch of a round. -/
theorem reconcile_publishes (hC : ∀ h s q, NoBatch q → C h s q)
    (hbatch : ∀ (round : Round) h s batch, round.Publishes S versions h s batch →
      C h s (.commitBatch batch))
    (rt : SyncRuntime) (request : SyncRequest) (h : List SyncEvent) (s : RuntimeState) :
    Comp.wp (Prog.fairly (Fair S published versions)) C (fun _ _ _ => True)
      (Rollforward.reconcile rt request) (fun _ _ _ => True) h s := by
  simp only [Rollforward.reconcile]
  rw [Comp.wp_bind, Comp.wp_modify, Comp.wp_bind]
  refine Comp.wp_mono ((refreshRemote_noBatch _).frame hC h _) (fun _ _ _ _ => trivial) ?_
  intro h₁ s₁ _ _
  rw [Comp.wp_bind]
  refine Comp.wp_mono ((snapshotLargeCatalogs_noBatch rt).frame hC h₁ s₁)
    (fun _ _ _ _ => trivial) ?_
  intro h₂ s₂ _ _
  rw [Comp.wp_bind]
  refine Comp.wp_imp (localInventory_inventoried
    (fun h s q hq => hC h s q hq.quiet.noBatch) h₂ s₂) ?_
  rintro h₃ s₃ locals ⟨-, -, hinv⟩
  rw [Comp.wp_bind, Comp.wp_modify, Comp.wp_bind, Comp.wp_get, Comp.wp_bind]
  refine Comp.wp_ofExcept.mpr ⟨fun plan hplan => ?_, fun _ _ => trivial⟩
  exact execute_publishes hC hbatch rt request hinv (buildPlan_nodup hplan) h₃ _
    fun operation hop => mem_buildPlan hplan (fun r hr => (hinv r hr).1) hop

end Reconcile

end Rollforward
