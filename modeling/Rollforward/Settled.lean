import Rollforward.Alone
import Rollforward.Catalog.Scan
import Rollforward.Conflicts
import Rollforward.Identity
import Rollforward.Rounds

/-! A resource whose file, baseline and head agree is left as it is by `reconcile`, whatever
happens to the other resources. -/

namespace Rollforward

open Std Lib

section Frames

variable [Crates] {key : ResourceKey} {s t u : RuntimeState}

/-- What is kept about a resource while commits of other resources come in. -/
structure KeepsCommits (key : ResourceKey) (s t : RuntimeState) : Prop where
  created : ∀ x ∈ t.commits, x.Created
  commits : ∀ x : Commit, x.resource = key → (x ∈ t.commits ↔ x ∈ s.commits)

/-- The memory is left alone as far as the resource goes.  Ids are telling only if the commits
at hand were made by `Commit::create`. -/
def Spares (key : ResourceKey) (s t : RuntimeState) : Prop :=
  (∀ x ∈ s.commits, x.Created) → KeepsCommits key s t ∧
    t.baselines.get? key.encoded = s.baselines.get? key.encoded ∧
    ∀ record ∈ t.conflicts, record.resource = key → record ∈ s.conflicts

instance : IsPreorder RuntimeState (Spares key) where
  refl _ hcreated := ⟨⟨hcreated, fun _ _ => Iff.rfl⟩, rfl, fun _ hr _ => hr⟩
  trans _ _ _ hst htu hcreated := by
    obtain ⟨hc, hb, hq⟩ := hst hcreated
    obtain ⟨hc', hb', hq'⟩ := htu hc.created
    exact ⟨⟨hc'.created, fun x hx => (hc'.commits x hx).trans (hc.commits x hx)⟩, hb'.trans hb,
      fun record hr hkey => hq record (hq' record hr hkey) hkey⟩

theorem Spares.of_same (hcommits : t.commits = s.commits)
    (hbaseline : t.baselines.get? key.encoded = s.baselines.get? key.encoded)
    (hconflicts : t.conflicts = s.conflicts) : Spares key s t := by
  intro hcreated
  refine ⟨⟨?_, ?_⟩, hbaseline, ?_⟩
  · rwa [hcommits]
  · intro x _
    rw [hcommits]
  · intro record hr _
    rwa [← hconflicts]

theorem Spares.present {key' : ResourceKey} (hne : key'.encoded ≠ key.encoded)
    (contentId version : String) (heads : List String) (textStates : Map String Yrs.Update) :
    Spares key s ({ s with textStates }.setPresentBaseline key' contentId version heads) :=
  .of_same rfl (by rw [RuntimeState.setPresentBaseline, KeyedMap.get?_insert, if_neg hne]) rfl

theorem Spares.deleted {key' : ResourceKey} (hne : key'.encoded ≠ key.encoded)
    (heads : List String) : Spares key s (s.setDeletedBaseline key' heads) :=
  .of_same rfl (by rw [RuntimeState.setDeletedBaseline, KeyedMap.get?_insert, if_neg hne]) rfl

/-- A commit of another resource has another id. -/
theorem Spares.commit (hcol : Collisionless) {x : Commit} (hx : x.Created)
    (hne : x.resource ≠ key) : Spares key s { s with commits := s.commits.insert x } := by
  intro hcreated
  refine ⟨⟨?_, ?_⟩, rfl, fun _ hr _ => hr⟩
  · intro y hy
    rcases KeyedMap.mem_insert.mp hy with rfl | hy
    · exact hx
    · exact hcreated y hy.1
  · intro y hkey
    rw [KeyedMap.mem_insert]
    constructor
    · rintro (rfl | hy)
      · exact absurd hkey hne
      · exact hy.1
    · intro hy
      refine Or.inr ⟨hy, fun e => hne ?_⟩
      rw [← (hcreated y hy).ext hcol hx e, hkey]

/-- No file of the resource is touched, and nothing that is stored is given up. -/
def Avoids (key : ResourceKey) : Req → Prop
  | .applyMutations mutations => ∀ mutation ∈ mutations, mutation.key ≠ key
  | .compactCatalog compaction => compaction.obsoleteCommitIds = []
  | _ => True

/-- The footprint of what concerns other resources. -/
def Sparing (key : ResourceKey) (x : Sync α) : Prop := Comp.Within (Avoids key) (Spares key) x

theorem IsRead.avoids {q : Req} (hq : IsRead q) : Avoids key q := by
  cases q <;> first | exact trivial | exact hq.elim

theorem Reads.sparing {x : Sync α} (hx : Reads x) : Sparing key x :=
  Comp.Within.mono hx (fun _ => IsRead.avoids) fun s _ e => e ▸ refl_of (Spares key) s

theorem nextCounter_sparing : Sparing key nextCounter :=
  .bind (.modify fun _ => .of_same rfl rfl rfl) fun _ => .bind .get fun _ => .pure _

theorem applyMutation_sparing {mutation : LocalMutation} (hne : mutation.key ≠ key)
    (noResult : String) (refused : Option String → String) :
    Sparing key (applyMutation mutation noResult refused) := by
  refine .bind (.request ?_ _) fun results => ?_
  · intro m hm
    rwa [List.mem_singleton.mp hm]
  · split
    · exact .throw _
    · split
      · exact .pure _
      · exact .throw _

theorem prepareUpload_sparing (rt : SyncRuntime) (contents : Map ResourceKey ResourceContent)
    (prepared : Prepared) {operation : PlanOperation} (hne : operation.key ≠ key) :
    Sparing key (prepareUpload rt contents prepared operation) := by
  unfold prepareUpload
  split
  · split
    · exact .pure _
    · split
      · exact .pure _
      · refine .bind .get fun state => .bind (.ofExcept _) fun verdict => ?_
        cases verdict with
        | notHandled => exact .pure _
        | merged data => exact .bind (.ofExcept _) fun _ => .pure _
        | conflict reason =>
          refine .bind (.ofExcept _) fun _ => .bind (.modify fun s hcreated => ?_) fun _ => .pure _
          refine ⟨⟨hcreated, fun _ _ => Iff.rfl⟩, rfl, fun record hr hkey => ?_⟩
          rcases KeyedMap.mem_insert.mp hr with rfl | hr
          · exact absurd hkey hne
          · exact hr.1
  · exact .pure _

theorem createCommit_sparing (rt : SyncRuntime) (contents : Map ResourceKey ResourceContent)
    (prepared : Prepared) (created : List Commit) (operation : PlanOperation) :
    Sparing key (createCommit rt contents prepared created operation) := by
  rw [createCommit]
  dsimp only
  split
  · exact .pure _
  refine .bind .get fun _ => .bind nextCounter_sparing fun _ =>
    .bind (operationChange_reads _ _ _).sparing fun change => ?_
  cases change with
  | none => exact .pure _
  | some change => exact .bind (.request (by exact trivial) _) fun _ => .pure _

theorem writeBack_sparing (locals : List LocalResource) (tally : Tally) {key' : ResourceKey}
    (hne : key'.encoded ≠ key.encoded) (heads : List String) :
    Sparing key (writeBack locals tally key' heads) := by
  refine .bind .get fun _ => .bind (.ofExcept _) fun _ => .bind (.request ?_ _) fun _ => ?_
  · intro m hm
    obtain rfl := List.mem_singleton.mp hm
    exact fun e => hne (congrArg ResourceKey.encoded e)
  · split
    · exact .bind (.modify fun _ => .present hne _ _ _ _) fun _ => .pure _
    · exact .pure _

theorem afterCommit_sparing (hcol : Collisionless) (locals : List LocalResource) (tally : Tally)
    {x : Commit} (hx : x.Created) (hne : x.resource.encoded ≠ key.encoded) :
    Sparing key (afterCommit locals tally x) := by
  have hres : x.resource ≠ key := fun e => hne (congrArg ResourceKey.encoded e)
  refine .bind (.modify fun _ => .commit hcol hx hres) fun _ => .bind .get fun _ => ?_
  split
  · exact .bind (.modify fun _ => .deleted hne _) fun _ => .pure _
  · exact .bind (.modify fun s => .present hne _ _ _ s.textStates) fun _ => .pure _
  · exact writeBack_sparing locals tally hne _

theorem publishBatch_sparing (hcol : Collisionless) (locals : List LocalResource)
    {batch : CommitBatch} (hbatch : ∀ x ∈ batch.commits, x.Created ∧
      x.resource.encoded ≠ key.encoded) (tally : Tally) :
    Sparing key (publishBatch locals batch tally) := by
  have hloop : Sparing key (batch.commits.foldlM (afterCommit locals) tally) :=
    .foldlM_mem (fun x hx tally => afterCommit_sparing hcol locals tally (hbatch x hx).1
      (hbatch x hx).2) _
  unfold publishBatch
  split
  · exact .pure _
  · exact .bind (.request (by exact trivial) _) fun _ => .bind hloop fun _ =>
      .bind (.request (by exact trivial) _) fun _ => .pure _

theorem recordText_sparing (key' : ResourceKey) : Sparing key (recordText key') :=
  .bind .get fun _ => .bind (.ofExcept _) fun _ => .modify fun _ => .of_same rfl rfl rfl

theorem noteText_sparing (key' : ResourceKey) (selected : Option String) :
    Sparing key (noteText key' selected) := by
  refine .bind .get fun state => ?_
  split
  · exact .bind (recordText_sparing key') fun _ => .modify fun _ => .of_same rfl rfl rfl
  · exact .pure _

theorem keepText_sparing (key' : ResourceKey) : Sparing key (keepText key') := by
  refine .bind .get fun state => ?_
  split
  · exact recordText_sparing key'
  · exact .pure _

theorem applyOperation_sparing (locals : List LocalResource) (tally : Tally)
    {operation : PlanOperation} (hne : operation.key.encoded ≠ key.encoded) :
    Sparing key (applyOperation locals tally operation) := by
  have hkey : operation.key ≠ key := fun e => hne (congrArg ResourceKey.encoded e)
  unfold applyOperation
  split
  · exact .pure _
  · exact .bind (keepText_sparing _) fun _ =>
      .bind (.modify fun s => .present hne _ _ _ s.textStates) fun _ => .pure _
  · exact .bind (.modify fun _ => .deleted hne _) fun _ => .pure _
  · exact .bind (announceDownload_reads _).sparing fun _ =>
      .bind (contentForRemote_reads _ _).sparing fun _ =>
      .bind (applyMutation_sparing (by exact hkey) _ _) fun _ =>
      .bind (noteText_sparing _ _) fun _ =>
      .bind (.modify fun s => .present hne _ _ _ s.textStates) fun _ => .pure _
  · exact .bind (applyMutation_sparing (by exact hkey) _ _) fun _ =>
      .bind (.modify fun _ => .deleted hne _) fun _ => .pure _
  · exact .pure _
  · exact .pure _
  · exact .pure _

theorem runOperation_sparing (locals : List LocalResource) (tally : Tally)
    {operation : PlanOperation} (hne : operation.key.encoded ≠ key.encoded) :
    Sparing key (runOperation locals tally operation) := by
  refine .bind (.attempt (applyOperation_sparing locals tally hne)) fun outcome =>
    .bind (.request (by exact trivial) _) fun _ => ?_
  split
  · exact .pure _
  · exact .pure _

end Frames

section Sites

variable [Crates] {S : Setting} {key : ResourceKey} {site site' : Site} {s : RuntimeState}

/-- The file of the resource is the same, and every commit is still stored. -/
structure Site.Keeps (key : ResourceKey) (site site' : Site) : Prop where
  file : site'.files[key]? = site.files[key]?
  stored : ∀ x ∈ site.remote.commits, x ∈ site'.remote.commits

theorem Site.Keeps.refl (site : Site) : site.Keeps key site := ⟨rfl, fun _ hx => hx⟩

theorem Site.Keeps.trans {site'' : Site} (h : site.Keeps key site') (h' : site'.Keeps key site'') :
    site.Keeps key site'' :=
  ⟨h'.file.trans h.file, fun x hx => h'.stored x (h.stored x hx)⟩

omit [Crates] in
theorem Files.get?_set (files : Files) (key key' : ResourceKey) (file : Option File) :
    (files.set key' file)[key]? = if key' = key then file else files[key]? := by
  cases file with
  | none => exact Map.get?_erase ..
  | some file => exact Map.get?_insert ..

omit [Crates] in
theorem Files.Applied.other {files files' : Files} {mutations : List LocalMutation}
    {results : List LocalApplyResult} (h : files.Applied mutations results files')
    (hne : ∀ mutation ∈ mutations, mutation.key ≠ key) : files'[key]? = files[key]? := by
  induction h with
  | nil => rfl
  | applied _ _ ih =>
    obtain ⟨hfirst, hrest⟩ := List.forall_mem_cons.mp hne
    rw [ih hrest, Files.get?_set, if_neg hfirst]
  | refused _ _ ih => exact ih (List.forall_mem_cons.mp hne).2

theorem Site.Serves.keeps {e : SyncEvent} (h : site.Serves S e site') (hq : Avoids key e.req) :
    site.Keeps key site' := by
  unfold Site.Serves at h
  split at h
  · exact h.1 ▸ .refl _
  · exact h.1 ▸ .refl _
  · exact h ▸ ⟨rfl, fun _ hx => mem_foldl_writeCommit_of_mem hx⟩
  · exact h.1 ▸ .refl _
  · exact h.1 ▸ .refl _
  · exact h ▸ ⟨rfl, fun _ hx => hx⟩
  · exact h ▸ ⟨rfl, fun _ hx => hx⟩
  · refine h ▸ ⟨rfl, fun x hx => ?_⟩
    rw [Remote.compactCatalog, KeyedMap.mem_eraseAll, hq]
    exact ⟨hx, List.not_mem_nil⟩
  · exact h.1 ▸ .refl _
  · exact h.1 ▸ .refl _
  · refine ⟨h.2.other hq, fun x hx => ?_⟩
    rwa [h.1]
  · exact h ▸ .refl _

/-- What concerns other resources leaves this one, failed or not. -/
theorem Sparing.wp {x : Sync α} (hx : Sparing key x) :
    Comp.wp (Site.Serves S) (fun _ _ _ => True)
      (fun site' s' _ => site.Keeps key site' ∧ Spares key s s') x
      (fun site' s' _ => site.Keeps key site' ∧ Spares key s s') site s := by
  refine Comp.Within.wp (J := fun site' s' => site.Keeps key site' ∧ Spares key s s') hx ?_ ?_ ?_
    ⟨.refl site, refl_of (Spares key) s⟩
  · exact fun _ _ _ hj hr => ⟨hj.1, trans_of (Spares key) hj.2 hr⟩
  · exact fun _ _ _ _ _ => trivial
  · exact fun _ _ _ _ _ hj hq hserves => ⟨hj.1.trans (hserves.keeps hq), hj.2⟩

theorem Sparing.returns {x : Sync α} (hx : Sparing key x) :
    Returns S x (fun site' s' _ => site.Keeps key site' ∧ Spares key s s') site s :=
  Comp.wp_mono hx.wp (fun _ _ _ _ => trivial) fun _ _ _ hj => hj

end Sites

section Inventory

variable [Crates] {S : Setting} {key : ResourceKey} {site : Site} {s : RuntimeState}
variable {scopes : List String} {locals : List LocalResource} {files : Files}

/-- How an inventory shows a file: with its digest, or with the one that the baseline vouches
for. -/
def File.ShownAs (file : File) (s : RuntimeState) (key : ResourceKey) (state : ReplicaState) :
    Prop :=
  match file.data with
  | some data => ∃ contentId, state = .present contentId data.length file.versionToken ∧
      (contentId = blake3 data ∨ s.cachedId key file.versionToken = some contentId)
  | none => state = .deleted file.versionToken

/-- The inventory that is taken of files. -/
structure Inventory (S : Setting) (files : Files) (scopes : List String) (s : RuntimeState)
    (locals : List LocalResource) : Prop where
  shown : ∀ resource ∈ locals, inScopes scopes resource.key.scopeId = true ∧
    resource.kind = S.kindOf resource.key ∧ ∃ file, files[resource.key]? = some file ∧
      file.ShownAs s resource.key resource.state
  complete : ∀ (key : ResourceKey) file, files[key]? = some file →
    inScopes scopes key.scopeId = true → ∃ resource ∈ locals, resource.key = key

theorem Setting.mem_list {scopes : List String} {shown : ResourceKey → Bool}
    {resource : LocalResource} : resource ∈ S.list files scopes shown ↔
      ∃ file, files[resource.key]? = some file ∧ inScopes scopes resource.key.scopeId = true ∧
        resource = ⟨resource.key, S.kindOf resource.key, file.state (shown resource.key)⟩ := by
  rw [Setting.list, List.mem_map]
  constructor
  · rintro ⟨⟨key, file⟩, hmem, rfl⟩
    obtain ⟨hmem, hscope⟩ := List.mem_filter.mp hmem
    exact ⟨file, ExtTreeMap.mem_toList_iff_getElem?_eq_some.mp hmem, hscope, rfl⟩
  · rintro ⟨file, hfile, hscope, he⟩
    refine ⟨(resource.key, file), List.mem_filter.mpr ⟨?_, hscope⟩, he.symm⟩
    exact ExtTreeMap.mem_toList_iff_getElem?_eq_some.mpr hfile

/-- A file that is listed without a digest is shown by the baseline, or has to be read. -/
theorem fillCached_shown (s : RuntimeState) {resource : LocalResource} {file : File} {shown : Bool}
    (hstate : resource.state = file.state shown) :
    file.ShownAs s resource.key (s.fillCached resource).state ∨
      s.needsRead resource = true ∧ ∃ data, file.data = some data ∧
        (s.fillCached resource).state = .present "" data.length file.versionToken := by
  obtain ⟨data, versionToken⟩ := file
  cases data with
  | none =>
    refine Or.inl ?_
    simp only [RuntimeState.fillCached, hstate, File.state, File.ShownAs]
  | some data =>
    simp only [File.state] at hstate
    simp only [RuntimeState.fillCached, RuntimeState.needsRead, hstate, File.ShownAs]
    generalize hid : (if shown = true then blake3 data else "") = contentId
    by_cases hempty : contentId = ""
    · rw [if_pos hempty]
      cases hcached : s.cachedId resource.key versionToken with
      | some cached => exact Or.inl ⟨cached, rfl, Or.inr rfl⟩
      | none => exact Or.inr ⟨by simp [hempty], data, rfl, rfl⟩
    · rw [if_neg hempty]
      refine Or.inl ⟨contentId, by rw [hstate, hid], Or.inl ?_⟩
      cases shown with
      | true => exact hid.symm
      | false => exact absurd hid.symm hempty

/-- What is filled in by reading is the digest of the file. -/
theorem fillRead_shown {keys : List ResourceKey} {resource resource' : LocalResource}
    {file : File} (hfile : files[resource.key]? = some file)
    (hshown : file.ShownAs s resource.key resource.state ∨ ∃ data, file.data = some data ∧
      resource.state = .present "" data.length file.versionToken)
    (h : fillRead (contentMap (S.read files keys)) resource = .ok resource') :
    file.ShownAs s resource.key resource'.state := by
  rw [fillRead] at h
  split at h
  · next contentId size versionToken hstate =>
    split at h
    · split at h
      · next content hcontent =>
        obtain rfl := Except.ok.inj h
        obtain ⟨_, hmem, he⟩ := List.mem_map.mp (Map.mem_of_get?_ofList hcontent)
        obtain ⟨hkey, rfl⟩ := Prod.mk.inj he
        obtain ⟨key', -, hread⟩ := List.mem_filterMap.mp hmem
        obtain ⟨file', hfile', hread⟩ := Option.bind_eq_some_iff.mp hread
        obtain ⟨data, hdata, rfl⟩ := Option.map_eq_some_iff.mp hread
        obtain rfl : key' = resource.key := hkey
        obtain rfl := Option.some.inj (hfile.symm.trans hfile')
        rw [File.ShownAs, hdata] at hshown ⊢
        refine ⟨blake3 data, ?_, Or.inl rfl⟩
        rcases hshown with ⟨_, he, -⟩ | ⟨_, -, he⟩ <;> rw [hstate] at he <;>
          rw [(ReplicaState.present.inj he).2.2]
      · cases h
    · next hfull =>
      obtain rfl := Except.ok.inj h
      rcases hshown with hshown | ⟨_, -, he⟩
      · exact hshown
      · rw [hstate] at he
        exact absurd (ReplicaState.present.inj he).1 hfull
  · next hpresent =>
    obtain rfl := Except.ok.inj h
    rcases hshown with hshown | ⟨_, -, he⟩
    · exact hshown
    · exact absurd he (hpresent _ _ _)

theorem localInventory_returns (scopes : List String) :
    Returns S (localInventory scopes) (fun site' s' locals => site' = site ∧ s' = s ∧
      Inventory S site.files scopes s locals) site s := by
  refine Comp.wp_bind.mpr (Comp.wp_get.mpr ?_)
  refine Returns.bind (Q := fun site' s' resources => site' = site ∧ s' = s ∧
    ∃ shown, resources = S.list site.files scopes shown) (Returns.request ?_) ?_
  · rintro r resources site' hserves hr
    obtain rfl : r = .ok resources := hr
    exact ⟨hserves.1, rfl, hserves.2⟩
  rintro site s _ ⟨rfl, rfl, shown, rfl⟩
  have hscan : ∀ resource ∈ S.list site.files scopes shown,
      inScopes scopes resource.key.scopeId = true ∧ resource.kind = S.kindOf resource.key ∧
      ∃ file, site.files[resource.key]? = some file ∧
        resource.state = file.state (shown resource.key) := by
    intro resource hr
    obtain ⟨file, hfile, hscope, he⟩ := Setting.mem_list.mp hr
    exact ⟨hscope, by rw [he], file, hfile, by rw [he]⟩
  have hcomplete : ∀ (key : ResourceKey) file, site.files[key]? = some file →
      inScopes scopes key.scopeId = true → ∃ resource ∈ S.list site.files scopes shown,
        resource.key = key := fun key file hfile hscope =>
    ⟨⟨key, S.kindOf key, file.state (shown key)⟩, Setting.mem_list.mpr ⟨file, hfile, hscope, rfl⟩,
      rfl⟩
  dsimp only
  refine Comp.wp_ite.mpr ⟨fun hreads => ⟨rfl, rfl, ?_, ?_⟩, fun hreads => ?_⟩
  · intro resource hr
    obtain ⟨listed, hl, rfl⟩ := List.mem_map.mp hr
    obtain ⟨hscope, hkind, file, hfile, hstate⟩ := hscan listed hl
    obtain ⟨hkey, hk⟩ := fillCached_key s listed
    rw [hkey, hk]
    refine ⟨hscope, hkind, file, hfile, ?_⟩
    rcases fillCached_shown s hstate with hshown | ⟨hneeds, -⟩
    · exact hshown
    · have hmem := List.mem_map_of_mem (f := LocalResource.key) (List.mem_filter.mpr ⟨hl, hneeds⟩)
      rw [hreads] at hmem
      cases hmem
  · intro key file hfile hscope
    obtain ⟨resource, hr, rfl⟩ := hcomplete key file hfile hscope
    exact ⟨_, List.mem_map_of_mem hr, (fillCached_key s resource).1⟩
  · refine Returns.bind (Q := fun site' s' contents => site' = site ∧ s' = s ∧
      ∃ keys, contents = S.read site.files keys) (Returns.request ?_) ?_
    · rintro r contents site' hserves hr
      obtain rfl : r = .ok contents := hr
      exact ⟨hserves.1, rfl, _, hserves.2⟩
    rintro site s _ ⟨rfl, rfl, keys, rfl⟩
    refine Returns.ofExcept fun locals hlocals => ⟨rfl, rfl, ?_, ?_⟩
    · intro resource hr
      obtain ⟨filled, hf, hfill⟩ := exists_of_mem_mapM hlocals hr
      obtain ⟨listed, hl, rfl⟩ := List.mem_map.mp hf
      obtain ⟨hscope, hkind, file, hfile, hstate⟩ := hscan listed hl
      obtain ⟨hkey, hk⟩ := fillCached_key s listed
      obtain ⟨hkey', hk'⟩ := fillRead_key hfill
      rw [hkey', hk', hkey, hk]
      refine ⟨hscope, hkind, file, hfile, ?_⟩
      rw [← hkey]
      refine fillRead_shown (hkey.symm ▸ hfile) ?_ hfill
      rw [hkey]
      exact (fillCached_shown s hstate).imp_right And.right
    · intro key file hfile hscope
      obtain ⟨resource, hr, rfl⟩ := hcomplete key file hfile hscope
      obtain ⟨filled, hmem, hfill⟩ := mapM_mem hlocals (List.mem_map_of_mem (f := s.fillCached) hr)
      exact ⟨filled, hmem, (fillRead_key hfill).1.trans (fillCached_key s resource).1⟩

/-- How an inventory shows a resource that may have no file. -/
def Files.ShowsAs (files : Files) (s : RuntimeState) (key : ResourceKey) (state : ReplicaState) :
    Prop :=
  match files[key]? with
  | some file => file.ShownAs s key state
  | none => state = .missing

theorem Inventory.showsAs (h : Inventory S files scopes s locals)
    (hscope : inScopes scopes key.scopeId = true) {found : Option LocalResource}
    (hfound : ∀ resource, found = some resource → resource ∈ locals ∧ resource.key = key)
    (hnone : found = none → ∀ resource ∈ locals, resource.key ≠ key) :
    files.ShowsAs s key ((found.map LocalResource.state).getD .missing) := by
  rw [Files.ShowsAs]
  cases found with
  | none =>
    cases hfile : files[key]? with
    | none => exact rfl
    | some file =>
      obtain ⟨resource, hr, hkey⟩ := h.complete key file hfile hscope
      exact absurd hkey (hnone rfl resource hr)
  | some resource =>
    obtain ⟨hr, rfl⟩ := hfound resource rfl
    obtain ⟨-, -, file, hfile, hshown⟩ := h.shown resource hr
    rw [hfile]
    exact hshown

theorem Inventory.localStateOf (h : Inventory S files scopes s locals)
    (hscope : inScopes scopes key.scopeId = true) :
    files.ShowsAs s key (localStateOf locals key) := by
  refine h.showsAs hscope (fun resource hr => ?_) fun hnone resource hr hkey => ?_
  · obtain ⟨resource', hmem, he⟩ := List.mem_map.mp (Map.mem_of_get?_ofList hr)
    obtain ⟨rfl, rfl⟩ := Prod.mk.inj he
    exact ⟨hmem, rfl⟩
  · refine Map.get?_ofList_eq_none.mp hnone (List.mem_map.mpr ⟨_, List.mem_map_of_mem hr, ?_⟩)
    exact hkey

end Inventory

section Execution

variable [Crates] {S : Setting} {key : ResourceKey} {site : Site} {s : RuntimeState}
variable {locals : List LocalResource} {plan : List PlanOperation}

/-- Where a computation that concerns other resources ends. -/
def Spared (key : ResourceKey) (site : Site) (s : RuntimeState) (site' : Site)
    (s' : RuntimeState) : Prop := site.Keeps key site' ∧ Spares key s s'

theorem Spared.refl (site : Site) (s : RuntimeState) : Spared key site s site s :=
  ⟨.refl site, refl_of (Spares key) s⟩

theorem Spared.trans {site' site'' : Site} {s' s'' : RuntimeState}
    (h : Spared key site s site' s') (h' : Spared key site' s' site'' s'') :
    Spared key site s site'' s'' :=
  ⟨h.1.trans h'.1, trans_of (Spares key) h.2 h'.2⟩

/-- Whatever is answered, the commits that are added are made by `Commit::create`. -/
theorem createCommit_made {H : Type} {T : H → SyncEvent → H → Prop} (rt : SyncRuntime)
    (contents : Map ResourceKey ResourceContent) (prepared : Prepared) (created : List Commit)
    (operation : PlanOperation) (h : H) (s : RuntimeState) :
    Comp.wp T (fun _ _ _ => True) (fun _ _ _ => True)
      (createCommit rt contents prepared created operation)
      (fun _ _ created' => ∀ x ∈ created', x ∈ created ∨ x.Created ∧ x.resource = operation.key)
      h s := by
  rw [createCommit]
  dsimp only
  refine Comp.wp_ite.mpr ⟨fun _ => fun x hx => Or.inl hx, fun _ => ?_⟩
  refine Comp.wp_bind.mpr (Comp.wp_get.mpr ?_)
  refine Comp.wp_bind.mpr (Comp.wp_imp (Comp.wp_any nextCounter) ?_)
  intro h₁ s₁ counter _
  refine Comp.wp_bind.mpr (Comp.wp_imp (Comp.wp_any (operationChange _ _ _)) ?_)
  intro h₂ s₂ change _
  cases change with
  | none => exact fun x hx => Or.inl hx
  | some change =>
    refine Comp.wp_bind.mpr (Comp.wp_request.mpr ⟨trivial, fun now _ _ => ⟨fun now _ => ?_,
      fun _ _ => trivial⟩⟩)
    intro x hx
    rcases List.mem_append.mp hx with hx | hx
    · exact Or.inl hx
    · obtain rfl := List.mem_singleton.mp hx
      exact Or.inr ⟨⟨_, _, _, _, _, _, rfl⟩, rfl⟩

theorem createCommit_returns (key : ResourceKey) (rt : SyncRuntime) (contents : Map ResourceKey ResourceContent)
    (prepared : Prepared) (created : List Commit) (operation : PlanOperation) :
    Returns S (createCommit rt contents prepared created operation)
      (fun site' s' created' => Spared key site s site' s' ∧ ∀ x ∈ created', x ∈ created ∨
        x.Created ∧ x.resource = operation.key) site s := by
  have hsparing : Sparing key (createCommit rt contents prepared created operation) :=
    createCommit_sparing rt contents prepared created operation
  exact Comp.wp_and hsparing.returns (createCommit_made rt contents prepared created operation _ _)

/-- Uploads of other resources. -/
theorem runUploads_returns (hcol : Collisionless) (rt : SyncRuntime)
    (hplan : ∀ operation ∈ plan, operation.isUpload = true →
      operation.key.encoded ≠ key.encoded) (tally : Tally) :
    Returns S (runUploads rt locals plan tally) (fun site' s' _ => Spared key site s site' s')
      site s := by
  have hne : ∀ operation ∈ plan.filter PlanOperation.isUpload,
      operation.key.encoded ≠ key.encoded := fun operation hop =>
    hplan operation (List.mem_filter.mp hop).1 (List.mem_filter.mp hop).2
  rw [runUploads]
  refine Returns.bind (Q := fun site' s' _ => site' = site ∧ s' = s) (Returns.request ?_) ?_
  · intro r contents site' hserves hr
    obtain rfl : r = .ok contents := hr
    exact ⟨hserves.1, rfl⟩
  rintro site s contents ⟨rfl, rfl⟩
  have hprepare : Sparing key ((plan.filter PlanOperation.isUpload).foldlM
      (prepareUpload rt (contentMap contents)) { tally }) :=
    .foldlM_mem (fun operation hop prepared => prepareUpload_sparing rt _ prepared
      fun e => hne operation hop (congrArg ResourceKey.encoded e)) _
  refine hprepare.returns.bind ?_
  intro site₁ s₁ prepared h₁
  refine Returns.bind (Q := fun site' s' _ => site' = site₁ ∧ s' = s₁) (Returns.request ?_) ?_
  · intro r existing site' hserves hr
    obtain rfl : r = .ok existing := hr
    exact ⟨hserves.1, rfl⟩
  rintro _ _ existing ⟨rfl, rfl⟩
  refine Returns.bind (Q := fun site' s' commits => Spared key site s site' s' ∧
    ∀ x ∈ commits, x.Created ∧ x.resource.encoded ≠ key.encoded) ?_ ?_
  · refine Comp.wp_imp (Comp.wp_foldlM (fun rest site' s' commits =>
      (Spared key site s site' s' ∧ ∀ x ∈ commits, x.Created ∧ x.resource.encoded ≠ key.encoded) ∧
      ∀ operation ∈ rest, operation.key.encoded ≠ key.encoded) ?_ ⟨⟨h₁, by simp⟩, hne⟩)
      fun _ _ _ hj => hj.1
    rintro operation rest site' s' commits ⟨⟨hspared, hcommits⟩, hrest⟩
    obtain ⟨hfirst, hrest⟩ := List.forall_mem_cons.mp hrest
    refine Comp.wp_imp (createCommit_returns key rt _ prepared commits operation) ?_
    rintro site'' s'' commits' ⟨hspared', hcommits'⟩
    refine ⟨⟨hspared.trans hspared', fun x hx => ?_⟩, hrest⟩
    rcases hcommits' x hx with hx | ⟨hx, hkey⟩
    · exact hcommits x hx
    · exact ⟨hx, by rwa [hkey]⟩
  · rintro site₂ s₂ commits ⟨h₂, hcommits⟩
    exact Returns.imp (publishBatch_sparing hcol locals hcommits _).returns
      fun _ _ _ h₃ => h₂.trans h₃

/-- What one resource can count on all through the execution of a plan that uploads nothing
for it. -/
theorem execute_returns (hcol : Collisionless) {J : Site → RuntimeState → Prop}
    (hJ : ∀ {site s site' s'}, J site s → Spared key site s site' s' → J site' s')
    (rt : SyncRuntime) (request : SyncRequest)
    (hplan : ∀ operation ∈ plan, operation.isUpload = true →
      operation.key.encoded ≠ key.encoded)
    (hown : ∀ operation ∈ plan, operation.key.encoded = key.encoded → ∀ tally site s, J site s →
      Comp.wp (Site.Serves S) (fun _ _ _ => True) (fun site' s' _ => J site' s')
        (applyOperation locals tally operation) (fun site' s' _ => J site' s') site s)
    (hstart : J site { s.recordConflicts request plan with
      activeRun := some ⟨plan.map PlanOperation.key⟩ }) :
    Returns S (execute rt request locals plan) (fun site' s' _ => J site' s') site s := by
  have hsave : ∀ {site : Site} {s : RuntimeState}, J site s →
      Returns S Sync.saveRuntimeState (fun site' s' _ => J site' s') site s := by
    intro site s hj
    refine Returns.request fun r _ site' hserves _ => ?_
    obtain rfl : site' = site := by cases r <;> exact hserves
    exact hj
  rw [execute]
  refine Returns.bind (Q := fun site' s' _ => J site' s') ?_ ?_
  · exact Comp.wp_bind.mpr (Comp.wp_modify.mpr (hsave hstart))
  intro site s _ hj
  refine (runUploads_returns hcol rt hplan _).bind ?_
  intro site₁ s₁ tally h₁
  refine Returns.bind (Q := fun site' s' _ => J site' s') ?_ ?_
  · refine Comp.wp_imp (Comp.wp_foldlM (fun rest site' s' _ => J site' s' ∧
      ∀ operation ∈ rest, operation ∈ plan) ?_ ⟨hJ hj h₁, fun _ hop => hop⟩) fun _ _ _ hj => hj.1
    rintro operation rest site' s' tally ⟨hj, hrest⟩
    obtain ⟨hop, hrest⟩ := List.forall_mem_cons.mp hrest
    refine Comp.wp_imp ?_ fun _ _ _ hj => ⟨hj, hrest⟩
    by_cases hne : operation.key.encoded = key.encoded
    · refine Comp.wp_bind.mpr (Comp.wp_attempt.mpr (Comp.wp_mono (hown operation hop hne tally
        site' s' hj) ?_ ?_))
      · intro site'' s'' _ hj
        exact (hsave hj).bind fun _ _ _ hj => hj
      · intro site'' s'' _ hj
        exact (hsave hj).bind fun _ _ _ hj => hj
    · exact Comp.wp_imp (runOperation_sparing locals tally hne).returns fun _ _ _ h => hJ hj h
  · intro site₂ s₂ tally hj
    have hrest : Sparing key (acknowledgePlan rt plan) :=
      .bind .get fun _ => .request (by exact trivial) _
    refine hrest.returns.bind fun site₃ s₃ _ h₃ => ?_
    have hclear : Sparing key (Comp.modify fun state => { state with activeRun := none }) :=
      .modify fun _ => .of_same rfl rfl rfl
    refine hclear.returns.bind fun site₄ s₄ _ h₄ => ?_
    exact (hsave (hJ (hJ hj h₃) h₄)).bind fun _ _ _ hj => hj

end Execution

section Plans

variable [Crates] {key : ResourceKey} {s : RuntimeState} {scopes : List String}
variable {locals : List LocalResource} {rt : SyncRuntime} {plan : List PlanOperation}

/-- The baseline that the planner finds for a resource. -/
def RuntimeState.baselineFor (s : RuntimeState) (key : ResourceKey) : Option BaselineState :=
  ((s.baselines.get? key.encoded).filter fun entry => entry.key = key).map StoredBaseline.state

theorem RuntimeState.baselineFor_eq_some {state : BaselineState} :
    s.baselineFor key = some state ↔ ⟨key, state⟩ ∈ s.baselines := by
  rw [baselineFor, KeyedMap.mem_def, Option.map_eq_some_iff]
  constructor
  · rintro ⟨⟨key', state'⟩, hentry, rfl⟩
    obtain ⟨hget, hkey⟩ := Option.filter_eq_some_iff.mp hentry
    obtain rfl : key' = key := of_decide_eq_true hkey
    exact hget
  · exact fun hget => ⟨_, Option.filter_eq_some_iff.mpr ⟨hget, decide_eq_true rfl⟩, rfl⟩

theorem get?_baselinePairs_baselineFor (hscope : inScopes scopes key.scopeId = true) :
    (ExtTreeMap.ofList (s.baselinePairs scopes) compare : Map ResourceKey BaselineState)[key]? =
      s.baselineFor key := by
  apply Option.ext
  intro state
  rw [get?_baselinePairs, RuntimeState.baselineFor_eq_some]
  exact and_iff_left hscope

/-- The operation is what the planner makes of the resource, text conflicts merged. -/
def PlannedAt (s : RuntimeState) (locals : List LocalResource) (key : ResourceKey)
    (operation : PlanOperation) : Prop :=
  ∃ remote, s.remoteState key = .ok remote ∧ operation = mergeTextConflict locals
    (planResource key (localStateOf locals key) (s.baselineFor key) remote)

theorem plannedAt_of_mem (hbuilt : s.buildPlan rt scopes locals = .ok plan)
    (hlocals : ∀ resource ∈ locals, inScopes scopes resource.key.scopeId = true)
    {operation : PlanOperation} (hop : operation ∈ plan) :
    inScopes scopes operation.key.scopeId = true ∧ PlannedAt s locals operation.key operation := by
  have hscope := (mem_buildPlan_scoped hbuilt hlocals hop).1
  obtain ⟨pairs, hpairs, hperm⟩ := buildPlan_perm hbuilt
  obtain ⟨planned, hmem, rfl⟩ := List.mem_map.mp (hperm.mem_iff.mp hop)
  obtain ⟨key, -, rfl⟩ := List.mem_map.mp hmem
  rw [mergeTextConflict_key, planResource_key] at hscope ⊢
  refine ⟨hscope, _, get?_remotePairs hpairs hscope, ?_⟩
  rw [get?_baselinePairs_baselineFor hscope, localStateOf, localMap,
    Map.get?_ofList_map locals LocalResource.key LocalResource.state]

end Plans

section Refresh

variable [Crates] {S : Setting} {key : ResourceKey} {site : Site} {s : RuntimeState}

/-- The catalog lists the event, in a segment or in the current snapshot of a scope. -/
def Remote.Announces (remote : Remote) (event : CatalogEvent) : Prop :=
  (∃ segment ∈ remote.segments, event ∈ segment.events) ∨
    ∃ scope snapshot, remote.current scope = some snapshot ∧ event ∈ snapshot.events

/-- Everything that the catalog lists is held. -/
def RuntimeState.UpToDate (s : RuntimeState) (remote : Remote) : Prop :=
  ∀ event, remote.Announces event → (s.commits.get? event.commitId).isSome = true

instance (s : RuntimeState) (remote : Remote) : Decidable (s.UpToDate remote) :=
  decidable_of_iff ((∀ segment ∈ remote.segments, ∀ event ∈ segment.events,
      (s.commits.get? event.commitId).isSome = true) ∧
    ∀ entry ∈ remote.snapshots.toList, ∀ snapshot ∈ remote.current entry.1,
      ∀ event ∈ snapshot.events, (s.commits.get? event.commitId).isSome = true) <| by
    constructor
    · rintro ⟨hsegments, hsnapshots⟩ event (⟨segment, hs, he⟩ | ⟨scope, snapshot, hcurrent, he⟩)
      · exact hsegments segment hs event he
      · obtain ⟨dir, g, hdir, -, -⟩ := Remote.current_eq_some.mp hcurrent
        exact hsnapshots (scope, dir) (ExtTreeMap.mem_toList_iff_getElem?_eq_some.mpr hdir)
          snapshot hcurrent event he
    · intro h
      exact ⟨fun segment hs event he => h event (Or.inl ⟨segment, hs, he⟩),
        fun entry _ snapshot hcurrent event he => h event (Or.inr ⟨entry.1, snapshot, hcurrent, he⟩)⟩

theorem Remote.announces_of_scan {remote : Remote} {request : CatalogScanRequest}
    {delta : CatalogDelta} (h : remote.scanCatalog request = .ok delta) {event : CatalogEvent}
    (he : event ∈ delta.events) : remote.Announces event := by
  rw [Remote.scanCatalog, Remote.loadSnapshots] at h
  generalize hload : List.mapM (m := Except SyncError)
    (fun entry : String × SnapshotDir => entry.2.loadLatest) remote.snapshots.toList = loaded at h
  cases loaded with
  | error e => cases h
  | ok loaded =>
    obtain rfl := Except.ok.inj h
    rcases List.mem_append.mp ((List.perm_insertionSort _ _).mem_iff.mp he) with he | he
    · obtain ⟨snapshot, hs, he⟩ := List.mem_flatMap.mp (List.mem_filter.mp he).1
      obtain ⟨found, hf, hs⟩ := List.mem_flatMap.mp (List.mem_filter.mp hs).1
      obtain rfl := Option.mem_toList.mp hs
      obtain ⟨⟨scope, dir⟩, hmem, hlatest⟩ := exists_of_mem_mapM hload hf
      refine Or.inr ⟨scope, snapshot, ?_, he⟩
      rw [SnapshotDir.loadLatest] at hlatest
      split at hlatest
      · cases hlatest
      · next g hg =>
        split at hlatest
        · next snapshot' hsnapshot =>
          obtain rfl := Option.some.inj (Except.ok.inj hlatest)
          exact Remote.current_eq_some.mpr
            ⟨dir, g, ExtTreeMap.mem_toList_iff_getElem?_eq_some.mp hmem, hg, hsnapshot⟩
        · cases hlatest
    · obtain ⟨segment, hs, he⟩ := List.mem_flatMap.mp he
      exact Or.inl ⟨segment, (List.mem_filter.mp hs).1, (List.mem_filter.mp he).1⟩

/-- With nothing new in the catalog nothing is loaded. -/
theorem refreshRemote_returns {scopes : List String}
    (hcurrent : ∀ delta, site.remote.scanCatalog ⟨scopes, s.cursors⟩ = .ok delta →
      ∀ event ∈ delta.events, (s.commits.get? event.commitId).isSome = true) :
    Returns S (refreshRemote scopes) (fun site' s' _ => site' = site ∧ s'.commits = s.commits ∧
      s'.baselines = s.baselines ∧ s'.conflicts = s.conflicts) site s := by
  refine Comp.wp_bind.mpr (Comp.wp_get.mpr ?_)
  refine Returns.bind (Q := fun site' s' delta => site' = site ∧ s' = s ∧
    ∀ event ∈ delta.events, (s.commits.get? event.commitId).isSome = true) (Returns.request ?_) ?_
  · intro r delta site' hserves hr
    obtain rfl : r = .ok delta := hr
    exact ⟨hserves.1, rfl, hcurrent delta hserves.2⟩
  rintro site s delta ⟨rfl, rfl, hknown⟩
  refine Comp.wp_bind.mpr (Comp.wp_modify.mpr (Comp.wp_bind.mpr (Comp.wp_get.mpr ?_)))
  have hmissing : (s.countEvents delta).missingIds delta = [] := by
    rw [RuntimeState.missingIds, List.filter_eq_nil_iff.mpr]
    · rfl
    · intro event he hnone
      have hunheld : s.commits.get? event.commitId = none := Option.isNone_iff_eq_none.mp hnone
      have hsome := hknown event he
      rw [hunheld] at hsome
      cases hsome
  refine Returns.bind (Q := fun site' s' commits => site' = site ∧ s' = s.countEvents delta ∧
    commits = []) (Returns.request ?_) ?_
  · intro r commits site' hserves hr
    obtain rfl : r = .ok commits := hr
    obtain ⟨rfl, hload⟩ := hserves
    rw [hmissing] at hload
    exact ⟨rfl, rfl, (Except.ok.inj hload).symm⟩
  rintro site _ _ ⟨rfl, rfl, rfl⟩
  exact Comp.wp_modify.mpr ⟨rfl, rfl, rfl, rfl⟩

theorem snapshotLargeCatalogs_sparing (rt : SyncRuntime) :
    Sparing key (snapshotLargeCatalogs rt) :=
  .bind .get fun _ => .foldlM (fun _ _ => .bind .get fun _ => .bind (.request (by exact trivial) _)
    fun _ => .bind (.request (by exact rfl) _) fun _ => .modify fun _ => .of_same rfl rfl rfl) _ _

/-- The commits are the same. -/
def SameCommits (s t : RuntimeState) : Prop := t.commits = s.commits

instance : IsPreorder RuntimeState SameCommits where
  refl _ := rfl
  trans _ _ _ hst htu := htu.trans hst

theorem snapshotLargeCatalogs_commits (rt : SyncRuntime) :
    Returns S (snapshotLargeCatalogs rt) (fun _ s' _ => s'.commits = s.commits) site s := by
  have hwithin : Comp.Within Unacked SameCommits (snapshotLargeCatalogs rt) :=
    snapshotLargeCatalogs_within (fun _ _ => rfl) rt
  refine Comp.wp_mono (hwithin.wp (J := fun _ s' => s'.commits = s.commits) ?_ ?_ ?_ rfl)
    (fun _ _ _ _ => trivial) fun _ _ _ hj => hj
  · exact fun _ _ _ hj hr => Eq.trans hr hj
  · exact fun _ _ _ _ _ => trivial
  · exact fun _ _ _ _ _ hj _ _ => hj

omit [Crates] in
theorem encoded_inj {key' : ResourceKey} (hscope : key'.scopeId = key.scopeId)
    (h : key'.encoded = key.encoded) : key' = key := by
  obtain ⟨scope, name⟩ := key
  obtain ⟨scope', name'⟩ := key'
  obtain rfl : scope' = scope := hscope
  have hlist := congrArg String.toList h
  simp only [ResourceKey.encoded, String.toList_append, List.append_cancel_left_eq] at hlist
  rw [String.toList_injective hlist]

/-- What one resource can count on in a `reconcile` of its scope, on a client that is up to
date: `J₀` until the plan is made, and `J` from then on. -/
theorem reconcile_returns (hcol : Collisionless) (J₀ : Site → RuntimeState → Prop)
    {J : Site → RuntimeState → Prop}
    (hJ₀ : ∀ {site s site' s'}, J₀ site s → Spared key site s site' s' → J₀ site' s')
    (hJ : ∀ {site s site' s'}, J site s → Spared key site s site' s' → J site' s')
    (hcurrent : s.UpToDate site.remote) (hj : J₀ site s) (rt : SyncRuntime)
    (hplan : ∀ {site s locals plan}, J₀ site s → Inventory S site.files [key.scopeId] s locals →
      (∀ operation ∈ plan, operation.key = key → PlannedAt s locals key operation) →
      (∀ operation ∈ plan, operation.key = key → operation.isUpload = false ∧
        ∀ tally site s, J site s → Comp.wp (Site.Serves S) (fun _ _ _ => True)
          (fun site' s' _ => J site' s') (applyOperation locals tally operation)
          (fun site' s' _ => J site' s') site s) ∧
      J site { s.recordConflicts ⟨[key.scopeId]⟩ plan with
        activeRun := some ⟨plan.map PlanOperation.key⟩ }) :
    Returns S (reconcile rt ⟨[key.scopeId]⟩) (fun site' s' _ => J site' s') site s := by
  have hcleared : RuntimeState.UpToDate { s with activeRun := none } site.remote := hcurrent
  rw [reconcile]
  refine Comp.wp_bind.mpr (Comp.wp_modify.mpr ?_)
  have hj' : J₀ site { s with activeRun := none } := hJ₀ hj ⟨.refl site, .of_same rfl rfl rfl⟩
  refine Returns.bind (Q := fun site' s' _ => J₀ site' s') ?_ ?_
  · refine Returns.imp (refreshRemote_returns fun _ hscan event he =>
      hcleared event (Remote.announces_of_scan hscan he)) ?_
    rintro site' s' _ ⟨rfl, hcommits, hbaselines, hconflicts⟩
    exact hJ₀ hj' ⟨.refl site', .of_same hcommits (by rw [hbaselines]) hconflicts⟩
  intro site s _ hj
  have hsnapshots : Sparing key (snapshotLargeCatalogs rt) := snapshotLargeCatalogs_sparing rt
  refine hsnapshots.returns.bind fun site₁ s₁ _ h₁ => ?_
  have hj₁ : J₀ site₁ s₁ := hJ₀ hj h₁
  refine (localInventory_returns _).bind ?_
  rintro site s locals ⟨rfl, rfl, hinv⟩
  refine Comp.wp_bind.mpr (Comp.wp_modify.mpr (Comp.wp_bind.mpr (Comp.wp_get.mpr
    (Comp.wp_bind.mpr (Returns.ofExcept fun plan hbuild => ?_)))))
  have hj₂ : J₀ site (s.recordKinds locals) := hJ₀ hj₁ ⟨.refl site, .of_same rfl rfl rfl⟩
  have hscoped : ∀ operation ∈ plan, operation.key.scopeId = key.scopeId ∧
      PlannedAt (s.recordKinds locals) locals operation.key operation := fun operation hop => by
    obtain ⟨hscope, hplanned⟩ := plannedAt_of_mem hbuild (fun r hr => (hinv.shown r hr).1) hop
    exact ⟨by simpa [inScopes] using hscope, hplanned⟩
  obtain ⟨hown, hstart⟩ := hplan hj₂ ⟨hinv.shown, hinv.complete⟩
    fun operation hop hkey => hkey ▸ (hscoped operation hop).2
  refine execute_returns hcol hJ rt _ (fun operation hop hup he => ?_)
    (fun operation hop he => ?_) hstart
  · have hkey := encoded_inj (hscoped operation hop).1 he
    rw [(hown operation hop hkey).1] at hup
    cases hup
  · exact (hown operation hop (encoded_inj (hscoped operation hop).1 he)).2

end Refresh

section Resources

variable [Crates] {S : Setting} {key : ResourceKey} {site site' : Site} {s s' : RuntimeState}
variable {file : Option File} {id : String} {locals : List LocalResource}

theorem KeepsCommits.isHead (h : KeepsCommits key s s') {x : Commit} (hx : x.resource = key) :
    IsHead Commit.Over s'.held x ↔ IsHead Commit.Over s.held x := by
  refine and_congr (h.commits x hx) ⟨fun hno y hy hover => ?_, fun hno y hy hover => ?_⟩
  · exact hno y ((h.commits y (hover.1.trans hx)).mpr hy) hover
  · exact hno y ((h.commits y (hover.1.trans hx)).mp hy) hover

theorem KeepsCommits.heads (h : KeepsCommits key s s') : s'.heads key = s.heads key :=
  RuntimeState.heads_congr fun _ hx => h.isHead hx

theorem KeepsCommits.remoteState (h : KeepsCommits key s s') :
    s'.remoteState key = s.remoteState key :=
  RuntimeState.remoteState_congr (fun _ hx => h.isHead hx) fun x hx _ => h.commits x hx

/-- The baseline of a file at the version `id`. -/
def baselineOf (file : Option File) (id : String) : BaselineState :=
  match file with
  | some ⟨some data, versionToken⟩ => .present (blake3 data) versionToken [id]
  | _ => .deleted [id]

/-- What is at the version `id` in the remote. -/
def remoteOf (content : Option Bytes) (id : String) : RemoteResourceState :=
  match content with
  | some data => .present (blake3 data) data.length [id]
  | none => .deleted [id]

/-- The file is the one that the baseline stands for. -/
structure Rests (key : ResourceKey) (file : Option File) (id : String) (site : Site)
    (s : RuntimeState) : Prop where
  onDisk : site.files[key]? = file
  baseline : s.baselines.get? key.encoded = some ⟨key, baselineOf file id⟩

theorem Rests.spared (h : Rests key file id site s) (hcreated : ∀ x ∈ s.commits, x.Created)
    (hs : Spared key site s site' s') : Rests key file id site' s' :=
  ⟨hs.1.file.trans h.onDisk, (hs.2 hcreated).2.1.trans h.baseline⟩

/-- The file is shown by its own digest. -/
def ReplicaState.Mirrors (state : ReplicaState) (file : Option File) : Prop :=
  match file with
  | some ⟨some data, versionToken⟩ => state = .present (blake3 data) data.length versionToken
  | _ => state.isAbsent = true

theorem Rests.localState (h : Rests key file id site s)
    (hinv : Inventory S site.files [key.scopeId] s locals) :
    (localStateOf locals key).Mirrors file := by
  have hshows : site.files.ShowsAs s key (localStateOf locals key) :=
    hinv.localStateOf (by simp [inScopes])
  rw [Files.ShowsAs, h.onDisk] at hshows
  rcases file with _ | ⟨_ | data, versionToken⟩
  · rw [hshows]
    rfl
  · rw [show localStateOf locals key = .deleted versionToken from hshows]
    rfl
  · obtain ⟨contentId, hstate, hid⟩ := hshows
    rcases hid with rfl | hcached
    · exact hstate
    · rw [RuntimeState.cachedId, h.baseline] at hcached
      simp only [Option.map_some, baselineOf, if_true, Option.some.injEq] at hcached
      rwa [← hcached] at hstate

/-- The operation that sets the baseline of a file again. -/
def establishing (key : ResourceKey) (file : Option File) (id : String) : PlanOperation :=
  match file with
  | some ⟨some data, versionToken⟩ =>
    .establishBaseline key (.present (blake3 data) data.length versionToken) [id]
  | _ => .establishDeletedBaseline key [id]

/-- A resource that agrees with its head has its baseline set again. -/
theorem Rests.establishes (h : Rests key file id site s)
    (hinv : Inventory S site.files [key.scopeId] s locals)
    (hremote : s.remoteState key = .ok (remoteOf (file.bind File.data) id))
    {operation : PlanOperation} (hplanned : PlannedAt s locals key operation) :
    operation = establishing key file id := by
  obtain ⟨r, hr, hop⟩ := hplanned
  have hlocal := h.localState hinv
  replace hr := Except.ok.inj (hr.symm.trans hremote)
  generalize s.baselineFor key = b at hop
  have habsent : ∀ {l : ReplicaState}, l.isAbsent = true →
      mergeTextConflict locals (planResource key l b (.deleted [id])) =
        .establishDeletedBaseline key [id] := by
    intro l hl
    cases l with
    | present => cases hl
    | missing | deleted => rfl
  rcases file with _ | ⟨_ | data, versionToken⟩
  · rw [hop, hr]
    exact habsent hlocal
  · rw [hop, hr]
    exact habsent hlocal
  · replace hlocal : localStateOf locals key =
      .present (blake3 data) data.length versionToken := hlocal
    rw [hop, hr, hlocal]
    rcases b with _ | _ | _ <;>
      simp [planResource, remoteOf, mergeTextConflict, establishing]

/-- A file that the baseline stands for is neither uploaded nor disputed, whatever content is
remote. -/
theorem Rests.undisputed {data : Bytes} {versionToken : String}
    (h : Rests key (some ⟨some data, versionToken⟩) id site s)
    (hinv : Inventory S site.files [key.scopeId] s locals)
    (hremote : ∀ r, s.remoteState key = .ok r → ∃ contentId size heads,
      r = .present contentId size heads)
    {operation : PlanOperation} (hplanned : PlannedAt s locals key operation) :
    operation.isUpload = false ∧ operation.isConflict = false := by
  obtain ⟨r, hr, hop⟩ := hplanned
  have hlocal : localStateOf locals key = .present (blake3 data) data.length versionToken :=
    h.localState hinv
  have hbaseline : s.baselineFor key = some (.present (blake3 data) versionToken [id]) := by
    simp [RuntimeState.baselineFor, h.baseline, baselineOf]
  obtain ⟨contentId, size, heads, rfl⟩ := hremote r hr
  rw [hop, hlocal, hbaseline]
  simp only [planResource, if_true]
  split
  · exact ⟨rfl, rfl⟩
  · exact ⟨rfl, rfl⟩

/-- What has become of a resource: its commits are the same, and nothing stored is gone. -/
structure Outlasts (key : ResourceKey) (site : Site) (s : RuntimeState) (site' : Site)
    (s' : RuntimeState) : Prop where
  commits : KeepsCommits key s s'
  stored : ∀ x ∈ site.remote.commits, x ∈ site'.remote.commits

theorem Outlasts.refl (hcreated : ∀ x ∈ s.commits, x.Created) : Outlasts key site s site s :=
  ⟨⟨hcreated, fun _ _ => Iff.rfl⟩, fun _ hx => hx⟩

theorem Outlasts.trans {site'' : Site} {s'' : RuntimeState} (h : Outlasts key site s site' s')
    (h' : Outlasts key site' s' site'' s'') : Outlasts key site s site'' s'' where
  commits := ⟨h'.commits.created, fun x hx => (h'.commits.commits x hx).trans (h.commits.commits x hx)⟩
  stored x hx := h'.stored x (h.stored x hx)

theorem Outlasts.spared {site'' : Site} {s'' : RuntimeState} (h : Outlasts key site s site' s')
    (hs : Spared key site' s' site'' s'') : Outlasts key site s site'' s'' :=
  h.trans ⟨(hs.2 h.commits.created).1, hs.1.stored⟩

theorem Site.Serves.stored {e : SyncEvent} (h : site.Serves S e site') (hq : Quiet e.req) :
    site'.remote.commits = site.remote.commits := by
  unfold Site.Serves at h
  split at h <;> first | exact hq.elim | exact h ▸ rfl | exact h.1 ▸ rfl

theorem Silent.outlasts {x : Sync α} (hx : Silent x) {site₀ : Site} {s₀ : RuntimeState}
    (h : Outlasts key site₀ s₀ site s) :
    Comp.wp (Site.Serves S) (fun _ _ _ => True) (fun site' s' _ => Outlasts key site₀ s₀ site' s')
      x (fun site' s' _ => Outlasts key site₀ s₀ site' s') site s := by
  refine Comp.Within.wp (J := fun site' s' => Outlasts key site₀ s₀ site' s') hx ?_ ?_ ?_ h
  · intro site₁ s₁ s₂ h₁ hsame
    refine ⟨⟨?_, ?_⟩, h₁.stored⟩
    · rw [hsame.commits]
      exact h₁.commits.created
    · rw [hsame.commits]
      exact h₁.commits.commits
  · exact fun _ _ _ _ _ => trivial
  · intro site₁ s₁ q r site₂ h₁ hq hserves
    refine ⟨h₁.commits, ?_⟩
    rw [hserves.stored hq]
    exact h₁.stored

theorem SparesTable.calm {x : Sync α} (hx : SparesTable x)
    (h : ∀ record ∈ s.conflicts, record.resource ≠ key) :
    Comp.wp (Site.Serves S) (fun _ _ _ => True)
      (fun _ s' _ => ∀ record ∈ s'.conflicts, record.resource ≠ key) x
      (fun _ s' _ => ∀ record ∈ s'.conflicts, record.resource ≠ key) site s := by
  refine Comp.Within.wp (J := fun _ s' => ∀ record ∈ s'.conflicts, record.resource ≠ key) hx ?_ ?_ ?_ h
  · intro _ s' t hj hsame
    rw [show t.conflicts = s'.conflicts from hsame]
    exact hj
  · exact fun _ _ _ _ _ => trivial
  · exact fun _ _ _ _ _ hj _ _ => hj

/-- Only planned conflicts are recorded. -/
theorem recordConflicts_calm {plan : List PlanOperation}
    (hplan : ∀ record, .conflict record ∈ plan → record.resource ≠ key) :
    ∀ record ∈ (s.recordConflicts ⟨[key.scopeId]⟩ plan).conflicts, record.resource ≠ key := by
  intro record hr hkey
  rcases KeyedMap.mem_of_mem_insertAll hr with hr | hr
  · have hout := of_decide_eq_true (KeyedMap.mem_retain.mp hr).2
    exact hout (List.mem_singleton.mpr (congrArg ResourceKey.scopeId hkey))
  · exact hplan record (mem_plannedRecords.mp hr) hkey

/-- A `reconcile` of a file that the baseline stands for leaves the commits of the resource, and
no conflict of it. -/
theorem reconcile_outlasts (hcol : Collisionless) (hcreated : ∀ x ∈ s.commits, x.Created)
    (hcurrent : s.UpToDate site.remote) {data : Bytes} {versionToken : String}
    (h : Rests key (some ⟨some data, versionToken⟩) id site s)
    (hremote : ∀ r, s.remoteState key = .ok r → ∃ contentId size heads,
      r = .present contentId size heads) (rt : SyncRuntime) :
    Returns S (reconcile rt ⟨[key.scopeId]⟩) (fun site' s' _ => Outlasts key site s site' s' ∧
      ∀ record ∈ s'.conflicts, record.resource ≠ key) site s := by
  refine reconcile_returns hcol (fun site' s' => Outlasts key site s site' s' ∧
    Rests key (some ⟨some data, versionToken⟩) id site' s') (J := fun site' s' =>
    Outlasts key site s site' s' ∧ ∀ record ∈ s'.conflicts, record.resource ≠ key) ?_ ?_ hcurrent
    ⟨.refl hcreated, h⟩ rt ?_
  · exact fun hj hs => ⟨hj.1.spared hs, hj.2.spared hj.1.commits.created hs⟩
  · exact fun hj hs => ⟨hj.1.spared hs, fun record hr hkey =>
      hj.2 record ((hs.2 hj.1.commits.created).2.2 record hr hkey) hkey⟩
  · intro site' s' locals plan hj hinv hplanned
    have hpasses : ∀ operation ∈ plan, operation.key = key →
        operation.isUpload = false ∧ operation.isConflict = false := fun operation hop hkey => by
      refine hj.2.undisputed hinv ?_ (hplanned operation hop hkey)
      rw [hj.1.commits.remoteState]
      exact hremote
    refine ⟨fun operation hop hkey => ⟨(hpasses operation hop hkey).1, fun tally site'' s'' hj => ?_⟩,
      ⟨⟨hj.1.commits.created, hj.1.commits.commits⟩, hj.1.stored⟩, recordConflicts_calm ?_⟩
    · have htable : SparesTable (applyOperation locals tally operation) :=
        applyOperation_sparesTable locals tally operation
      refine Comp.wp_mono (Comp.wp_both ((applyOperation_silent locals tally operation).outlasts hj.1)
        (htable.calm hj.2)) (fun _ _ _ hj => hj) fun _ _ _ hj => hj
    · intro record hrecord hkey
      have hcalm := (hpasses _ hrecord hkey).2
      cases hcalm

/-- A resource at rest, with no conflict recorded. -/
structure Settled (key : ResourceKey) (file : Option File) (id : String) (site₀ : Site)
    (s₀ : RuntimeState) (site : Site) (s : RuntimeState) : Prop where
  outlasts : Outlasts key site₀ s₀ site s
  rests : Rests key file id site s
  calm : ∀ record ∈ s.conflicts, record.resource ≠ key

theorem Settled.spared {site₀ : Site} {s₀ : RuntimeState} (h : Settled key file id site₀ s₀ site s)
    (hs : Spared key site s site' s') : Settled key file id site₀ s₀ site' s' where
  outlasts := h.outlasts.spared hs
  rests := h.rests.spared h.outlasts.commits.created hs
  calm record hr hkey :=
    h.calm record ((hs.2 h.outlasts.commits.created).2.2 record hr hkey) hkey

/-- Setting the baseline again changes nothing. -/
theorem establishing_settles {site₀ : Site} {s₀ : RuntimeState} :
    (establishing key file id).isUpload = false ∧
    ∀ tally site s, Settled key file id site₀ s₀ site s →
      Comp.wp (Site.Serves S) (fun _ _ _ => True)
        (fun site' s' _ => Settled key file id site₀ s₀ site' s')
        (applyOperation locals tally (establishing key file id))
        (fun site' s' _ => Settled key file id site₀ s₀ site' s') site s := by
  have hset : ∀ {site s}, Settled key file id site₀ s₀ site s → ∀ state, state = baselineOf file id →
      Settled key file id site₀ s₀ site { s with baselines := s.baselines.insert ⟨key, state⟩ } := by
    rintro site s h _ rfl
    refine ⟨⟨⟨h.outlasts.commits.created, h.outlasts.commits.commits⟩, h.outlasts.stored⟩,
      ⟨h.rests.onDisk, ?_⟩, h.calm⟩
    rw [KeyedMap.get?_insert, if_pos rfl]
  rcases file with _ | ⟨_ | data, versionToken⟩
  · exact ⟨rfl, fun tally site s h => hset h _ rfl⟩
  · exact ⟨rfl, fun tally site s h => hset h _ rfl⟩
  · refine ⟨rfl, fun tally site s h => Comp.wp_bind.mpr ?_⟩
    have hkeep : Sparing key (keepText key) := keepText_sparing key
    refine Comp.wp_mono hkeep.wp (fun _ _ _ hs => h.spared hs) fun _ _ _ hs => ?_
    exact hset (h.spared hs) _ rfl

/-- A resource that agrees with its head is left as it is, and has no conflict. -/
theorem reconcile_settled (hcol : Collisionless) (hcreated : ∀ x ∈ s.commits, x.Created)
    (hcurrent : s.UpToDate site.remote) (h : Rests key file id site s)
    (hremote : s.remoteState key = .ok (remoteOf (file.bind File.data) id)) (rt : SyncRuntime) :
    Returns S (reconcile rt ⟨[key.scopeId]⟩) (fun site' s' _ => Settled key file id site s site' s')
      site s := by
  refine reconcile_returns hcol (fun site' s' => Outlasts key site s site' s' ∧
    Rests key file id site' s') ?_ ?_ hcurrent ⟨.refl hcreated, h⟩ rt ?_
  · exact fun hj hs => ⟨hj.1.spared hs, hj.2.spared hj.1.commits.created hs⟩
  · exact fun hj hs => hj.spared hs
  · intro site' s' locals plan hj hinv hplanned
    have hown : ∀ operation ∈ plan, operation.key = key → operation = establishing key file id := by
      intro operation hop hkey
      refine hj.2.establishes hinv ?_ (hplanned operation hop hkey)
      rw [hj.1.commits.remoteState, hremote]
    refine ⟨fun operation hop hkey => ?_, ⟨⟨hj.1.commits.created, hj.1.commits.commits⟩,
      hj.1.stored⟩, ⟨hj.2.onDisk, hj.2.baseline⟩, recordConflicts_calm fun record hrecord hkey => ?_⟩
    · rw [hown operation hop hkey]
      exact establishing_settles
    · have he := hown _ hrecord hkey
      rcases file with _ | ⟨_ | data, versionToken⟩ <;> cases he

end Resources

end Rollforward
