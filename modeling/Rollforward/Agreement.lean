import Rollforward.Solo

/-! What one `reconcile` with nobody else moving makes of a binary resource: it ends where its
file, its baseline and its heads are the same version, or in a conflict that is listed. -/

namespace Rollforward

open Std Lib

section Views

variable [Crates] {key : ResourceKey} {site site' : Site} {s s' : RuntimeState} {files : Files}
variable {scopes : List String}

/-- What the local replica holds of a resource, with the digest of the file. -/
def Files.stateOf (files : Files) (key : ResourceKey) : ReplicaState :=
  (files[key]?.map fun file => file.state true).getD .missing

/-- The digest that a baseline vouches for a file with is the one of the file. -/
def Files.Vouched (files : Files) (s : RuntimeState) (key : ResourceKey) : Prop :=
  ∀ data versionToken, files[key]? = some ⟨some data, versionToken⟩ →
    ∀ contentId, s.cachedId key versionToken = some contentId → contentId = blake3 data

/-- The operation for a resource, from what is known of it alone. -/
def Plans (key : ResourceKey) (site : Site) (s : RuntimeState) (operation : PlanOperation) : Prop :=
  ∃ remote, s.remoteState key = .ok remote ∧
    operation = planResource key (site.files.stateOf key) (s.baselineFor key) remote

/-- The file and the baseline are the content of the remote. -/
def RemoteResourceState.HeldAs (remote : RemoteResourceState) (key : ResourceKey)
    (file : Option File) (baseline : Option StoredBaseline) : Prop :=
  match remote with
  | .missing => file.bind File.data = none
  | .present contentId _ heads => ∃ data versionToken, file = some ⟨some data, versionToken⟩ ∧
      blake3 data = contentId ∧ baseline = some ⟨key, .present contentId versionToken heads⟩
  | .deleted heads => file.bind File.data = none ∧ baseline = some ⟨key, .deleted heads⟩
  | .forked _ => False

/-- The local replica holds what the heads of the resource show. -/
def Agrees (key : ResourceKey) (site : Site) (s : RuntimeState) : Prop :=
  ∃ remote, s.remoteState key = .ok remote ∧
    remote.HeldAs key site.files[key]? (s.baselines.get? key.encoded)

/-- No other resource of the scopes has the encoded name. -/
def ResourceKey.Own (key : ResourceKey) (scopes : List String) : Prop :=
  ∀ other : ResourceKey, inScopes scopes other.scopeId = true → other.encoded = key.encoded →
    other = key

omit [Crates] in
/-- Without a zero character in it, a name is the name of one resource. -/
theorem ResourceKey.own_of_plain (hscope : '\x00' ∉ key.scopeId.toList)
    (hresource : '\x00' ∉ key.resourceId.toList) : key.Own scopes := by
  intro other _ h
  have hlists := congrArg String.toList h
  simp only [ResourceKey.encoded, String.toList_append] at hlists
  change (other.scopeId.toList ++ ['\x00']) ++ other.resourceId.toList =
    (key.scopeId.toList ++ ['\x00']) ++ key.resourceId.toList at hlists
  rw [List.append_assoc, List.append_assoc, List.singleton_append, List.singleton_append] at hlists
  obtain ⟨h₁, -, h₂⟩ := (List.append_cons_inj_of_notMem hscope hresource).mp hlists.symm
  cases key
  cases other
  exact congrArg₂ ResourceKey.mk (String.toList_injective h₁.symm) (String.toList_injective h₂.symm)

theorem Spared.remoteState (h : Spared key site s site' s') (hcreated : ∀ x ∈ s.commits, x.Created) :
    s'.remoteState key = s.remoteState key := (h.2 hcreated).1.remoteState

theorem Spared.baselineFor (h : Spared key site s site' s') (hcreated : ∀ x ∈ s.commits, x.Created) :
    s'.baselineFor key = s.baselineFor key := by
  rw [RuntimeState.baselineFor, RuntimeState.baselineFor, (h.2 hcreated).2.1]

theorem Spared.stateOf (h : Spared key site s site' s') :
    site'.files.stateOf key = site.files.stateOf key := by
  rw [Files.stateOf, Files.stateOf, h.1.file]

theorem Agrees.spared (h : Agrees key site s) (hcreated : ∀ x ∈ s.commits, x.Created)
    (hs : Spared key site s site' s') : Agrees key site' s' := by
  obtain ⟨remote, hremote, hheld⟩ := h
  refine ⟨remote, (hs.remoteState hcreated).trans hremote, ?_⟩
  rwa [hs.1.file, (hs.2 hcreated).2.1]

theorem Plans.concerns {operation : PlanOperation} (h : Plans key site s operation) :
    operation.key = key := by
  obtain ⟨remote, -, rfl⟩ := h
  exact planResource_key

theorem Plans.spared {operation : PlanOperation} (h : Plans key site s operation)
    (hcreated : ∀ x ∈ s.commits, x.Created) (hs : Spared key site s site' s') :
    Plans key site' s' operation := by
  obtain ⟨remote, hremote, hop⟩ := h
  refine ⟨remote, (hs.remoteState hcreated).trans hremote, ?_⟩
  rwa [hs.stateOf, hs.baselineFor hcreated]

theorem Files.Vouched.spared (h : site.files.Vouched s key)
    (hcreated : ∀ x ∈ s.commits, x.Created) (hs : Spared key site s site' s') :
    site'.files.Vouched s' key := by
  intro data versionToken hfile contentId hcached
  refine h data versionToken (hs.1.file.symm.trans hfile) contentId ?_
  rwa [RuntimeState.cachedId, (hs.2 hcreated).2.1] at hcached

end Views

section Plans

variable [Crates] {S : Setting} {key : ResourceKey} {site : Site} {s : RuntimeState} {files : Files}
variable {scopes : List String} {locals : List LocalResource} {rt : SyncRuntime}
variable {plan : List PlanOperation}

theorem Inventory.inventoried (h : Inventory S files scopes s locals) :
    Inventoried S scopes locals := fun resource hr => ⟨(h.shown resource hr).1, (h.shown resource hr).2.1⟩

/-- With honest baselines an inventory shows every file by its own digest. -/
theorem Inventory.stateOf (h : Inventory S files scopes s locals)
    (hscope : inScopes scopes key.scopeId = true) (hvouched : files.Vouched s key) :
    Rollforward.localStateOf locals key = files.stateOf key := by
  have hshows : files.ShowsAs s key (Rollforward.localStateOf locals key) := h.localStateOf hscope
  rw [Files.ShowsAs] at hshows
  unfold Files.stateOf
  rcases hfile : files[key]? with _ | ⟨_ | data, versionToken⟩
  · rwa [hfile] at hshows
  · rwa [hfile] at hshows
  · rw [hfile] at hshows
    obtain ⟨contentId, hstate, hid⟩ := hshows
    have hown : contentId = blake3 data := by
      rcases hid with hown | hcached
      · exact hown
      · exact hvouched data versionToken hfile contentId hcached
    rw [hstate, hown]
    rfl

omit [Crates] in
theorem mergeTextConflict_of_binary (hinv : Inventoried S scopes locals) {operation : PlanOperation}
    (hkind : S.kindOf operation.key = .binary) : mergeTextConflict locals operation = operation := by
  cases operation with
  | conflict record =>
    refine if_neg fun hmerge => ?_
    obtain ⟨resource, hmem, he⟩ := List.mem_map.mp (Map.mem_of_get?_ofList hmerge.2)
    obtain ⟨hres, htext⟩ := Prod.mk.inj he
    have hlisted := (hinv resource hmem).2
    rw [htext, hres, show S.kindOf record.resource = .binary from hkind] at hlisted
    cases hlisted
  | _ => rfl

/-- Every operation of a plan on a binary resource comes from what is known of the resource. -/
theorem plans_of_mem (hbuilt : s.buildPlan rt scopes locals = .ok plan)
    (hinv : Inventory S site.files scopes s locals) {operation : PlanOperation}
    (hop : operation ∈ plan) (hkind : S.kindOf operation.key = .binary)
    (hvouched : site.files.Vouched s operation.key) : Plans operation.key site s operation := by
  obtain ⟨hscope, r, hr, hplanned⟩ := plannedAt_of_mem hbuilt (fun r hr => (hinv.shown r hr).1) hop
  refine ⟨r, hr, ?_⟩
  rwa [mergeTextConflict_of_binary hinv.inventoried (planResource_key.symm ▸ hkind),
    hinv.stateOf hscope hvouched] at hplanned

/-- A resource that a plan says nothing of has no file and no version. -/
theorem agrees_of_unplanned (hbuilt : s.buildPlan rt scopes locals = .ok plan)
    (hinv : Inventory S site.files scopes s locals) (hscope : inScopes scopes key.scopeId = true)
    (hunplanned : ∀ operation ∈ plan, operation.key ≠ key) : Agrees key site s := by
  obtain ⟨pairs, hpairs, hperm⟩ := buildPlan_perm hbuilt
  have hnot : ∀ {k}, k ∈ (ExtTreeMap.unitOfList ((ExtTreeMap.ofList (locals.map fun resource =>
      (resource.key, resource.state)) compare : Map ResourceKey ReplicaState).keys ++
      (ExtTreeMap.ofList (s.baselinePairs scopes) compare : Map ResourceKey BaselineState).keys ++
      (ExtTreeMap.ofList pairs compare : Map ResourceKey RemoteResourceState).keys) compare :
        Map ResourceKey Unit).keys → k ≠ key := by
    intro k hk
    have hmem := hperm.mem_iff.mpr (List.mem_map_of_mem (f := mergeTextConflict locals)
      (List.mem_map_of_mem hk))
    have hne := hunplanned _ hmem
    rwa [mergeTextConflict_key, planResource_key] at hne
  refine ⟨.missing, remoteState_of_no_commits fun hx => ?_, ?_⟩
  · obtain ⟨⟨k, r⟩, hm, hk⟩ := mapM_mem hpairs (mem_remoteKeys.mpr ⟨hscope, hx⟩)
    cases hr : s.remoteState key with
    | error e => simp [hr, bind, Except.bind] at hk
    | ok r' =>
      simp only [hr, bind, Except.bind, pure, Except.pure, Except.ok.injEq, Prod.mk.injEq] at hk
      obtain ⟨rfl, -⟩ := hk
      refine absurd rfl (hnot ?_)
      rw [Map.mem_keys_unitOfList, List.mem_append]
      exact Or.inr (Map.mem_keys_ofList.mpr (List.mem_map_of_mem hm))
  · cases hfile : site.files[key]? with
    | none => rfl
    | some file =>
      obtain ⟨resource, hr, rfl⟩ := hinv.complete key file hfile hscope
      refine absurd rfl (hnot ?_)
      rw [Map.mem_keys_unitOfList, List.mem_append, List.mem_append]
      refine Or.inl (Or.inl (Map.mem_keys_ofList.mpr ?_))
      exact List.mem_map.mpr ⟨_, List.mem_map_of_mem hr, rfl⟩

end Plans

section Operations

variable [Crates] {S : Setting} {realm : Realm} {s : RuntimeState} {key : ResourceKey}
variable {l : ReplicaState} {b : Option BaselineState} {r : RemoteResourceState}
variable {locals : List LocalResource}

theorem noop_of_planResource {key' : ResourceKey} (h : planResource key l b r = .noop key') :
    l.isAbsent = true ∧ r = .missing := by
  unfold planResource at h
  split at h <;> (try split at h) <;> (try split at h) <;> (try split at h) <;> cases h <;>
    exact ⟨rfl, rfl⟩

theorem establishesDeleted_of_planResource {key' : ResourceKey} {remoteHeads : List String}
    (h : planResource key l b r = .establishDeletedBaseline key' remoteHeads) :
    l.isAbsent = true ∧ r = .deleted remoteHeads := by
  unfold planResource at h
  split at h <;> (try split at h) <;> (try split at h) <;> (try split at h) <;> cases h <;>
    exact ⟨rfl, rfl⟩

omit [Crates] in
theorem Uploads.present (h : Uploads l b r) :
    ∃ contentId size versionToken, l = .present contentId size versionToken := by
  cases h <;> exact ⟨_, _, _, rfl⟩

theorem Files.stateOf_absent {files : Files} (h : (files.stateOf key).isAbsent = true) :
    files[key]?.bind File.data = none := by
  rw [Files.stateOf] at h
  rcases hfile : files[key]? with _ | ⟨_ | data, versionToken⟩
  · rfl
  · rfl
  · rw [hfile] at h
    cases h

theorem Files.isAbsent_stateOf {files : Files} (h : files[key]?.bind File.data = none) :
    (files.stateOf key).isAbsent = true := by
  rw [Files.stateOf]
  rcases hfile : files[key]? with _ | ⟨_ | data, versionToken⟩
  · rfl
  · rfl
  · rw [hfile] at h
    cases h

theorem Files.stateOf_of_data {files : Files} {data : Bytes} {versionToken : String}
    (h : files[key]? = some ⟨some data, versionToken⟩) :
    files.stateOf key = .present (blake3 data) data.length versionToken := by
  rw [Files.stateOf, h]
  rfl

theorem Files.stateOf_present {files : Files} {contentId versionToken : String} {size : Nat}
    (h : files.stateOf key = .present contentId size versionToken) :
    ∃ data, files[key]? = some ⟨some data, versionToken⟩ ∧ blake3 data = contentId := by
  rw [Files.stateOf] at h
  rcases hfile : files[key]? with _ | ⟨_ | data, token⟩
  · rw [hfile] at h
    cases h
  · rw [hfile] at h
    cases h
  · rw [hfile] at h
    obtain ⟨rfl, -, rfl⟩ := ReplicaState.present.inj h
    exact ⟨data, rfl, rfl⟩

/-- The content at the heads that show as present. -/
theorem Realm.Hosts.content (hcol : Collisionless) (hcdc : FastcdcTiles) (hhosts : realm.Hosts S s)
    (hkind : S.kindOf key = .binary) {contentId : String} {size : Nat}
    {heads : List String} (hremote : s.remoteState key = .ok (.present contentId size heads)) {data : Bytes}
    (hread : s.contentAt realm.site.remote key none = .ok data) : blake3 data = contentId := by
  have hshows := RuntimeState.shows_of_remoteState hremote
  rw [RuntimeState.contentAt, Option.none_or] at hread
  cases hhead : (s.heads key).head? with
  | none =>
    rw [hhead] at hread
    cases hread
  | some head =>
    rw [hhead] at hread
    obtain ⟨x, hx, hres, rfl⟩ := RuntimeState.mem_heads_iff_isHead.mp (List.mem_of_head? hhead)
    have hxs : x ∈ s.commits := hx.1
    obtain ⟨size', hashes, hchange⟩ := hshows.snapshot_of_head hx hres
      (hhosts.binary hkind x hxs hres)
    simp only [RuntimeState.versionAt, KeyedMap.mem_def.mp hxs, hchange] at hread
    have hholds := hhosts.lawful.content hcol hcdc (hhosts.held x hxs) (by rw [hchange]; rfl)
      (by rw [hchange]; exact hread)
    exact (ResourceChange.binarySnapshot.inj (hchange.symm.trans hholds)).1.symm

/-- An operation that is carried out on what it was planned for leaves the resource in
agreement. -/
theorem applyOperation_agrees (hcol : Collisionless) (hcdc : FastcdcTiles)
    (hhosts : realm.Hosts S s) (hkind : S.kindOf key = .binary) (tally : Tally)
    {operation : PlanOperation} (hplans : Plans key realm.site s operation)
    (hup : operation.isUpload = false) (hcalm : operation.isConflict = false) :
    Returns S (applyOperation locals tally operation) (fun site' s' _ => Agrees key site' s')
      realm.site s := by
  obtain ⟨remote, hremote, hop⟩ := hplans
  have hkey : operation.key = key := hop ▸ planResource_key
  cases operation with
  | upload => cases hup
  | publishDelete => cases hup
  | conflict => cases hcalm
  | noop key' =>
    obtain ⟨habsent, rfl⟩ := noop_of_planResource hop.symm
    exact ⟨.missing, hremote, Files.stateOf_absent habsent⟩
  | establishBaseline key' l' heads =>
    obtain ⟨rfl, id, size, token, rsize, hl, rfl⟩ := establishes_of_planResource hop.symm
    obtain ⟨data, hfile, hid⟩ := Files.stateOf_present hl
    obtain rfl : key' = key := hkey
    refine Comp.wp_bind.mpr ?_
    have hkeep : Sparing key' (keepText key') := keepText_sparing key'
    refine Comp.wp_imp hkeep.returns fun site' s' _ hs => ?_
    refine ⟨.present id rsize heads, ?_, data, token, hs.1.file.trans hfile, hid, ?_⟩
    · exact (Spared.remoteState hs hhosts.created).trans hremote
    · rw [hl]
      exact (KeyedMap.get?_insert ..).trans (if_pos rfl)
  | establishDeletedBaseline key' heads =>
    obtain ⟨habsent, rfl⟩ := establishesDeleted_of_planResource hop.symm
    obtain rfl : key' = key := hkey
    refine ⟨.deleted heads, hremote, Files.stateOf_absent habsent, ?_⟩
    exact (KeyedMap.get?_insert ..).trans (if_pos rfl)
  | download key' remote' =>
    obtain ⟨rfl, ⟨id, size, heads, rfl⟩, -⟩ := downloads_of_planResource hop.symm
    obtain rfl : key' = key := hkey
    refine (announceDownload_reads _).returns.bind ?_
    rintro _ _ _ ⟨rfl, rfl⟩
    refine (contentForRemote_returns key' none).bind ?_
    rintro _ _ data ⟨rfl, rfl, hdata⟩
    have hid := hhosts.content hcol hcdc hkind hremote hdata
    refine (applyMutation_returns _ _ _).bind ?_
    rintro _ _ result ⟨rfl, versionToken, tombstone, file, hm, rfl, htoken⟩
    obtain rfl := Files.mutate_writePresent hm
    have hnote : Sparing key' (noteText key' (heads.head?)) := noteText_sparing _ _
    refine hnote.returns.bind fun site' s' _ hs => ?_
    refine ⟨.present id size heads, ?_, data, versionToken, ?_, hid, ?_⟩
    · exact (Spared.remoteState hs hhosts.created).trans hremote
    · exact hs.1.file.trans ((Files.get?_set ..).trans (if_pos rfl))
    · rw [htoken]
      exact (KeyedMap.get?_insert ..).trans (if_pos rfl)
  | applyDelete key' l' heads =>
    obtain ⟨rfl, rfl, -⟩ := applyDelete_of_planResource hop.symm
    obtain rfl : key' = key := hkey
    refine (applyMutation_returns _ _ _).bind ?_
    rintro _ _ result ⟨rfl, versionToken, tombstone, file, hm, rfl, -⟩
    refine ⟨.deleted heads, hremote, ?_, ?_⟩
    · have hfile : (realm.site.files.set key' file)[key']? = file :=
        (Files.get?_set ..).trans (if_pos rfl)
      exact (congrArg (·.bind File.data) hfile).trans (Files.mutate_applyDelete hm)
    · exact (KeyedMap.get?_insert ..).trans (if_pos rfl)

end Operations

section Uploads

variable [Crates] {S : Setting} {site : Site} {realm : Realm} {s : RuntimeState}
variable {key : ResourceKey} {x : Commit} {content : Option Bytes} {locals : List LocalResource}

theorem Silent.returns {α : Type} {x : Sync α} (hx : Silent x) :
    Returns S x (fun _ s' _ => s'.commits = s.commits) site s := by
  refine Comp.wp_mono (hx.wp (J := fun _ s' => s'.commits = s.commits) ?_ ?_ ?_ rfl)
    (fun _ _ _ _ => trivial) fun _ _ _ hj => hj
  · exact fun _ _ _ hj hs => hs.commits.trans hj
  · exact fun _ _ _ _ _ => trivial
  · exact fun _ _ _ _ _ hj _ _ => hj

theorem Prepares.returns {α : Type} {x : Sync α} (hx : Prepares x) :
    Returns S x (fun site' s' _ => site' = site ∧ SameBase s s') site s := by
  refine Comp.wp_mono (hx.wp (J := fun site' s' => site' = site ∧ SameBase s s') ?_ ?_ ?_
    ⟨rfl, .refl s⟩) (fun _ _ _ _ => trivial) fun _ _ _ hj => hj
  · exact fun _ _ _ hj hs => ⟨hj.1, hj.2.trans hs⟩
  · exact fun _ _ _ _ _ => trivial
  · rintro _ _ q r site' ⟨rfl, hs⟩ hq hserves
    exact ⟨hserves.read hq, hs⟩

theorem afterCommit_commits (locals : List LocalResource) (tally : Tally) (x : Commit) :
    Returns S (afterCommit locals tally x) (fun _ s' _ => s'.commits = s.commits.insert x)
      site s := by
  refine Comp.wp_bind.mpr (Comp.wp_modify.mpr (Comp.wp_bind.mpr (Comp.wp_get.mpr ?_)))
  dsimp only
  cases x.change with
  | delete => rfl
  | binarySnapshot => rfl
  | textDelta =>
    exact Returns.imp (writeBack_silent locals tally x.resource _).returns fun _ _ _ h => h

/-- A version that is the only head once it is recorded, and the content of the file. -/
theorem afterCommit_agrees (hres : x.resource = key)
    (honly : RuntimeState.heads { s with commits := s.commits.insert x } key = [x.id])
    (hholds : x.change.Holds (site.files[key]?.bind File.data))
    (hstate : localStateOf locals key = site.files.stateOf key) (tally : Tally) :
    Returns S (afterCommit locals tally x) (fun site' s' _ => site' = site ∧ Agrees key site' s')
      site s := by
  obtain rfl : x.resource = key := hres
  have hremote := remoteState_of_only (s := { s with commits := s.commits.insert x })
    (KeyedMap.mem_insert.mpr (Or.inl rfl)) honly hholds
  refine Comp.wp_bind.mpr (Comp.wp_modify.mpr (Comp.wp_bind.mpr (Comp.wp_get.mpr ?_)))
  dsimp only
  cases hdata : site.files[x.resource]?.bind File.data with
  | none =>
    rw [hdata] at hholds hremote
    rw [show x.change = .delete from hholds, honly]
    exact ⟨rfl, _, hremote, hdata, (KeyedMap.get?_insert ..).trans (if_pos rfl)⟩
  | some data =>
    rw [hdata] at hholds hremote
    rw [show x.change = binarySnapshot data from hholds, honly]
    obtain ⟨⟨_, versionToken⟩, hfile, rfl⟩ := Option.bind_eq_some_iff.mp hdata
    refine ⟨rfl, _, hremote, data, versionToken, hfile, rfl, ?_⟩
    have htoken : (localStateOf locals x.resource).versionToken = some versionToken := by
      rw [hstate, Files.stateOf, hfile]
      rfl
    rw [htoken]
    exact (KeyedMap.get?_insert ..).trans (if_pos rfl)

/-- A batch with a version of the resource that stands on all its heads. -/
theorem publishBatch_agrees (hcol : Collisionless) (hhosts : realm.Hosts S s) {batch : CommitBatch}
    (hcreated : ∀ y ∈ batch.commits, y.Created) (hx : x ∈ batch.commits) (hres : x.resource = key)
    (hown : ∀ y ∈ batch.commits, y.resource.encoded = key.encoded → y = x)
    (hparents : x.parents = sortDedup (s.heads key))
    (hholds : x.change.Holds (realm.site.files[key]?.bind File.data))
    (hstate : localStateOf locals key = realm.site.files.stateOf key) (tally : Tally) :
    Concludes S (publishBatch locals batch tally)
      (fun realm' s' _ => Agrees key realm'.site s') realm s := by
  rw [publishBatch, if_neg]
  swap
  · rw [Bool.and_eq_true, not_and]
    intro hempty
    rw [List.isEmpty_iff.mp hempty] at hx
    cases hx
  refine Concludes.bind (Q := fun realm' s' _ => s' = s ∧ realm.Follows S realm' ∧
    (∀ y ∈ batch.commits, y ∈ realm'.published) ∧ realm'.site.files = realm.site.files)
    (Concludes.request ?_) ?_
  · intro r _ realm' hserves hr
    obtain rfl : r = .ok () := hr
    have hsite : realm'.site = _ := hserves.1
    exact ⟨rfl, hhosts.lawful.follows.serves hserves, hserves.publishes, by rw [hsite]⟩
  rintro realm₁ s _ ⟨rfl, hfollows, hpublished, hfiles⟩
  rw [← hfiles] at hholds hstate
  have hhosts₁ : realm₁.Hosts S s := hhosts.follows hfollows rfl
  have hcreatedIn : ∀ {before rest : List Commit}, batch.commits = before ++ rest →
      ∀ y ∈ s.commits.insertAll before, y.Created := by
    intro before rest hsplit y hy
    rcases KeyedMap.mem_of_mem_insertAll hy with hy | hy
    · exact hhosts.created y hy
    · exact hcreated y (hsplit ▸ List.mem_append_left _ hy)
  refine Concludes.bind (Q := fun realm' s' _ => Agrees key realm'.site s' ∧
    realm'.Lawful S ∧ ∀ y ∈ s'.commits, y.Created) ?_ ?_
  · -- the commits are recorded one by one
    refine Comp.wp_imp (Comp.wp_foldlM (fun rest realm' s' (_ : Tally) => ∃ before,
      batch.commits = before ++ rest ∧ s'.commits = s.commits.insertAll before ∧
      realm₁.Follows S realm' ∧ realm'.site.files[key]? = realm₁.site.files[key]? ∧
      (x ∈ before → Agrees key realm'.site s')) ?_
      ⟨[], rfl, rfl, hhosts₁.lawful.follows, rfl, fun hnone => absurd hnone List.not_mem_nil⟩) ?_
    · rintro y rest realm' s' tally ⟨before, hsplit, hcommits, hfollows', hfile, hagrees⟩
      have hnext : batch.commits = (before ++ [y]) ++ rest := by
        rw [hsplit, List.append_assoc, List.singleton_append]
      have hy : y ∈ batch.commits := hsplit ▸ List.mem_append_right _ List.mem_cons_self
      have hinserted : s'.commits.insert y = s.commits.insertAll (before ++ [y]) := by
        rw [hcommits, KeyedMap.insertAll_append]
        rfl
      suffices hstep : Returns S (afterCommit locals tally y) (fun site' t _ =>
          site'.files[key]? = realm'.site.files[key]? ∧ (x ∈ before ++ [y] → Agrees key site' t))
          realm'.site s' by
        have hboth : Returns S (afterCommit locals tally y) _ realm'.site s' :=
          Comp.wp_and hstep (afterCommit_commits locals tally y)
        refine (hboth.concludes hfollows'.lawful).imp ?_
        rintro realm'' t _ ⟨⟨⟨hfile', hagrees'⟩, ht⟩, hfollows''⟩
        exact ⟨before ++ [y], hnext, ht.trans hinserted,
          ⟨hfollows''.lawful, fun z hz => hfollows''.published z (hfollows'.published z hz)⟩,
          hfile'.trans hfile, hagrees'⟩
      by_cases hname : y.resource.encoded = key.encoded
      · obtain rfl := hown y hy hname
        have hpubs : ∀ z ∈ before ++ [y], z ∈ realm₁.published := fun z hz =>
          hpublished z (hnext ▸ List.mem_append_left _ hz)
        obtain ⟨-, honly⟩ := hhosts₁.only_head hcol hpubs
          (t := { s' with commits := s'.commits.insert y }) hinserted
          (List.mem_append_right _ (List.mem_singleton_self y))
          (fun z hz e => hown z (hnext ▸ List.mem_append_left _ hz) (by rw [e, hres]))
          (hres.symm ▸ hparents)
        have hstate' : localStateOf locals key = realm'.site.files.stateOf key := by
          rw [hstate, Files.stateOf, Files.stateOf, hfile]
        refine Returns.imp (afterCommit_agrees hres (hres ▸ honly) (hfile.symm ▸ hholds) hstate'
          tally) ?_
        rintro site' t _ ⟨rfl, hagrees'⟩
        exact ⟨rfl, fun _ => hagrees'⟩
      · have hspares : Sparing key (afterCommit locals tally y) :=
          afterCommit_sparing hcol locals tally (hcreated y hy) hname
        refine Returns.imp hspares.returns fun site' t _ hs => ⟨hs.1.file, fun hin => ?_⟩
        have hbefore : x ∈ before := by
          rcases List.mem_append.mp hin with hin | hin
          · exact hin
          · obtain rfl := List.mem_singleton.mp hin
            exact absurd (congrArg ResourceKey.encoded hres) hname
        refine (hagrees hbefore).spared ?_ hs
        rw [hcommits]
        exact hcreatedIn hsplit
    · rintro realm' s' tally ⟨before, hsplit, hcommits, hfollows', -, hagrees⟩
      rw [List.append_nil] at hsplit
      refine ⟨hagrees (hsplit ▸ hx), hfollows'.lawful, ?_⟩
      rw [hcommits]
      exact hcreatedIn (hsplit.trans (List.append_nil _).symm)
  · rintro realm₂ s₂ tally ⟨hagrees, hlawful, hcreated₂⟩
    have hsave : Sparing key (do Sync.saveRuntimeState; return tally) :=
      .bind (.request (by exact trivial) _) fun _ => .pure _
    refine (hsave.returns.concludes hlawful).imp ?_
    rintro realm' s' _ ⟨hs, -⟩
    exact hagrees.spared hcreated₂ hs

/-- What is recorded of a batch was published with it. -/
theorem publishBatch_hosts (hhosts : realm.Hosts S s) (batch : CommitBatch) (tally : Tally) :
    Concludes S (publishBatch locals batch tally) (fun realm' s' _ => realm'.Hosts S s') realm s := by
  rw [publishBatch]
  refine Comp.wp_ite.mpr ⟨fun _ => hhosts, fun _ => ?_⟩
  refine Concludes.bind (Q := fun realm' s' _ => realm'.Hosts S s' ∧
    ∀ y ∈ batch.commits, y ∈ realm'.published) (Concludes.request ?_) ?_
  · intro r _ realm' hserves hr
    obtain rfl : r = .ok () := hr
    exact ⟨hhosts.follows (hhosts.lawful.follows.serves hserves) rfl, hserves.publishes⟩
  rintro realm₁ s₁ _ ⟨hhosts₁, hpublished⟩
  refine Concludes.bind (Q := fun realm' s' _ => realm'.Hosts S s') ?_ ?_
  · refine Comp.wp_imp (Comp.wp_foldlM (fun rest realm' s' (_ : Tally) => realm'.Hosts S s' ∧
      ∀ y ∈ rest, y ∈ realm'.published) ?_ ⟨hhosts₁, hpublished⟩) fun _ _ _ hj => hj.1
    rintro y rest realm' s' tally ⟨hhosts', hrest⟩
    obtain ⟨hy, hrest⟩ := List.forall_mem_cons.mp hrest
    refine ((afterCommit_commits locals tally y).concludes hhosts'.lawful).imp ?_
    rintro realm'' s'' _ ⟨hcommits, hfollows⟩
    refine ⟨⟨hfollows.lawful, fun z hz => hfollows.published z ?_⟩, fun z hz =>
      hfollows.published z (hrest z hz)⟩
    rw [hcommits] at hz
    rcases KeyedMap.mem_insert.mp hz with rfl | ⟨hz, -⟩
    · exact hy
    · exact hhosts'.held z hz
  · intro realm₂ s₂ tally hhosts₂
    refine Concludes.bind (Q := fun realm' s' _ => realm'.Hosts S s')
      (Concludes.request fun r _ realm' hserves _ => ?_) fun _ _ _ hj => hj
    exact hhosts₂.follows (hhosts₂.lawful.follows.serves hserves) rfl

omit [Crates] in
/-- The contents of files that were read, by key. -/
theorem get?_contentMap_read {files : Files} {keys : List ResourceKey} (hkey : key ∈ keys)
    {data : Bytes} {versionToken : String} (hfile : files[key]? = some ⟨some data, versionToken⟩) :
    (contentMap (S.read files keys))[key]? = some ⟨key, S.kindOf key, versionToken, data⟩ := by
  have hread : ∀ {c : ResourceContent}, c ∈ S.read files keys → c.key = key →
      c = ⟨key, S.kindOf key, versionToken, data⟩ := by
    intro c hc hck
    obtain ⟨k, -, hk⟩ := List.mem_filterMap.mp hc
    obtain ⟨file, hf, hdata⟩ := Option.bind_eq_some_iff.mp hk
    obtain ⟨bytes, hb, rfl⟩ := Option.map_eq_some_iff.mp hdata
    obtain rfl : k = key := hck
    rw [hfile] at hf
    obtain rfl := Option.some.inj hf
    obtain rfl := Option.some.inj hb
    rfl
  cases hget : (contentMap (S.read files keys))[key]? with
  | some c =>
    obtain ⟨c', hmem, he⟩ := List.mem_map.mp (Map.mem_of_get?_ofList hget)
    obtain ⟨hck, rfl⟩ := Prod.mk.inj he
    rw [hread hmem hck]
  | none =>
    have hmem : ⟨key, S.kindOf key, versionToken, data⟩ ∈ S.read files keys :=
      List.mem_filterMap.mpr ⟨key, hkey, by rw [hfile]; rfl⟩
    refine absurd ?_ (Map.get?_ofList_eq_none.mp hget)
    exact List.mem_map.mpr ⟨_, List.mem_map_of_mem hmem, rfl⟩

/-- A resource has not failed, and the chunks of its content are listed. -/
def Prepared.Ready (prepared : Prepared) (key : ResourceKey) (content : Option Bytes) : Prop :=
  key ∉ prepared.failedUploadKeys ∧ ∀ data ∈ content, prepared.manifests[key]? =
    some ((chunkData data).map fun chunk => chunk.1.hash)

variable {rt : SyncRuntime} {contents : Map ResourceKey ResourceContent} {prepared : Prepared}
variable {operation : PlanOperation}

/-- Preparing the upload of another resource. -/
theorem prepareUpload_other (hready : prepared.Ready key content) (hne : operation.key ≠ key) :
    Returns S (prepareUpload rt contents prepared operation)
      (fun _ _ prepared' => prepared'.Ready key content) site s := by
  have hfail : ∀ {key'} (tally : Tally), key' ≠ key → ({ prepared with
      failedUploadKeys := key' :: prepared.failedUploadKeys, tally } : Prepared).Ready key content :=
    fun _ hk => ⟨fun hin => (List.mem_cons.mp hin).elim (fun e => hk e.symm) hready.1, hready.2⟩
  have hadd : ∀ {key'} (merged : Map ResourceKey Bytes) (c : ResourceContent), key' ≠ key →
      ({ prepared with mergedTexts := merged }.addChunks key' c).Ready key content := by
    intro key' merged c hk
    unfold Prepared.addChunks
    split
    · exact hready
    · refine ⟨hready.1, fun data hdata => ?_⟩
      rw [Map.get?_insert, if_neg hk]
      exact hready.2 data hdata
  unfold prepareUpload
  split
  · next key' localState =>
    split
    · exact hfail _ hne
    · next c _ =>
      split
      · exact hfail _ hne
      · refine Comp.wp_bind.mpr (Comp.wp_get.mpr (Comp.wp_bind.mpr (Returns.ofExcept ?_)))
        intro verdict _
        cases verdict with
        | notHandled => exact hadd prepared.mergedTexts c hne
        | merged data =>
          refine Comp.wp_bind.mpr (Returns.ofExcept fun _ _ => ?_)
          exact hadd _ c hne
        | conflict reason =>
          refine Comp.wp_bind.mpr (Returns.ofExcept fun _ _ => Comp.wp_bind.mpr ?_)
          exact hfail _ hne
  · exact hready

/-- What an operation uploads for the binary resource `key`. -/
inductive PlanOperation.Carries (contents : Map ResourceKey ResourceContent) (key : ResourceKey) :
    PlanOperation → Option Bytes → Prop
  | upload {localState c} (read : contents[key]? = some c) (kind : c.kind = .binary)
      (current : localState.versionToken = some c.versionToken) :
      Carries contents key (.upload key localState) (some c.data)
  | delete : Carries contents key (.publishDelete key) none

omit [Crates] in
theorem PlanOperation.Carries.concerns (h : operation.Carries contents key content) :
    operation.key = key := by
  cases h <;> rfl

theorem askPolicy_binary {c : ResourceContent} (hkind : c.kind = .binary) :
    askPolicy rt s key c = .ok .notHandled := by
  have hnone : mergeInput rt s key c = none := by
    unfold mergeInput
    rw [hkind]
  rw [askPolicy, hnone]

theorem prepareUpload_own (hcarries : operation.Carries contents key content)
    (hfresh : prepared.Ready key none) : Returns S (prepareUpload rt contents prepared operation)
      (fun _ _ prepared' => prepared'.Ready key content) site s := by
  cases hcarries with
  | delete => exact hfresh
  | @upload localState c hread hkind hcurrent =>
    simp only [prepareUpload, hread, hcurrent, ne_eq, not_true_eq_false, if_false]
    refine Comp.wp_bind.mpr (Comp.wp_get.mpr (Comp.wp_bind.mpr (Returns.ofExcept ?_)))
    intro verdict hverdict
    rw [askPolicy_binary hkind] at hverdict
    obtain rfl := Except.ok.inj hverdict
    have hadded : (prepared.addChunks key c).Ready key (some c.data) := by
      unfold Prepared.addChunks
      rw [hkind]
      refine ⟨hfresh.1, fun data hdata => ?_⟩
      obtain rfl := Option.mem_some.mp hdata
      rw [Map.get?_insert, if_pos rfl]
    exact hadded

/-- At most one commit is added to those created so far. -/
theorem createCommit_adds (created : List Commit) :
    Returns S (createCommit rt contents prepared created operation)
      (fun site' s' created' => site' = site ∧ SameBase s s' ∧ (created' = created ∨
        ∃ x, created' = created ++ [x] ∧ x.Created ∧ x.resource = operation.key)) site s := by
  rw [createCommit]
  dsimp only
  refine Comp.wp_ite.mpr ⟨fun _ => ⟨rfl, .refl s, Or.inl rfl⟩, fun _ => ?_⟩
  refine Comp.wp_bind.mpr (Comp.wp_get.mpr (Returns.bind nextCounter_prepares.returns ?_))
  rintro site s₁ counter ⟨rfl, hs⟩
  refine (operationChange_reads contents prepared operation).returns.bind ?_
  rintro site s₁ change ⟨rfl, rfl⟩
  cases change with
  | none => exact ⟨rfl, hs, Or.inl rfl⟩
  | some change =>
    refine Returns.bind (Q := fun site' s' _ => site' = site ∧ s' = s₁)
      (Returns.request fun r _ site' hserves _ => ⟨hserves.read (by exact trivial), rfl⟩) ?_
    rintro site s₁ now ⟨rfl, rfl⟩
    exact ⟨rfl, hs, Or.inr ⟨_, rfl, ⟨_, _, _, _, _, _, rfl⟩, rfl⟩⟩

theorem createCommit_own (hcarries : operation.Carries contents key content)
    (hready : prepared.Ready key content) (created : List Commit) :
    Returns S (createCommit rt contents prepared created operation) (fun _ _ created' =>
      ∃ x ∈ created', x.resource = key ∧ x.parents = sortDedup (s.heads key) ∧
        x.change.Holds content) site s := by
  have hkey := hcarries.concerns
  have hchange : ∀ site s, Returns S (operationChange contents prepared operation)
      (fun _ _ change => ∃ value, change = some value ∧ value.Holds content) site s := by
    intro site s
    cases hcarries with
    | delete => exact ⟨_, rfl, rfl⟩
    | @upload localState c hread hkind hcurrent =>
      simp only [operationChange, hread, uploadChange, hkind, hready.2 c.data rfl]
      exact ⟨_, rfl, rfl⟩
  rw [createCommit, hkey]
  dsimp only
  rw [if_neg hready.1]
  refine Comp.wp_bind.mpr (Comp.wp_get.mpr (Returns.bind nextCounter_prepares.returns ?_))
  intro site₁ s₁ counter _
  refine (hchange site₁ s₁).bind ?_
  rintro site₂ s₂ _ ⟨value, rfl, hholds⟩
  refine Returns.bind (Q := fun _ _ _ => True) (Returns.request fun _ _ _ _ _ => trivial) ?_
  intro site₃ s₃ now _
  exact ⟨_, List.mem_append_right _ (List.mem_singleton_self _), rfl, rfl, hholds⟩

variable {uploads : List PlanOperation}

theorem prepareUploads_ready (hcarries : operation.Carries contents key content)
    (hmem : operation ∈ uploads) (hinj : ∀ other ∈ uploads, other.key = key → other = operation)
    (tally : Tally) : Returns S (uploads.foldlM (prepareUpload rt contents) { tally })
      (fun site' s' prepared => (site' = site ∧ SameBase s s') ∧ prepared.Ready key content)
      site s := by
  refine Comp.wp_imp (Comp.wp_foldlM (fun rest site' s' (prepared : Prepared) =>
    (site' = site ∧ SameBase s s') ∧ (∀ other ∈ rest, other ∈ uploads) ∧
    prepared.Ready key none ∧ (operation ∉ rest → prepared.Ready key content)) ?_
    ⟨⟨rfl, .refl s⟩, fun _ ho => ho, ⟨List.not_mem_nil, by simp⟩,
      fun hnot => absurd hmem hnot⟩) fun _ _ _ hj => ⟨hj.1, hj.2.2.2 List.not_mem_nil⟩
  rintro other rest site' s' prepared ⟨⟨rfl, hs⟩, hin, hfresh, hready⟩
  obtain ⟨hother, hrest⟩ := List.forall_mem_cons.mp hin
  have hreads : Returns S (prepareUpload rt contents prepared other) _ site' s' :=
    (prepareUpload_prepares rt contents prepared other).returns
  have hnext : Returns S (prepareUpload rt contents prepared other)
      (fun _ _ prepared' => prepared'.Ready key none ∧
        (operation ∉ rest → prepared'.Ready key content)) site' s' := by
    by_cases he : other = operation
    · rw [he]
      refine Returns.imp (prepareUpload_own hcarries hfresh) fun _ _ _ h => ?_
      exact ⟨⟨h.1, by simp⟩, fun _ => h⟩
    · have hne : other.key ≠ key := fun e => he (hinj other hother e)
      by_cases hrest : operation ∈ rest
      · refine Returns.imp (prepareUpload_other hfresh hne) fun _ _ _ h => ?_
        exact ⟨h, fun hnot => absurd hrest hnot⟩
      · have hcons : operation ∉ other :: rest := by
          rw [List.mem_cons]
          exact fun h => h.elim (fun e => he e.symm) hrest
        refine Returns.imp (prepareUpload_other (hready hcons) hne) fun _ _ _ h => ?_
        exact ⟨⟨h.1, by simp⟩, fun _ => h⟩
  refine Comp.wp_imp (Comp.wp_and hreads hnext) ?_
  rintro site'' s'' prepared' ⟨⟨rfl, hs'⟩, h⟩
  exact ⟨⟨rfl, hs.trans hs'⟩, hrest, h⟩

/-- The commits of a round: each of its own resource, and among them the one of `key`. -/
structure Creates (key : ResourceKey) (content : Option Bytes) (uploads : List PlanOperation)
    (s : RuntimeState) (commits : List Commit) : Prop where
  created : ∀ y ∈ commits, y.Created
  order : (commits.map Commit.resource).Sublist (uploads.map PlanOperation.key)
  own : ∃ y ∈ commits, y.resource = key ∧ y.parents = sortDedup (s.heads key) ∧
    y.change.Holds content

theorem createCommits_own (hcarries : operation.Carries contents key content)
    (hready : prepared.Ready key content) (hmem : operation ∈ uploads) {s₁ : RuntimeState}
    (hs₁ : SameBase s s₁) :
    Returns S (uploads.foldlM (createCommit rt contents prepared) []) (fun site' s' created =>
      (site' = site ∧ SameBase s s') ∧ Creates key content uploads s created) site s₁ := by
  refine Comp.wp_imp (Comp.wp_foldlM (fun rest site' s' (created : List Commit) =>
    (site' = site ∧ SameBase s s') ∧ (∀ y ∈ created, y.Created) ∧
    (∃ done, uploads = done ++ rest ∧
      (created.map Commit.resource).Sublist (done.map PlanOperation.key)) ∧
    (operation ∉ rest → ∃ x ∈ created, x.resource = key ∧ x.parents = sortDedup (s.heads key) ∧
      x.change.Holds content)) ?_
    ⟨⟨rfl, hs₁⟩, by simp, ⟨[], rfl, by simp⟩, fun hnot => absurd hmem hnot⟩) ?_
  · rintro other rest site' s' created ⟨⟨rfl, hs⟩, hcreated, ⟨done, hdone, hsub⟩, hfound⟩
    have hadds : Returns S (createCommit rt contents prepared created other) _ site' s' :=
      createCommit_adds created
    have hnext : Returns S (createCommit rt contents prepared created other)
        (fun _ _ created' => other = operation → ∃ x ∈ created', x.resource = key ∧
          x.parents = sortDedup (s.heads key) ∧ x.change.Holds content) site' s' := by
      by_cases he : other = operation
      · subst he
        refine Returns.imp (createCommit_own hcarries hready created) ?_
        rintro _ _ created' ⟨x, hx, hres, hparents, hholds⟩ -
        exact ⟨x, hx, hres, RuntimeState.heads_of_commits hs.commits key ▸ hparents, hholds⟩
      · exact Returns.imp hadds fun _ _ _ _ e => absurd e he
    refine Comp.wp_imp (Comp.wp_and hadds hnext) ?_
    rintro site'' s'' created' ⟨⟨rfl, hs', hadded⟩, hown⟩
    refine ⟨⟨rfl, hs.trans hs'⟩, ?_, ⟨done ++ [other], ?_, ?_⟩, fun hrest => ?_⟩
    · intro y hy
      rcases hadded with rfl | ⟨z, rfl, hz, -⟩
      · exact hcreated y hy
      · rcases List.mem_append.mp hy with hy | hy
        · exact hcreated y hy
        · exact List.mem_singleton.mp hy ▸ hz
    · rw [hdone, List.append_assoc, List.singleton_append]
    · rw [List.map_append]
      rcases hadded with rfl | ⟨z, rfl, -, hz⟩
      · exact hsub.trans (List.sublist_append_left _ _)
      · rw [List.map_append, List.map_singleton, List.map_singleton, hz]
        exact hsub.append (List.Sublist.refl _)
    · by_cases he : other = operation
      · exact hown he
      · obtain ⟨x, hx, hfits⟩ := hfound fun hin =>
          (List.mem_cons.mp hin).elim (fun e => he e.symm) hrest
        refine ⟨x, ?_, hfits⟩
        rcases hadded with rfl | ⟨z, rfl, -⟩
        · exact hx
        · exact List.mem_append_left _ hx
  · rintro site' s' created ⟨hsame, hcreated, ⟨done, hdone, hsub⟩, hfound⟩
    rw [List.append_nil] at hdone
    exact ⟨hsame, hcreated, hdone ▸ hsub, hfound List.not_mem_nil⟩

/-- What a planned upload carries is the file. -/
theorem Plans.carries (hplans : Plans key site s operation) (hup : operation.isUpload = true)
    (hkind : S.kindOf key = .binary) (hmem : operation ∈ uploads) :
    operation.Carries (contentMap (S.read site.files (uploadKeys uploads))) key
      (site.files[key]?.bind File.data) := by
  obtain ⟨remote, -, hplanned⟩ := hplans
  have hkey : operation.key = key := hplanned ▸ planResource_key
  cases operation with
  | publishDelete key' =>
    obtain ⟨habsent, -⟩ := absent_of_planResource hplanned.symm
    obtain rfl : key' = key := hkey
    rw [Files.stateOf_absent habsent]
    exact .delete
  | upload key' l' =>
    obtain ⟨rfl, huploads⟩ := uploads_of_planResource hplanned.symm
    obtain rfl : key' = key := hkey
    obtain ⟨id, size, versionToken, hl⟩ := huploads.present
    obtain ⟨data, hfile, -⟩ := Files.stateOf_present hl
    have hin : key' ∈ uploadKeys uploads := List.mem_filterMap.mpr ⟨_, hmem, rfl⟩
    have hread := get?_contentMap_read (S := S) hin hfile
    rw [hfile, hl]
    exact .upload hread hkind rfl
  | _ => cases hup

/-- A planned upload is published, and is the version that the file is at. -/
theorem runUploads_agrees (hcol : Collisionless) (hhosts : realm.Hosts S s)
    {plan : List PlanOperation} (hnodup : (plan.map PlanOperation.key).Nodup)
    (hname : ∀ other ∈ plan, other.key.encoded = key.encoded → other.key = key)
    (hop : operation ∈ plan) (hup : operation.isUpload = true)
    (hplans : Plans key realm.site s operation) (hkind : S.kindOf key = .binary)
    (hstate : localStateOf locals key = realm.site.files.stateOf key) (tally : Tally) :
    Concludes S (runUploads rt locals plan tally)
      (fun realm' s' _ => Agrees key realm'.site s') realm s := by
  have hmem : operation ∈ plan.filter PlanOperation.isUpload := List.mem_filter.mpr ⟨hop, hup⟩
  have hcarries := hplans.carries hup hkind hmem
  have hinj : ∀ other ∈ plan.filter PlanOperation.isUpload, other.key = key →
      other = operation := fun other hother e =>
    List.inj_on_of_nodup_map hnodup (List.mem_filter.mp hother).1 hop
      (e.trans hcarries.concerns.symm)
  rw [runUploads]
  refine Concludes.bind (Q := fun realm' s' read => realm'.site = realm.site ∧ s' = s ∧
    realm'.Hosts S s ∧ read = S.read realm.site.files
      (uploadKeys (plan.filter PlanOperation.isUpload))) (Concludes.request ?_) ?_
  · intro r read realm' hserves hr
    obtain rfl : r = .ok read := hr
    exact ⟨hserves.1.1, rfl, hhosts.follows (hhosts.lawful.follows.serves hserves) rfl, hserves.1.2⟩
  rintro realm₁ s read ⟨hsite, rfl, hhosts₁, hread⟩
  rw [← hread, ← hsite] at hcarries
  rw [← hsite] at hstate
  clear hread hplans hhosts hsite
  refine ((prepareUploads_ready hcarries hmem hinj tally).concludes hhosts₁.lawful).bind ?_
  rintro realm₂ s₂ prepared ⟨⟨⟨hsite₂, hs₂⟩, hready⟩, hfollows₂⟩
  refine Concludes.bind (Q := fun realm' s' _ => realm'.site = realm₂.site ∧ s' = s₂ ∧
    realm₂.Follows S realm') (Concludes.request ?_) ?_
  · intro r existing realm' hserves hr
    obtain rfl : r = .ok existing := hr
    exact ⟨hserves.1.1, rfl, hfollows₂.lawful.follows.serves hserves⟩
  rintro realm₃ s₂ existing ⟨hsite₃, rfl, hfollows₃⟩
  have hcreate : Returns S (List.foldlM (createCommit rt _ prepared) [] _) _ realm₃.site s₂ :=
    createCommits_own hcarries hready hmem hs₂
  refine (hcreate.concludes hfollows₃.lawful).bind ?_
  rintro realm₄ s₄ created ⟨⟨⟨hsite₄, hs₄⟩, hcreated, hsub, x, hx, hres, hparents, hholds⟩, hfollows₄⟩
  have hsame : realm₄.site = realm₁.site := hsite₄.trans (hsite₃.trans hsite₂)
  rw [← hsame] at hstate hholds
  have hhosts₄ : realm₄.Hosts S s₄ := by
    refine ⟨hfollows₄.lawful, fun y hy => hfollows₄.published y (hfollows₃.published y
      (hfollows₂.published y (hhosts₁.held y ?_)))⟩
    rwa [← hs₄.commits]
  refine publishBatch_agrees hcol hhosts₄ hcreated hx hres (fun y hy e => ?_) ?_ hholds hstate _
  · have hin : y.resource ∈ (plan.filter PlanOperation.isUpload).map PlanOperation.key :=
      hsub.subset (List.mem_map_of_mem hy)
    obtain ⟨other, hother, hyr⟩ := List.mem_map.mp hin
    have hyres : y.resource = key := by
      rw [← hyr]
      exact hname other (List.mem_filter.mp hother).1 (by rw [hyr, e])
    have hdistinct : (created.map Commit.resource).Nodup :=
      hsub.nodup (hnodup.sublist (List.filter_sublist.map _))
    exact List.inj_on_of_nodup_map hdistinct hy hx (hyres.trans hres.symm)
  · rw [hparents, RuntimeState.heads_of_commits hs₄.commits]

end Uploads

end Rollforward
