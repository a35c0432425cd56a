import Rollforward.Plan
import Rollforward.Sample

/-! What a plan may discard.  The planner itself never overwrites a side that has changed;
the merging of text conflicts looks at the local kind only, and a plan treats a resource
outside its scopes as new. -/

namespace Rollforward

open Std Lib

section Planner

variable [Crates]

/-- What a list of pairs says of a key. -/
def Says (pairs : List (ResourceKey × α)) (key : ResourceKey) : Option α → Prop
  | some value => (key, value) ∈ pairs
  | none => key ∉ pairs.map Prod.fst

/-- The operation discards no side that differs from the baseline `b`. -/
structure PlanOperation.Safe (operation : PlanOperation) (l : ReplicaState)
    (b : Option BaselineState) (r : RemoteResourceState) : Prop where
  download : ∀ key remote id size token, operation = .download key remote →
    l = .present id size token → ∃ version heads, b = some (.present id version heads)
  applyDelete : ∀ key state heads, operation = .applyDelete key state heads →
    ∃ id size token version heads, l = .present id size token ∧
      b = some (.present id version heads)
  upload : ∀ key state id size rheads, operation = .upload key state →
    r = .present id size rheads → ∃ version heads, b = some (.present id version heads)
  publishDelete : ∀ key, operation = .publishDelete key → ∃ id size rheads version heads,
    r = .present id size rheads ∧ b = some (.present id version heads)
  revive : ∀ key state rheads, operation = .upload key state → r = .deleted rheads →
    ∃ heads, b = some (.deleted heads)
  forked : ∀ heads, r = .forked heads → operation.isConflict = true
  conflict : ∀ record, operation = .conflict record → record.kind ≠ .remoteFork →
    l.contentId ≠ r.contentId ∧ ∀ base version heads, b = some (.present base version heads) →
      l.contentId ≠ some base ∧ r.contentId ≠ some base

variable {key : ResourceKey} {l : ReplicaState} {b : Option BaselineState}
variable {r : RemoteResourceState}

theorem conflict_of_planResource {record : ConflictRecord}
    (h : planResource key l b r = .conflict record) (hkind : record.kind ≠ .remoteFork) :
    l.contentId ≠ r.contentId ∧ ∀ base version heads, b = some (.present base version heads) →
      l.contentId ≠ some base ∧ r.contentId ≠ some base := by
  unfold planResource at h
  split at h <;> (try split at h) <;> (try split at h) <;> (try split at h) <;> cases h
  -- a fork is the only conflict that is not about contents
  · exact absurd rfl hkind
  all_goals simp_all [ReplicaState.contentId, RemoteResourceState.contentId, eq_comm]

theorem planResource_safe : (planResource key l b r).Safe l b r where
  download := by
    intro _ _ id size token h hl
    obtain ⟨-, -, habsent | ⟨base, _, _, version, heads, hl', hb⟩⟩ := downloads_of_planResource h
    · rw [hl] at habsent
      cases habsent
    · rw [hl] at hl'
      cases hl'
      exact ⟨version, heads, hb⟩
  applyDelete := by
    intro _ _ _ h
    obtain ⟨-, -, hbase⟩ := applyDelete_of_planResource h
    exact hbase
  upload := by
    intro _ _ id size rheads h hr
    obtain ⟨-, hup⟩ := uploads_of_planResource h
    cases hup with
    | first | revived => cases hr
    | edited =>
      cases hr
      exact ⟨_, _, rfl⟩
  publishDelete := by
    intro _ h
    obtain ⟨-, base, version, heads, size, rheads, hb, hr⟩ := absent_of_planResource h
    exact ⟨base, size, rheads, version, heads, hr, hb⟩
  revive := by
    intro _ _ rheads h hr
    obtain ⟨-, hup⟩ := uploads_of_planResource h
    cases hup with
    | first | edited => cases hr
    | revived => exact ⟨_, rfl⟩
  forked := by
    rintro heads rfl
    cases l <;> rfl
  conflict _ := conflict_of_planResource

variable {locals : List (ResourceKey × ReplicaState)}
variable {baselines : List (ResourceKey × BaselineState)}
variable {remotes : List (ResourceKey × RemoteResourceState)}

omit [Crates] in
theorem says_ofList {pairs : List (ResourceKey × α)} (key : ResourceKey) :
    Says pairs key (ExtTreeMap.ofList pairs compare : Map ResourceKey α)[key]? := by
  cases h : (ExtTreeMap.ofList pairs compare : Map ResourceKey α)[key]? with
  | some value => exact Map.mem_of_get?_ofList h
  | none => exact Map.get?_ofList_eq_none.mp h

theorem planInventory_keys : (planInventory locals baselines remotes).map PlanOperation.key =
    (ExtTreeMap.unitOfList
      ((ExtTreeMap.ofList locals compare : Map ResourceKey ReplicaState).keys ++
        (ExtTreeMap.ofList baselines compare : Map ResourceKey BaselineState).keys ++
        (ExtTreeMap.ofList remotes compare : Map ResourceKey RemoteResourceState).keys)
      compare : Map ResourceKey Unit).keys := by
  simp only [planInventory, List.map_map, Function.comp_def, planResource_key, List.map_id']

theorem planInventory_discards_nothing (hlocals : (locals.map Prod.fst).Nodup)
    (hbaselines : (baselines.map Prod.fst).Nodup) (hremotes : (remotes.map Prod.fst).Nodup) :
    (∀ key, key ∈ (planInventory locals baselines remotes).map PlanOperation.key ↔
      key ∈ locals.map Prod.fst ∨ key ∈ baselines.map Prod.fst ∨ key ∈ remotes.map Prod.fst) ∧
    ((planInventory locals baselines remotes).map PlanOperation.key).Pairwise
      (fun a b => compare a b = .lt) ∧
    (∀ locals' baselines' remotes', locals'.Perm locals → baselines'.Perm baselines →
      remotes'.Perm remotes →
      planInventory locals' baselines' remotes' = planInventory locals baselines remotes) ∧
    ∀ operation ∈ planInventory locals baselines remotes, ∃ l b r,
      Says locals operation.key l ∧ Says baselines operation.key b ∧ Says remotes operation.key r ∧
        operation.Safe (l.getD .missing) b (r.getD .missing) := by
  refine ⟨fun key => ?_, ?_, fun locals' baselines' remotes' hl hb hr => ?_, fun operation hop => ?_⟩
  · simp only [planInventory_keys, Map.mem_keys_unitOfList, List.mem_append, Map.mem_keys_ofList,
      or_assoc]
  · rw [planInventory_keys]
    exact ExtTreeMap.ordered_keys
  · rw [planInventory, planInventory, Map.ofList_of_perm hlocals hl,
      Map.ofList_of_perm hbaselines hb, Map.ofList_of_perm hremotes hr]
  · obtain ⟨key, -, rfl⟩ := List.mem_map.mp hop
    rw [planResource_key]
    exact ⟨_, _, _, says_ofList key, says_ofList key, says_ofList key, planResource_safe⟩

end Planner

section Merging

variable [Crates] {s : RuntimeState} {scopes : List String} {locals : List LocalResource}
variable {rt : SyncRuntime} {plan : List PlanOperation} {key : ResourceKey} {id : String}

/-- The local file is there, and the plan takes it for a new resource or for a text that
has changed on both sides: `id` is the remote content. -/
def RuntimeState.Supersedes (s : RuntimeState) (scopes : List String)
    (locals : List LocalResource) (key : ResourceKey) (id : String) : Prop :=
  ∃ resource localId size token, (localMap locals)[key]? = some resource ∧
    resource.state = .present localId size token ∧
    (inScopes scopes key.scopeId = false ∨
      resource.kind = .text ∧ localId ≠ id ∧ ∃ state, ⟨key, state⟩ ∈ s.baselines ∧
        ∀ base version heads, state = .present base version heads → localId ≠ base)

/-- The baseline of the resource, if there is one, has another content. -/
def RuntimeState.Departs (s : RuntimeState) (key : ResourceKey) (id : String) : Prop :=
  ∀ base version heads, ⟨key, .present base version heads⟩ ∈ s.baselines → base ≠ id

omit [Crates] in
theorem kindOf_localMap : (ExtTreeMap.ofList (locals.map fun resource =>
    (resource.key, resource.kind)) compare : Map ResourceKey ResourceKind)[key]? =
      (localMap locals)[key]?.map LocalResource.kind :=
  Map.get?_ofList_map locals LocalResource.key LocalResource.kind key

/-- The operation a plan has for a resource of the inventory. -/
theorem operation_of_localMap (s : RuntimeState) (scopes : List String)
    (pairs : List (ResourceKey × RemoteResourceState)) {resource : LocalResource}
    (h : (localMap locals)[key]? = some resource) :
    planResource key resource.state
      (ExtTreeMap.ofList (s.baselinePairs scopes) compare : Map ResourceKey BaselineState)[key]?
      ((ExtTreeMap.ofList pairs compare : Map ResourceKey RemoteResourceState)[key]?.getD .missing)
    ∈ planInventory (locals.map fun resource => (resource.key, resource.state))
      (s.baselinePairs scopes) pairs := by
  refine List.mem_map.mpr ⟨key, ?_, ?_⟩
  · rw [Map.mem_keys_unitOfList]
    refine List.mem_append_left _ (List.mem_append_left _ (Map.mem_keys_ofList.mpr ?_))
    obtain ⟨found, hf, he⟩ := List.mem_map.mp (Map.mem_of_get?_ofList h)
    rw [List.map_map]
    exact List.mem_map.mpr ⟨found, hf, (Prod.mk.inj he).1⟩
  · rw [Map.get?_ofList_map locals LocalResource.key LocalResource.state,
      show (ExtTreeMap.ofList _ compare : Map ResourceKey LocalResource)[key]? = _ from h]
    rfl

omit [Crates] in
theorem mergeTextConflict_of_text (record : ConflictRecord) {resource : LocalResource}
    (h : (localMap locals)[record.resource]? = some resource) (htext : resource.kind = .text)
    (hkind : record.kind = .contentVsContent) :
    ∃ state, mergeTextConflict locals (.conflict record) = .upload record.resource state := by
  simp only [mergeTextConflict]
  rw [if_pos ⟨hkind, by rw [kindOf_localMap, h, Option.map_some, htext]⟩]
  obtain ⟨found, hf, he⟩ := List.mem_map.mp (Map.mem_of_get?_ofList h)
  cases hfind : locals.find? fun resource => resource.key = record.resource with
  | some other =>
    rw [show record.resource = other.key from
      (of_decide_eq_true (List.find?_some hfind :) : other.key = record.resource).symm]
    exact ⟨other.state, rfl⟩
  | none =>
    refine absurd (Prod.mk.inj he).1 ?_
    simpa using List.find?_eq_none.mp hfind found hf

/-- A text conflict that is merged, or a resource that is taken for new, is uploaded. -/
theorem upload_of_supersedes (h : s.buildPlan rt scopes locals = .ok plan) {size : Nat}
    {heads : List String} (hremote : s.remoteState key = .ok (.present id size heads))
    (hdeparts : s.Departs key id) (hsup : s.Supersedes scopes locals key id) :
    ∃ state, .upload key state ∈ plan := by
  obtain ⟨pairs, hpairs, hperm⟩ := buildPlan_perm h
  obtain ⟨resource, localId, lsize, token, hlocal, hstate, hcase⟩ := hsup
  have hmem := List.mem_map_of_mem (f := mergeTextConflict locals)
    (operation_of_localMap s scopes pairs hlocal)
  rw [hstate] at hmem
  by_cases hscope : inScopes scopes key.scopeId = true
  · have hr := get?_remotePairs hpairs hscope
    rw [hremote] at hr
    rw [← Except.ok.inj hr] at hmem
    rcases hcase with hout | ⟨htext, hne, state, hb, hbase⟩
    · rw [hscope] at hout
      cases hout
    have hconflict : planResource key (.present localId lsize token) (some state)
        (.present id size heads) = .conflict (ConflictRecord.new key .contentVsContent
          (.present localId lsize token) (.present id size heads)) := by
      cases state with
      | deleted => simp only [planResource, if_neg hne]
      | present base version bheads =>
        simp only [planResource, if_neg hne, if_neg (hbase base version bheads rfl),
          if_neg (Ne.symm (hdeparts base version bheads hb))]
    rw [get?_baselinePairs.mpr ⟨hb, hscope⟩, hconflict] at hmem
    obtain ⟨state, hup⟩ := mergeTextConflict_of_text
      (ConflictRecord.new key .contentVsContent (.present localId lsize token)
        (.present id size heads)) hlocal htext rfl
    rw [hup] at hmem
    exact ⟨state, hperm.mem_iff.mpr hmem⟩
  · -- outside the scopes neither the baseline nor the remote side is looked at
    have hnone : (ExtTreeMap.ofList pairs compare :
        Map ResourceKey RemoteResourceState)[key]? = none :=
      Map.get?_ofList_eq_none.mpr fun hin => hscope (remotePairs_scoped hpairs hin)
    rw [hnone] at hmem
    have hbaseline : (ExtTreeMap.ofList (s.baselinePairs scopes) compare :
        Map ResourceKey BaselineState)[key]? = none := by
      rw [Option.eq_none_iff_forall_ne_some]
      exact fun state hb => hscope (get?_baselinePairs.mp hb).2
    rw [hbaseline] at hmem
    exact ⟨_, hperm.mem_iff.mpr hmem⟩

omit [Crates] in
theorem conflict_of_merged {operation : PlanOperation} {state : ReplicaState}
    (h : mergeTextConflict locals operation = .upload key state) :
    (∃ key state, operation = .upload key state) ∨ ∃ record resource,
      operation = .conflict record ∧ record.kind = .contentVsContent ∧
        (localMap locals)[record.resource]? = some resource ∧ resource.kind = .text := by
  cases operation with
  | upload key state => exact Or.inl ⟨key, state, rfl⟩
  | conflict record =>
    simp only [mergeTextConflict] at h
    split at h
    · next hmerge =>
      rw [kindOf_localMap] at hmerge
      obtain ⟨resource, hlocal, hkind⟩ := Option.map_eq_some_iff.mp hmerge.2
      exact Or.inr ⟨record, resource, rfl, hmerge.1, hlocal, hkind⟩
    · cases h
  | _ => cases h

theorem contentVsContent_of_planResource {l : ReplicaState} {b : Option BaselineState}
    {r : RemoteResourceState} {record : ConflictRecord}
    (h : planResource key l b r = .conflict record) (hkind : record.kind = .contentVsContent) :
    ∃ localId size token state id rsize heads, l = .present localId size token ∧
      b = some state ∧ r = .present id rsize heads := by
  unfold planResource at h
  split at h <;> (try split at h) <;> (try split at h) <;> (try split at h) <;> cases h <;>
    cases hkind <;> exact ⟨_, _, _, _, _, _, _, rfl, rfl, rfl⟩

/-- Nothing else than a merge makes a plan upload over a content that is not the baseline's. -/
theorem supersedes_of_upload (h : s.buildPlan rt scopes locals = .ok plan) {state : ReplicaState}
    (hup : .upload key state ∈ plan) {size : Nat} {heads : List String}
    (hremote : s.remoteState key = .ok (.present id size heads)) (hdeparts : s.Departs key id) :
    s.Supersedes scopes locals key id := by
  obtain ⟨pairs, hpairs, hperm⟩ := buildPlan_perm h
  obtain ⟨operation, hop, hmerged⟩ := List.mem_map.mp (hperm.mem_iff.mp hup)
  obtain ⟨key', -, rfl⟩ := List.mem_map.mp hop
  have hkey := congrArg PlanOperation.key hmerged
  rw [mergeTextConflict_key, planResource_key] at hkey
  obtain rfl : key' = key := hkey
  rw [Map.get?_ofList_map locals LocalResource.key LocalResource.state] at hmerged
  have hlocal : ∀ localId size token,
      ((localMap locals)[key']?.map LocalResource.state).getD .missing =
        .present localId size token → ∃ resource, (localMap locals)[key']? = some resource ∧
          resource.state = .present localId size token := by
    intro localId size token hl
    cases hfound : (localMap locals)[key']? with
    | some resource => exact ⟨resource, rfl, by rwa [hfound] at hl⟩
    | none =>
      rw [hfound] at hl
      cases hl
  have hscoped : inScopes scopes key'.scopeId = true → (ExtTreeMap.ofList pairs compare :
      Map ResourceKey RemoteResourceState)[key']?.getD .missing = .present id size heads := by
    intro hscope
    rw [get?_remotePairs hpairs hscope] at hremote
    exact Except.ok.inj hremote
  rcases conflict_of_merged hmerged with ⟨_, _, hplan⟩ | ⟨record, resource, hplan, hkind, hres, htext⟩
  · obtain ⟨-, huploads⟩ := uploads_of_planResource hplan
    generalize hl : (Option.map LocalResource.state _).getD ReplicaState.missing = l at huploads
    generalize hb : (ExtTreeMap.ofList (s.baselinePairs scopes) compare :
      Map ResourceKey BaselineState)[key']? = b at huploads
    generalize hr : (ExtTreeMap.ofList pairs compare :
      Map ResourceKey RemoteResourceState)[key']?.getD .missing = r at huploads
    cases huploads with
    | first =>
      obtain ⟨resource, hfound, hstate⟩ := hlocal _ _ _ hl
      refine ⟨resource, _, _, _, hfound, hstate, Or.inl ?_⟩
      by_contra hscope
      rw [hscoped (by simpa using hscope)] at hr
      cases hr
    | edited =>
      obtain ⟨hmem, hscope⟩ := get?_baselinePairs.mp hb
      rw [hscoped hscope] at hr
      cases hr
      exact absurd rfl (hdeparts _ _ _ hmem)
    | revived =>
      rw [hscoped (get?_baselinePairs.mp hb).2] at hr
      cases hr
  · have hkey' := congrArg PlanOperation.key hplan
    rw [planResource_key] at hkey'
    obtain rfl : key' = record.resource := hkey'
    obtain ⟨localId, lsize, token, state, rid, rsize, rheads, hl, hb, hr⟩ :=
      contentVsContent_of_planResource hplan hkind
    obtain ⟨hmem, hscope⟩ := get?_baselinePairs.mp hb
    obtain ⟨found, hfound, hstate⟩ := hlocal _ _ _ hl
    obtain rfl := Option.some.inj (hres.symm.trans hfound)
    obtain ⟨hne, hbase⟩ := conflict_of_planResource hplan (by rw [hkind]; decide)
    rw [hl, hr, hb] at hbase
    rw [hl, hscoped hscope] at hne
    refine ⟨resource, localId, lsize, token, hfound, hstate, Or.inr ⟨htext, ?_, state, hmem, ?_⟩⟩
    · exact fun e => hne (congrArg some e)
    · rintro base version bheads rfl e
      exact (hbase base version bheads rfl).1 (congrArg some e)

/-- An upload supersedes only texts exactly when no snapshot is the current version of a
resource that the plan merges or takes for new. -/
theorem buildPlan_supersedes_only_text (h : s.buildPlan rt scopes locals = .ok plan) :
    (∀ key state id size heads, .upload key state ∈ plan →
      s.remoteState key = .ok (.present id size heads) → s.Departs key id →
      ∀ head ∈ s.heads key, ∃ x, s.commits.get? head = some x ∧ x.change.isText = true) ↔
    ∀ key id size heads, s.remoteState key = .ok (.present id size heads) → s.Departs key id →
      (∃ head ∈ s.heads key, ∃ x, s.commits.get? head = some x ∧ x.change.snapshot?.isSome) →
      ¬ s.Supersedes scopes locals key id := by
  constructor
  · rintro hall key id size heads hremote hdeparts ⟨head, hhead, x, hx, hsnap⟩ hsup
    obtain ⟨state, hup⟩ := upload_of_supersedes h hremote hdeparts hsup
    obtain ⟨y, hy, htext⟩ := hall key state id size heads hup hremote hdeparts head hhead
    obtain rfl := Option.some.inj (hx.symm.trans hy)
    cases hc : x.change <;> simp [hc, ResourceChange.snapshot?, ResourceChange.isText] at hsnap htext
  · intro hnone key state id size heads hup hremote hdeparts head hhead
    obtain ⟨x, hx, hres, rfl⟩ := RuntimeState.mem_heads_iff_isHead.mp hhead
    refine ⟨x, hx.1, ?_⟩
    by_contra htext
    obtain ⟨_, _, hc⟩ := (RuntimeState.shows_of_remoteState hremote).snapshot_of_head hx hres
      (by simpa using htext)
    refine hnone key id size heads hremote hdeparts ⟨x.id, hhead, x, hx.1, ?_⟩
      (supersedes_of_upload h hup hremote hdeparts)
    rw [hc]
    rfl

end Merging

section Samples

open Sample

attribute [local instance] crates

/-- Two files in the wrong order, one of them edited on this side. -/
theorem planInventory_discards_nothing_edited : ∃ locals baselines remotes,
    locals.map Prod.fst = [key "b", key "a"] ∧ baselines = [(key "a", .present "0" "u" ["h"])] ∧
    ∀ operation ∈ planInventory locals baselines remotes, ∃ l b r,
      Says locals operation.key l ∧ Says baselines operation.key b ∧ Says remotes operation.key r ∧
        operation.Safe (l.getD .missing) b (r.getD .missing) := by
  refine ⟨[(key "b", .present "2" 1 "t"), (key "a", .present "1" 1 "t")], _,
    [(key "a", .present "0" 1 ["h"])], rfl, rfl, ?_⟩
  exact (planInventory_discards_nothing (by decide) (by decide) (by decide)).2.2.2

/-- Two binary versions of a file, the first of which is the baseline. -/
def superseded : RuntimeState :=
  let old := Commit.create (key "a") [] "B" 1 0 (binarySnapshot (textBytes "old"))
  let new := Commit.create (key "a") [old.id] "B" 2 1 (binarySnapshot (textBytes "new"))
  { commits := (∅ : CommitMap).insertAll [old, new]
    baselines := KeyedMap.insert ∅
      ⟨key "a", .present (blake3 (textBytes "old")) "t" [old.id]⟩ }

/-- The local file, edited since. -/
def edited (kind : ResourceKind) : List LocalResource :=
  [⟨key "a", kind, .present (blake3 (textBytes "mine")) 4 "u"⟩]

theorem inventory_of_edited {kind : ResourceKind} {k : ResourceKey} {resource : LocalResource}
    (h : (localMap (edited kind))[k]? = some resource) : k = key "a" ∧ resource.kind = kind := by
  obtain ⟨found, hf, he⟩ := List.mem_map.mp (Map.mem_of_get?_ofList h)
  obtain rfl := List.mem_singleton.mp hf
  obtain ⟨rfl, rfl⟩ := Prod.mk.inj he
  exact ⟨rfl, rfl⟩

/-- The file is listed as binary: there is no upload at all. -/
theorem buildPlan_supersedes_only_text_binary : ∃ plan,
    superseded.buildPlan ⟨"A", none⟩ ["s"] (edited .binary) = .ok plan ∧
      ∀ key state id size heads, .upload key state ∈ plan →
        superseded.remoteState key = .ok (.present id size heads) → superseded.Departs key id →
        ∀ head ∈ superseded.heads key, ∃ x, superseded.commits.get? head = some x ∧
          x.change.isText = true := by
  obtain ⟨plan, hplan⟩ : ∃ plan,
      superseded.buildPlan ⟨"A", none⟩ ["s"] (edited .binary) = .ok plan :=
    exists_of_isOk (by decide +kernel)
  refine ⟨plan, hplan, (buildPlan_supersedes_only_text hplan).mpr ?_⟩
  rintro k id size heads - - - ⟨resource, _, _, _, hlocal, -, hscope | ⟨htext, -⟩⟩
  · obtain ⟨rfl, -⟩ := inventory_of_edited hlocal
    cases hscope
  · rw [(inventory_of_edited hlocal).2] at htext
    cases htext

/-- The file is listed as text, and the plan puts a delta over the newer snapshot. -/
theorem buildPlan_supersedes_snapshot : ∃ plan state id size heads head x,
    superseded.buildPlan ⟨"A", none⟩ ["s"] (edited .text) = .ok plan ∧
      .upload (key "a") state ∈ plan ∧
      superseded.remoteState (key "a") = .ok (.present id size heads) ∧
      superseded.Departs (key "a") id ∧ head ∈ superseded.heads (key "a") ∧
      superseded.commits.get? head = some x ∧ x.change.isText = false := by
  have hplan : superseded.buildPlan ⟨"A", none⟩ ["s"] (edited .text) =
      .ok [.upload (key "a") (.present (blake3 (textBytes "mine")) 4 "u")] := by decide +kernel
  have hremote : superseded.remoteState (key "a") =
      .ok (.present (blake3 (textBytes "new")) 3 (superseded.heads (key "a"))) := by decide +kernel
  have hhead : (superseded.heads (key "a")).any (fun head =>
      (superseded.commits.get? head).any fun x => !x.change.isText) = true := by decide +kernel
  obtain ⟨head, hhead, hx⟩ := List.any_eq_true.mp hhead
  obtain ⟨x, hx, htext⟩ := (Option.any_eq_true _ _).mp hx
  refine ⟨_, _, _, _, _, head, x, hplan, List.mem_cons_self, hremote, ?_, hhead, hx, by simpa using htext⟩
  rintro base version heads hb rfl
  rcases KeyedMap.mem_insert.mp hb with he | ⟨hb, -⟩
  · have hne : blake3 (textBytes "new") ≠ blake3 (textBytes "old") := by decide +kernel
    exact hne (BaselineState.present.inj (StoredBaseline.mk.inj he).2).1
  · exact KeyedMap.not_mem_empty _ hb

end Samples

end Rollforward
