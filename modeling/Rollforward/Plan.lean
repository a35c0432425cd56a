import Rollforward.Heads
import Rollforward.Lib.Fallible
import Rollforward.Runtime.Reconcile

/-! What a plan says about the resources it is made for. -/

namespace Rollforward

open Std Lib

variable [Crates]

section Resource

variable {key : ResourceKey} {l : ReplicaState} {b : Option BaselineState}
variable {r : RemoteResourceState}

@[simp] theorem planResource_key : (planResource key l b r).key = key := by
  unfold planResource
  split <;> (try split) <;> (try split) <;> (try split) <;> rfl

/-- What an upload is planned for. -/
inductive Uploads : ReplicaState → Option BaselineState → RemoteResourceState → Prop
  | first {id size token b} : Uploads (.present id size token) b .missing
  | edited {id size token base version heads rsize rheads} :
      Uploads (.present id size token) (some (.present base version heads))
        (.present base rsize rheads)
  | revived {id size token heads rheads} :
      Uploads (.present id size token) (some (.deleted heads)) (.deleted rheads)

theorem uploads_of_planResource {key' : ResourceKey} {l' : ReplicaState}
    (h : planResource key l b r = .upload key' l') : l' = l ∧ Uploads l b r := by
  unfold planResource at h
  split at h <;> (try split at h) <;> (try split at h) <;> (try split at h) <;> cases h <;>
    (try subst_vars) <;> exact ⟨rfl, by constructor⟩

theorem absent_of_planResource {key' : ResourceKey}
    (h : planResource key l b r = .publishDelete key') :
    l.isAbsent = true ∧ ∃ base version heads size rheads,
      b = some (.present base version heads) ∧ r = .present base size rheads := by
  unfold planResource at h
  split at h <;> (try split at h) <;> (try split at h) <;> (try split at h) <;> cases h <;>
    (try subst_vars) <;> exact ⟨rfl, _, _, _, _, _, rfl, rfl⟩

theorem downloads_of_planResource {key' : ResourceKey} {r' : RemoteResourceState}
    (h : planResource key l b r = .download key' r') :
    r' = r ∧ (∃ id size heads, r = .present id size heads) ∧ (l.isAbsent = true ∨
      ∃ base size token version heads,
        l = .present base size token ∧ b = some (.present base version heads)) := by
  unfold planResource at h
  split at h <;> (try split at h) <;> (try split at h) <;> (try split at h) <;> cases h <;>
    (try subst_vars) <;> refine ⟨rfl, ⟨_, _, _, rfl⟩, ?_⟩
  · exact Or.inr ⟨_, _, _, _, _, rfl, rfl⟩
  all_goals exact Or.inl rfl

theorem applyDelete_of_planResource {key' : ResourceKey} {l' : ReplicaState}
    {remoteHeads : List String} (h : planResource key l b r = .applyDelete key' l' remoteHeads) :
    l' = l ∧ r = .deleted remoteHeads ∧ ∃ base size token version heads,
      l = .present base size token ∧ b = some (.present base version heads) := by
  unfold planResource at h
  split at h <;> (try split at h) <;> (try split at h) <;> (try split at h) <;> cases h
  subst_vars
  exact ⟨rfl, rfl, _, _, _, _, _, rfl, rfl⟩

theorem establishes_of_planResource {key' : ResourceKey} {l' : ReplicaState}
    {remoteHeads : List String}
    (h : planResource key l b r = .establishBaseline key' l' remoteHeads) :
    l' = l ∧ ∃ id size token rsize, l = .present id size token ∧
      r = .present id rsize remoteHeads := by
  unfold planResource at h
  split at h <;> (try split at h) <;> (try split at h) <;> (try split at h) <;> cases h <;>
    subst_vars <;> exact ⟨rfl, _, _, _, _, rfl, rfl⟩

end Resource

section Inventory

variable {s : RuntimeState} {scopes : List String} {locals : List LocalResource}

omit [Crates] in
@[simp] theorem mergeTextConflict_key (locals : List LocalResource) (operation : PlanOperation) :
    (mergeTextConflict locals operation).key = operation.key := by
  cases operation with
  | conflict record =>
    simp only [mergeTextConflict]
    split
    · split
      · next resource hfind => exact of_decide_eq_true (List.find?_some hfind :)
      · rfl
    · rfl
  | _ => rfl

/-- What the planner is shown of a resource. -/
structure Considers (s : RuntimeState) (locals : List LocalResource) (key : ResourceKey)
    (l : ReplicaState) (b : Option BaselineState) (r : RemoteResourceState) : Prop where
  locals : l = localStateOf locals key
  baseline : ∀ state, b = some state → ⟨key, state⟩ ∈ s.baselines
  remote : s.remoteState key = .ok r

/-- The operation is what the planner says of its resource, with a content conflict on text
turned into an upload. -/
def Planned (s : RuntimeState) (locals : List LocalResource) (operation : PlanOperation) : Prop :=
  ∃ l b r, Considers s locals operation.key l b r ∧
    operation = mergeTextConflict locals (planResource operation.key l b r)

theorem mem_remoteKeys {key : ResourceKey} : key ∈ s.remoteKeys scopes ↔
    inScopes scopes key.scopeId = true ∧ ∃ x ∈ s.commits, x.resource = key := by
  simp only [RuntimeState.remoteKeys, Map.mem_keys_unitOfList, List.mem_map, List.mem_filter,
    KeyedMap.mem_values]
  constructor
  · rintro ⟨x, ⟨hx, hs⟩, rfl⟩
    exact ⟨hs, x, hx, rfl⟩
  · rintro ⟨hs, x, hx, rfl⟩
    exact ⟨x, ⟨hx, hs⟩, rfl⟩

theorem remoteState_of_no_commits {key : ResourceKey}
    (h : ¬ ∃ x ∈ s.commits, x.resource = key) : s.remoteState key = .ok .missing := by
  have hnil : s.heads key = [] := by
    rw [List.eq_nil_iff_forall_not_mem]
    intro id hid
    obtain ⟨⟨x, hx, hr, -⟩, -⟩ := RuntimeState.mem_heads.mp hid
    exact h ⟨x, hx, hr⟩
  rw [RuntimeState.remoteState, hnil]
  rfl

theorem mem_baselinePairs {key : ResourceKey} {state : BaselineState} :
    (key, state) ∈ s.baselinePairs scopes ↔
      ⟨key, state⟩ ∈ s.baselines ∧ inScopes scopes key.scopeId = true := by
  simp only [RuntimeState.baselinePairs, List.mem_map, List.mem_filter, KeyedMap.mem_values,
    Prod.mk.injEq]
  constructor
  · rintro ⟨entry, ⟨he, hs⟩, rfl, rfl⟩
    exact ⟨he, hs⟩
  · rintro ⟨he, hs⟩
    exact ⟨_, ⟨he, hs⟩, rfl, rfl⟩

theorem get?_baselinePairs {key : ResourceKey} {state : BaselineState} :
    (ExtTreeMap.ofList (s.baselinePairs scopes) compare : Map ResourceKey BaselineState)[key]? =
      some state ↔ ⟨key, state⟩ ∈ s.baselines ∧ inScopes scopes key.scopeId = true := by
  rw [Map.get?_ofList_eq_some, mem_baselinePairs]
  rw [RuntimeState.baselinePairs, List.map_map]
  refine List.Pairwise.map _ (fun a b hne e => ?_) (s.baselines.values_sorted.filter _)
  rw [show a.key = b.key from e, compare_self] at hne
  cases hne

theorem get?_remotePairs {pairs : List (ResourceKey × RemoteResourceState)}
    (h : s.remotePairs scopes = .ok pairs) {key : ResourceKey}
    (hscope : inScopes scopes key.scopeId = true) :
    s.remoteState key =
      .ok (((ExtTreeMap.ofList pairs compare : Map ResourceKey RemoteResourceState)[key]?).getD
        .missing) := by
  have hpair : ∀ k r, (k, r) ∈ pairs → s.remoteState k = .ok r := by
    intro k r hm
    obtain ⟨k', -, hk⟩ := exists_of_mem_mapM h hm
    cases hr : s.remoteState k' with
    | error e => simp [hr, bind, Except.bind] at hk
    | ok r' =>
      simp only [hr, bind, Except.bind, pure, Except.pure, Except.ok.injEq, Prod.mk.injEq] at hk
      rw [← hk.1, ← hk.2, hr]
  cases hget : (ExtTreeMap.ofList pairs compare : Map ResourceKey RemoteResourceState)[key]? with
  | some r => exact hpair key r (Map.mem_of_get?_ofList hget)
  | none =>
    refine remoteState_of_no_commits fun hx => ?_
    obtain ⟨⟨k, r⟩, hm, hk⟩ := mapM_mem h (mem_remoteKeys.mpr ⟨hscope, hx⟩)
    cases hr : s.remoteState key with
    | error e => simp [hr, bind, Except.bind] at hk
    | ok r' =>
      simp only [hr, bind, Except.bind, pure, Except.pure, Except.ok.injEq, Prod.mk.injEq] at hk
      refine Map.get?_ofList_eq_none.mp hget (List.mem_map.mpr ⟨_, hm, ?_⟩)
      exact hk.1.symm

theorem remotePairs_scoped {pairs : List (ResourceKey × RemoteResourceState)}
    (h : s.remotePairs scopes = .ok pairs) {key : ResourceKey} (hkey : key ∈ pairs.map Prod.fst) :
    inScopes scopes key.scopeId = true := by
  obtain ⟨⟨k, r⟩, hm, rfl⟩ := List.mem_map.mp hkey
  obtain ⟨k', hk', hk⟩ := exists_of_mem_mapM h hm
  cases hr : s.remoteState k' with
  | error e => simp [hr, bind, Except.bind] at hk
  | ok r' =>
    simp only [hr, bind, Except.bind, pure, Except.pure, Except.ok.injEq, Prod.mk.injEq] at hk
    exact hk.1 ▸ (mem_remoteKeys.mp hk').1

/-- Up to its order a plan is what the planner says, with text conflicts merged. -/
theorem buildPlan_perm {rt : SyncRuntime} {plan : List PlanOperation}
    (h : s.buildPlan rt scopes locals = .ok plan) : ∃ pairs, s.remotePairs scopes = .ok pairs ∧
      plan.Perm ((planInventory (locals.map fun resource => (resource.key, resource.state))
        (s.baselinePairs scopes) pairs).map (mergeTextConflict locals)) := by
  rw [RuntimeState.buildPlan] at h
  cases hpairs : s.remotePairs scopes with
  | error e => simp [hpairs, bind, Except.bind] at h
  | ok pairs =>
    simp only [hpairs, bind, Except.bind] at h
    refine ⟨pairs, rfl, ?_⟩
    split at h
    · obtain rfl := Except.ok.inj h
      exact List.perm_insertionSort _ _
    · obtain rfl := Except.ok.inj h
      exact List.Perm.rfl

theorem mem_buildPlan_scoped {rt : SyncRuntime} {plan : List PlanOperation}
    (h : s.buildPlan rt scopes locals = .ok plan)
    (hlocals : ∀ resource ∈ locals, inScopes scopes resource.key.scopeId = true)
    {operation : PlanOperation} (hop : operation ∈ plan) :
    inScopes scopes operation.key.scopeId = true ∧ Planned s locals operation := by
  obtain ⟨pairs, hpairs, hperm⟩ := buildPlan_perm h
  obtain ⟨op, hplanned, rfl⟩ := List.mem_map.mp (hperm.mem_iff.mp hop)
  obtain ⟨key, hkey, rfl⟩ := List.mem_map.mp hplanned
  rw [Planned, mergeTextConflict_key, planResource_key]
  have hscope : inScopes scopes key.scopeId = true := by
    rcases List.mem_append.mp ((Map.mem_keys_unitOfList _ _).mp hkey) with hkey | hkey
    · rcases List.mem_append.mp hkey with hkey | hkey
      · rw [Map.mem_keys_ofList, List.map_map] at hkey
        obtain ⟨resource, hr, rfl⟩ := List.mem_map.mp hkey
        exact hlocals resource hr
      · obtain ⟨⟨k, state⟩, hb, rfl⟩ := List.mem_map.mp (Map.mem_keys_ofList.mp hkey)
        exact (mem_baselinePairs.mp hb).2
    · exact remotePairs_scoped hpairs (Map.mem_keys_ofList.mp hkey)
  refine ⟨hscope, _, _, _, ⟨?_, ?_, get?_remotePairs hpairs hscope⟩, rfl⟩
  · rw [localStateOf, localMap, Map.get?_ofList_map locals LocalResource.key LocalResource.state]
  · intro state hb
    exact (mem_baselinePairs.mp (Map.mem_of_get?_ofList hb)).1

theorem mem_buildPlan {rt : SyncRuntime} {plan : List PlanOperation}
    (h : s.buildPlan rt scopes locals = .ok plan)
    (hlocals : ∀ resource ∈ locals, inScopes scopes resource.key.scopeId = true)
    {operation : PlanOperation} (hop : operation ∈ plan) : Planned s locals operation :=
  (mem_buildPlan_scoped h hlocals hop).2

/-- A plan has one operation for each resource. -/
theorem buildPlan_nodup {rt : SyncRuntime} {plan : List PlanOperation}
    (h : s.buildPlan rt scopes locals = .ok plan) : (plan.map PlanOperation.key).Nodup := by
  obtain ⟨pairs, -, hperm⟩ := buildPlan_perm h
  rw [(hperm.map PlanOperation.key).nodup_iff]
  simp only [planInventory, List.map_map, Function.comp_def, mergeTextConflict_key,
    planResource_key, List.map_id']
  refine (ExtTreeMap.distinct_keys ..).imp fun hne e => hne ?_
  rw [e, compare_self]

end Inventory

end Rollforward
