import Rollforward.Types

/-! `core.rs`: the three-way planner. -/

namespace Rollforward

open Std Lib

variable [Crates]

def planResource (key : ResourceKey) (localState : ReplicaState)
    (baseline : Option BaselineState) (remote : RemoteResourceState) : PlanOperation :=
  let conflict kind := .conflict (ConflictRecord.new key kind localState remote)
  match localState, remote, baseline with
  | _, .forked _, _ => conflict .remoteFork
  | .present localId _ _, .present remoteId _ heads, none =>
    if localId = remoteId then .establishBaseline key localState heads
    else conflict .initialDivergence
  | .present localId _ _, .present remoteId _ heads, some (.present base _ _) =>
    if localId = remoteId then .establishBaseline key localState heads
    else if localId = base then .download key remote
    else if remoteId = base then .upload key localState
    else conflict .contentVsContent
  | .present localId _ _, .present remoteId _ heads, some (.deleted _) =>
    if localId = remoteId then .establishBaseline key localState heads
    else conflict .contentVsContent
  | .present .., .missing, _ => .upload key localState
  | .present localId _ _, .deleted heads, some (.present base _ _) =>
    if localId = base then .applyDelete key localState heads else conflict .modifyVsDelete
  | .present .., .deleted _, some (.deleted _) => .upload key localState
  | .present .., .deleted _, none => conflict .modifyVsDelete
  | .missing, .present .., none | .deleted _, .present .., none
  | .missing, .present .., some (.deleted _) | .deleted _, .present .., some (.deleted _) =>
    .download key remote
  | .missing, .present remoteId _ _, some (.present base _ _)
  | .deleted _, .present remoteId _ _, some (.present base _ _) =>
    if remoteId = base then .publishDelete key else conflict .deleteVsModify
  | .missing, .deleted heads, _ | .deleted _, .deleted heads, _ =>
    .establishDeletedBaseline key heads
  | .missing, .missing, _ | .deleted _, .missing, _ => .noop key

def planInventory (locals : List (ResourceKey × ReplicaState))
    (baselines : List (ResourceKey × BaselineState))
    (remotes : List (ResourceKey × RemoteResourceState)) : List PlanOperation :=
  let localMap : Map ResourceKey ReplicaState := ExtTreeMap.ofList locals compare
  let baselineMap : Map ResourceKey BaselineState := ExtTreeMap.ofList baselines compare
  let remoteMap : Map ResourceKey RemoteResourceState := ExtTreeMap.ofList remotes compare
  let keys : Map ResourceKey Unit :=
    ExtTreeMap.unitOfList (localMap.keys ++ baselineMap.keys ++ remoteMap.keys) compare
  keys.keys.map fun key =>
    planResource key (localMap[key]?.getD .missing) baselineMap[key]? (remoteMap[key]?.getD .missing)

end Rollforward
