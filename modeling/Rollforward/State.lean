import Mathlib.Algebra.GroupWithZero.Nat
import Rollforward.Planner
import Rollforward.Text

/-! `runtime.rs`: `RuntimeState` and what is read off its commits. -/

namespace Rollforward

open Std Lib

structure StoredBaseline where
  key : ResourceKey
  state : BaselineState

structure StoredCheckpoint where
  key : ResourceKey
  commitId : String

/-- Keys of the operations of a run that has not completed. -/
structure RunJournal where
  operations : List ResourceKey

section

variable [Yrs]

abbrev CommitMap := KeyedMap String Commit Commit.id

structure RuntimeState where
  counter : Nat := 0
  baselines : KeyedMap String StoredBaseline (fun entry => entry.key.encoded) := ∅
  commits : CommitMap := ∅
  cursors : List CatalogCursor := []
  conflicts : KeyedMap String ConflictRecord ConflictRecord.id := ∅
  kinds : Map String ResourceKind := ∅
  textStates : Map String Yrs.Update := ∅
  activeRun : Option RunJournal := none
  retiredClients : List String := []
  checkpoints : KeyedMap String StoredCheckpoint (fun checkpoint => checkpoint.key.encoded) := ∅
  catalogEventsSinceSnapshot : Map String Nat := ∅

instance : Inhabited RuntimeState := ⟨{}⟩

end

variable [Crates]

/-- The empty list of scopes stands for every scope. -/
def inScopes (scopes : List String) (scope : String) : Bool := scopes.isEmpty || scope ∈ scopes

namespace RuntimeState

def baselinePairs (state : RuntimeState) (scopes : List String) :
    List (ResourceKey × BaselineState) :=
  (state.baselines.values.filter fun entry => inScopes scopes entry.key.scopeId).map fun entry =>
    (entry.key, entry.state)

def resourceCommits (state : RuntimeState) (key : ResourceKey) : List Commit :=
  state.commits.values.filter fun commit => commit.resource = key

def heads (state : RuntimeState) (key : ResourceKey) : List String :=
  let commits := state.resourceCommits key
  let parents := commits.flatMap Commit.parents
  (commits.map Commit.id).filter fun id => id ∉ parents

theorem mem_resourceCommits {state : RuntimeState} {key : ResourceKey} {x : Commit} :
    x ∈ state.resourceCommits key ↔ x ∈ state.commits ∧ x.resource = key := by
  rw [resourceCommits, List.mem_filter, KeyedMap.mem_values, decide_eq_true_eq]

/-- A head is a commit of the resource that no commit of the resource has for a parent. -/
theorem mem_heads {state : RuntimeState} {key : ResourceKey} {id : String} :
    id ∈ state.heads key ↔ (∃ x ∈ state.commits, x.resource = key ∧ x.id = id) ∧
      ∀ y ∈ state.commits, y.resource = key → id ∉ y.parents := by
  simp only [heads, List.mem_filter, List.mem_map, List.mem_flatMap, mem_resourceCommits,
    decide_eq_true_eq, not_exists, not_and, and_assoc]

theorem isSome_of_mem_heads {state : RuntimeState} {key : ResourceKey} {id : String}
    (h : id ∈ state.heads key) : (state.commits.get? id).isSome := by
  obtain ⟨⟨x, hx, -, rfl⟩, -⟩ := mem_heads.mp h
  rw [KeyedMap.mem_def.mp hx]
  rfl

/-- Every turn of an ancestry walk takes one id off the worklist, and each commit
adds its parents once: this many turns always finish it. -/
def walkFuel (state : RuntimeState) : Nat :=
  (state.commits.values.map fun commit => commit.parents.length).sum + 2

def descendantWalk (state : RuntimeState) (ancestor : String) :
    Nat → List String → List String → Bool
  | 0, _, _ | _ + 1, [], _ => false
  | fuel + 1, id :: pending, visited =>
    if id = ancestor then true
    else if id ∈ visited then state.descendantWalk ancestor fuel pending visited
    else
      let parents := ((state.commits.get? id).map Commit.parents).getD []
      state.descendantWalk ancestor fuel (parents.reverse ++ pending) (id :: visited)

def isDescendant (state : RuntimeState) (candidate ancestor : String) : Bool :=
  state.descendantWalk ancestor state.walkFuel [candidate] []

def remoteKeys (state : RuntimeState) (scopes : List String) : List ResourceKey :=
  let keys : Map ResourceKey Unit := ExtTreeMap.unitOfList
    ((state.commits.values.filter fun commit => inScopes scopes commit.resource.scopeId).map
      Commit.resource) compare
  keys.keys

def textDelta? (commit : Commit) : Option Yrs.Update :=
  match commit.change with
  | .textDelta delta => some delta
  | _ => none

/-- The text of every delta of the resource, in id order. -/
def textDoc (state : RuntimeState) (key : ResourceKey) : Except SyncError Yrs.Doc :=
  TextDoc.fromBaselineAndDeltas none ((state.resourceCommits key).filterMap textDelta?)

def reachableWalk (state : RuntimeState) (key : ResourceKey) :
    Nat → List String → List String → List String
  | 0, _, reachable | _ + 1, [], reachable => reachable
  | fuel + 1, id :: pending, reachable =>
    if id ∈ reachable then state.reachableWalk key fuel pending reachable
    else
      let commit := (state.commits.get? id).filter fun commit => commit.resource = key
      let parents := (commit.map Commit.parents).getD []
      state.reachableWalk key fuel (parents.reverse ++ pending) (id :: reachable)

def reachable (state : RuntimeState) (key : ResourceKey) (head : String) : List String :=
  state.reachableWalk key state.walkFuel [head] []

/-- The text of the deltas reachable from `head`, in id order. -/
def textDocAt (state : RuntimeState) (key : ResourceKey) (head : String) :
    Except SyncError Yrs.Doc :=
  TextDoc.fromBaselineAndDeltas none
    (((state.reachable key head).insertionSort (· ≤ ·)).filterMap fun id =>
      (state.commits.get? id).bind textDelta?)

def headChanges (state : RuntimeState) (key : ResourceKey) : List ResourceChange :=
  (state.heads key).filterMap fun id => (state.commits.get? id).map Commit.change

def remoteState (state : RuntimeState) (key : ResourceKey) :
    Except SyncError RemoteResourceState :=
  let heads := state.heads key
  if heads = [] then .ok .missing
  else
    let changes := state.headChanges key
    if changes.all ResourceChange.isDelete then .ok (.deleted heads)
    else if changes.all ResourceChange.isText then do
      let text := TextDoc.content (← state.textDoc key)
      let data := textBytes text
      return .mkPresent (blake3 data) data.length heads
    else
      match changes.filterMap ResourceChange.snapshot? with
      | [] => .ok (.forked heads)
      | first :: rest =>
        if rest.length + 1 = changes.length ∧ ∀ value ∈ rest, value = first then
          .ok (.mkPresent first.1 first.2 heads)
        else .ok (.forked heads)

def remotePairs (state : RuntimeState) (scopes : List String) :
    Except SyncError (List (ResourceKey × RemoteResourceState)) :=
  (state.remoteKeys scopes).mapM fun key => return (key, ← state.remoteState key)

def setPresentBaseline (state : RuntimeState) (key : ResourceKey)
    (contentId localVersion : String) (remoteHeads : List String) : RuntimeState :=
  { state with baselines :=
      state.baselines.insert { key, state := .present contentId localVersion remoteHeads } }

def setDeletedBaseline (state : RuntimeState) (key : ResourceKey)
    (remoteHeads : List String) : RuntimeState :=
  { state with baselines := state.baselines.insert { key, state := .deleted remoteHeads } }

end RuntimeState

end Rollforward
