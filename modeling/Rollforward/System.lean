import Rollforward.Runtime.Maintain
import Mathlib.Logic.Function.Basic
import Mathlib.Logic.Relation

/-! Any number of clients around one remote.  A step answers one call of one
client, starts a command, edits a local file, or crashes a client; between two
steps of a client every other client may move. -/

namespace Rollforward

open Std Lib

/-- A version of a local resource.  A deleted resource may keep a token. -/
structure File where
  data : Option Bytes
  versionToken : String
  deriving DecidableEq

abbrev Files := Map ResourceKey File

/-- What stays fixed over a run: the merge policies and the kinds that hosts give
to their resources. -/
structure Setting where
  policy : String → Option TextMergePolicy := fun _ => none
  kindOf : ResourceKey → ResourceKind := fun _ => .binary

inductive Command
  | reconcile (request : SyncRequest)
  | resolve (request : ResolveConflictRequest)
  | rollback (request : RollbackRequest)
  | maintain (request : MaintenanceRequest)
  | retireClient (clientId : String)

/-- How the environment answers a call: as asked, with a failure, or with what only
it can choose (the clock, random ids, the tokens of new file versions, and which
listed files show a content id). -/
inductive Answer
  | serve
  | fail (error : SyncError)
  | millis (now : Int)
  | clientId (id : Nat)
  | shown (withId : ResourceKey → Bool)
  | token (versionToken : String) (tombstone : Bool)
  | refuse (error : Option String)

inductive Label
  | start (client : String) (command : Command)
  | answer (client : String) (answer : Answer)
  | edit (client : String) (key : ResourceKey) (file : Option File)
  | crash (client : String)

variable [Crates]

def Command.run (rt : SyncRuntime) : Command → Sync Unit
  | .reconcile request => do
    let _ ← Rollforward.reconcile rt request
    return ()
  | .resolve request => do
    let _ ← Rollforward.resolve rt request
    return ()
  | .rollback request => do
    let _ ← Rollforward.rollback rt request
    return ()
  | .maintain request => do
    let _ ← Rollforward.maintain rt request
    return ()
  | .retireClient clientId => Rollforward.retireClient clientId

def File.state (file : File) (withId : Bool) : ReplicaState :=
  match file.data with
  | some data => .present (if withId then blake3 data else "") data.length file.versionToken
  | none => .deleted file.versionToken

namespace Setting

def list (S : Setting) (files : Files) (scopes : List String) (withId : ResourceKey → Bool) :
    List LocalResource :=
  (files.toList.filter fun entry => inScopes scopes entry.1.scopeId).map fun (key, file) =>
    { key, kind := S.kindOf key, state := file.state (withId key) }

def read (S : Setting) (files : Files) (keys : List ResourceKey) : List ResourceContent :=
  keys.filterMap fun key => files[key]?.bind fun file => file.data.map fun data =>
    { key, kind := S.kindOf key, versionToken := file.versionToken, data }

end Setting

namespace Files

def admits (files : Files) (key : ResourceKey) : MutationPrecondition → Bool
  | .missing => files[key]? = none
  | .version versionToken => files[key]?.map File.versionToken = some versionToken

/-- The version a mutation makes, if its precondition holds. -/
def mutate (files : Files) (versionToken : String) (tombstone : Bool) (mutation : LocalMutation) :
    Option (Option File) :=
  match mutation with
  | .writePresent key data precondition =>
    if files.admits key precondition then some (some ⟨some data, versionToken⟩) else none
  | .createCopy key data =>
    if files.admits key .missing then some (some ⟨some data, versionToken⟩) else none
  | .applyDelete key precondition =>
    if files.admits key precondition then
      some (if tombstone then some ⟨none, versionToken⟩ else none)
    else none

def set (files : Files) (key : ResourceKey) : Option File → Files
  | some file => files.insert key file
  | none => files.erase key

end Files

def refused (mutation : LocalMutation) (status : ApplyStatus) (error : Option String) :
    LocalApplyResult :=
  { key := mutation.key, status, versionToken := none, error }

structure Client where
  prog : Prog host RuntimeState (Except SyncError Unit) := .done {} (.ok ())
  store : RuntimeState := {}
  files : Files := ∅
  -- the call in progress: what it was started as, from where, and its answered calls
  command : Option Command := none
  before : RuntimeState := {}
  trace : List SyncEvent := []
  -- every version that a local resource ever had
  versions : List (ResourceKey × File) := []
  -- the scopes of the last scan with what was published then, and for each scope what
  -- was published at its last refresh; `savedSeen` belongs to `store`
  asked : List String × List Commit := ([], [])
  seen : String → List Commit := fun _ => []
  savedSeen : String → List Commit := fun _ => []
  -- a batch went out after the last save
  unsaved : Bool := false

instance : Inhabited Client := ⟨{}⟩

/-- A refresh of the asked scopes is complete. -/
def refreshSeen (asked : List String × List Commit) (seen : String → List Commit) :
    String → List Commit :=
  fun scope => if inScopes asked.1 scope then asked.2 else seen scope

namespace Client

def memory (client : Client) : RuntimeState := client.prog.memory

def setFile (client : Client) (key : ResourceKey) (file : Option File) : Client :=
  { client with
    files := client.files.set key file
    versions := (file.map fun file => (key, file)).toList ++ client.versions }

/-- Apply mutations one after the other. -/
def applyMutations (client : Client) (versionToken : String) (tombstone : Bool) :
    List LocalMutation → List LocalApplyResult × Client
  | [] => ([], client)
  | mutation :: mutations =>
    match client.files.mutate versionToken tombstone mutation with
    | none =>
      let (results, client) := client.applyMutations versionToken tombstone mutations
      (refused mutation .preconditionFailed none :: results, client)
    | some file =>
      let client := client.setFile mutation.key file
      let (results, client) := client.applyMutations versionToken tombstone mutations
      ({ key := mutation.key, status := .applied, versionToken := some versionToken,
         error := none } :: results, client)

def start (client : Client) (rt : SyncRuntime) (command : Command) : Client :=
  { client with
    prog := command.run rt client.memory
    command := some command
    before := client.memory
    trace := [] }

/-- Lose the memory and come back with what was saved last. -/
def crash (client : Client) : Client :=
  { client with
    prog := .done client.store (.ok ())
    command := none
    before := client.store
    trace := []
    seen := client.savedSeen }

end Client

structure World where
  remote : Remote := {}
  clients : String → Client := fun _ => {}
  -- every commit that a batch made visible, and every id a compaction gave up
  published : List Commit := []
  obsoleted : List String := []

namespace World

def setClient (w : World) (c : String) (client : Client) : World :=
  { w with clients := Function.update w.clients c client }

def memory (w : World) (c : String) : RuntimeState := (w.clients c).memory

end World

def Req.failure (error : SyncError) : (q : Req) → Option q.Resp
  | .nowMillis | .randomClientId => none
  | .scanCatalog _ | .loadCommits _ | .commitBatch _ | .lookupChunks _ | .readRanges _
  | .writeAcknowledgements _ | .listAcknowledgements _ | .listPackIds | .deletePackObjects _
  | .compactCatalog _ | .listResources _ | .readResources _ | .applyMutations _
  | .saveRuntimeState => some (.error error)

/-- The answer to a call of client `c` with memory `s`, and the world after it. -/
def World.respond (S : Setting) (w : World) (c : String) (s : RuntimeState) :
    (q : Req) → Answer → Option (q.Resp × World)
  | q, .fail error => (q.failure error).map fun r => (r, w)
  | .scanCatalog request, .serve =>
    match w.remote.scanCatalog request with
    | .ok delta => some (.ok delta,
        w.setClient c { w.clients c with asked := (request.scopes, w.published) })
    | .error error => some (.error error, w)
  | .loadCommits ids, .serve =>
    match w.remote.loadCommits ids with
    | .ok commits => some (.ok commits, w.setClient c { w.clients c with
        seen := refreshSeen (w.clients c).asked (w.clients c).seen })
    | .error error => some (.error error, w)
  | .commitBatch batch, .serve => some (.ok (), { w with
      remote := w.remote.commitBatch batch
      published := w.published ++ batch.commits }.setClient c
        { w.clients c with unsaved := true })
  | .lookupChunks hashes, .serve => some (.ok (w.remote.lookupChunks hashes), w)
  | .readRanges ranges, .serve => some (w.remote.readRanges ranges, w)
  | .writeAcknowledgements acks, .serve =>
    some (.ok (), { w with remote := w.remote.writeAcknowledgements acks })
  | .listAcknowledgements keys, .serve => some (.ok (w.remote.listAcknowledgements keys), w)
  | .listPackIds, .serve => some (.ok w.remote.listPackIds, w)
  | .deletePackObjects ids, .serve =>
    some (.ok (), { w with remote := w.remote.deletePackObjects ids })
  | .compactCatalog compaction, .serve => some (.ok (), { w with
      remote := w.remote.compactCatalog compaction
      obsoleted := w.obsoleted ++ compaction.obsoleteCommitIds })
  | .listResources scopes, .shown withId =>
    some (.ok (S.list (w.clients c).files scopes withId), w)
  | .readResources keys, .serve => some (.ok (S.read (w.clients c).files keys), w)
  | .applyMutations mutations, .token versionToken tombstone =>
    let (results, client) := (w.clients c).applyMutations versionToken tombstone mutations
    some (.ok results, w.setClient c client)
  | .applyMutations mutations, .refuse error =>
    some (.ok (mutations.map fun mutation => refused mutation .failed error), w)
  | .saveRuntimeState, .serve =>
    some (.ok (), w.setClient c
      { w.clients c with store := s, savedSeen := (w.clients c).seen, unsaved := false })
  | .nowMillis, .millis now => some (now, w)
  | .randomClientId, .clientId id => some (id, w)
  | _, _ => none

def World.answer (S : Setting) (w : World) (c : String) (a : Answer) : Option World :=
  match (w.clients c).prog with
  | .done _ _ => none
  | .call s q k => (w.respond S c s q a).map fun (r, w) =>
    w.setClient c { w.clients c with prog := k r, trace := ⟨s, q, r⟩ :: (w.clients c).trace }

def World.step (S : Setting) (w : World) : Label → Option World
  | .start c command =>
    match (w.clients c).prog with
    | .done _ _ =>
      some (w.setClient c ((w.clients c).start ⟨c, S.policy c⟩ command))
    | .call .. => none
  | .answer c a => w.answer S c a
  | .edit c key file => some (w.setClient c ((w.clients c).setFile key file))
  | .crash c => some (w.setClient c (w.clients c).crash)

/-- One step of a run whose steps all satisfy `ok`. -/
def World.Next (S : Setting) (ok : World → Label → Prop) (w w' : World) : Prop :=
  ∃ l, ok w l ∧ w.step S l = some w'

def World.Reachable (S : Setting) (ok : World → Label → Prop) (w : World) : Prop :=
  Relation.ReflTransGen (World.Next S ok) {} w

end Rollforward
