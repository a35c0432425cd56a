import Rollforward.Sample
import Rollforward.Runtime.Footprint
import Rollforward.Storage.Content

/-! A remote that answers anything.  `content_for_remote` joins what it is sent under the
hashes of a manifest and checks no digest. -/

namespace Rollforward

open Std Lib

section Answers

variable [Crates]

/-- The content and the hashes of its chunks come from the same bytes. -/
def Manifest (contentId : String) (hashes : List String) : Prop :=
  ∃ parts : List Bytes, hashes = parts.map blake3 ∧ contentId = blake3 parts.flatten

/-- What is kept under a hash has that digest. -/
def Intact (ranges : List RangeData) : Prop :=
  ∀ (hash : String) data, (keptRanges ranges)[hash]? = some data → blake3 data = hash

/-- A remote with these answers to the lookup and to the read. -/
def Answered (locations : Except SyncError (List ChunkLocation))
    (ranges : Except SyncError (List RangeData)) (_ : Unit) (e : SyncEvent) (_ : Unit) : Prop :=
  match e with
  | ⟨_, .lookupChunks _, r⟩ => r = locations
  | ⟨_, .readRanges _, r⟩ => r = ranges
  | _ => False

/-- Any remote, as long as the ranges it sends are intact. -/
def Unaltered (_ : Unit) (e : SyncEvent) (_ : Unit) : Prop :=
  match e with
  | ⟨_, .readRanges _, .ok ranges⟩ => Intact ranges
  | _ => True

/-- The commit whose content is asked for. -/
def RuntimeState.Selects (s : RuntimeState) (key : ResourceKey) (selectedHead : Option String)
    (x : Commit) : Prop :=
  (selectedHead.or (s.heads key).head?).bind s.commits.get? = some x

/-- The bytes are those that the commit was made from, if it is a snapshot. -/
def Commit.Vouches (x : Commit) (data : Bytes) : Prop :=
  ∀ contentId size hashes, x.change = .binarySnapshot contentId size hashes →
    Manifest contentId hashes → blake3 data = contentId

def LocalMutation.content? : LocalMutation → Option Bytes
  | .writePresent _ data _ | .createCopy _ data => some data
  | .applyDelete .. => none

/-- Only the content of the selected commit is written. -/
def Writes (s : RuntimeState) (key : ResourceKey) (selectedHead : Option String) : Req → Prop
  | .applyMutations mutations => ∀ mutation ∈ mutations, ∀ data, mutation.content? = some data →
      ∀ x, s.Selects key selectedHead x → x.Vouches data
  | _ => True

variable {s : RuntimeState} {key : ResourceKey} {selectedHead : Option String} {x : Commit}
variable {hashes : List String} {data : Bytes}

/-- What `content_for_remote` makes of two answers. -/
def joinAnswers (locations : Except SyncError (List ChunkLocation))
    (ranges : Except SyncError (List RangeData)) (hashes : List String) : Except SyncError Bytes := do
  let _ ← chunkRanges (← locations) hashes
  joinRanges (← ranges) hashes

theorem contentForRemote_of_snapshot (hsel : s.Selects key selectedHead x) {contentId : String}
    {size : Nat} (hx : x.change = .binarySnapshot contentId size hashes) :
    contentForRemote key selectedHead s = fetchChunks hashes s := by
  obtain ⟨head, hhead, hget⟩ := Option.bind_eq_some_iff.mp hsel
  unfold contentForRemote
  simp only [bind, Comp.get, Prog.bind, hhead, hget, hx]

theorem fetchChunks_answered {locations : Except SyncError (List ChunkLocation)}
    {ranges : Except SyncError (List RangeData)} {s' : RuntimeState} {r : Except SyncError Bytes} :
    Prog.Exec (Answered locations ranges) () (fetchChunks hashes s) () s' r ↔
      s' = s ∧ r = joinAnswers locations ranges hashes := by
  have hdone : ∀ {a : Except SyncError Bytes}, Prog.Exec (Answered locations ranges) ()
      (.done s a) () s' r ↔ s' = s ∧ r = a := by
    intro a
    constructor
    · rintro ⟨⟩
      exact ⟨rfl, rfl⟩
    · rintro ⟨rfl, rfl⟩
      exact .done
  have hcall : ∀ {q : Req} {k : q.Resp → Prog host RuntimeState (Except SyncError Bytes)}
      (answer : q.Resp), (∀ a, Answered locations ranges () ⟨s, q, a⟩ () ↔ a = answer) →
      (Prog.Exec (Answered locations ranges) () (.call s q k) () s' r ↔
        Prog.Exec (Answered locations ranges) () (k answer) () s' r) := by
    intro q k answer hanswer
    constructor
    · rintro (_ | ⟨ht, hrest⟩)
      rwa [(hanswer _).mp ht] at hrest
    · exact fun hrest => .call ((hanswer _).mpr rfl) hrest
  refine (hcall locations fun _ => Iff.rfl).trans ?_
  cases locations with
  | error e => exact hdone
  | ok found =>
    cases hr : chunkRanges found hashes with
    | error e =>
      simp only [Prog.bind, id, hr]
      refine hdone.trans ?_
      simp only [joinAnswers, hr, bind, Except.bind]
    | ok asked =>
      simp only [Prog.bind, id, hr]
      refine (hcall ranges fun _ => Iff.rfl).trans ?_
      cases ranges with
      | error e =>
        refine hdone.trans ?_
        simp only [joinAnswers, hr, bind, Except.bind]
      | ok sent =>
        refine hdone.trans ?_
        simp only [joinAnswers, hr, bind, Except.bind]

/-- Intact parts of a manifest join to the bytes it was made from. -/
theorem join_intact (hinj : Function.Injective (blake3 : Bytes → String)) {sent : List RangeData}
    (hsent : ∀ part : Bytes, blake3 part ∈ hashes → ∀ found,
      (keptRanges sent)[blake3 part]? = some found → blake3 found = blake3 part)
    {contentId : String} (hm : Manifest contentId hashes) (h : joinRanges sent hashes = .ok data) :
    blake3 data = contentId := by
  obtain ⟨parts, rfl, rfl⟩ := hm
  obtain ⟨found, hfound, rfl⟩ := joinRanges_eq_ok.mp h
  rw [List.forall₂_map_left_iff] at hfound
  replace hsent : ∀ part ∈ parts, ∀ found, (keptRanges sent)[blake3 part]? = some found →
      found = part := fun part hp found hf => hinj (hsent part (List.mem_map_of_mem hp) found hf)
  apply congrArg blake3
  clear h
  induction hfound with
  | nil => rfl
  | cons hpart _ ih =>
    obtain ⟨hfirst, hrest⟩ := List.forall_mem_cons.mp hsent
    rw [List.flatten_cons, List.flatten_cons, hfirst _ hpart, ih hrest]

/-- The snapshot of a single chunk. -/
def singleChunk (part : Bytes) : Commit :=
  Commit.create ⟨"", ""⟩ [] "" 0 0 (.binarySnapshot (blake3 part) part.length [blake3 part])

def holding (x : Commit) : RuntimeState := { commits := (∅ : CommitMap).insert x }

theorem holding_selects (x : Commit) : (holding x).Selects x.resource (some x.id) x := by
  refine Option.bind_eq_some_iff.mpr ⟨x.id, rfl, ?_⟩
  rw [holding, KeyedMap.get?_insert, if_pos rfl]

/-- Whatever the remote answers to the lookup and to the read, the content of every snapshot
that was made from bytes is returned right exactly when no located chunk is sent altered. -/
theorem contentForRemote_intact_iff (hinj : Function.Injective (blake3 : Bytes → String))
    (locations : Except SyncError (List ChunkLocation))
    (ranges : Except SyncError (List RangeData)) :
    (∀ (s s' : RuntimeState) key selectedHead x data, s.Selects key selectedHead x →
      Prog.Exec (Answered locations ranges) () (contentForRemote key selectedHead s) () s' (.ok data) →
      x.Vouches data) ↔
    ∀ found sent, locations = .ok found → ranges = .ok sent → ∀ part : Bytes,
      blake3 part ∈ found.map ChunkLocation.hash →
      ∀ data, (keptRanges sent)[blake3 part]? = some data → blake3 data = blake3 part := by
  constructor
  · rintro h found sent rfl rfl part hlocated data hdata
    have hx : (singleChunk part).change =
        .binarySnapshot (blake3 part) part.length [blake3 part] := rfl
    refine h (holding (singleChunk part)) (holding (singleChunk part)) _ _ _ data
      (holding_selects _) ?_ _ _ _ hx ⟨[part], rfl, by simp⟩
    rw [contentForRemote_of_snapshot (holding_selects _) hx]
    refine fetchChunks_answered.mpr ⟨rfl, ?_⟩
    obtain ⟨asked, hasked⟩ : ∃ asked, chunkRanges found [blake3 part] = .ok asked :=
      exists_chunkRanges (by simpa using hlocated)
    have hjoin : joinRanges sent [blake3 part] = .ok data :=
      joinRanges_eq_ok.mpr ⟨[data], .cons hdata .nil, by simp⟩
    simp only [joinAnswers, hasked, hjoin, bind, Except.bind]
  · intro h s s' key selectedHead x data hsel hexec contentId size hashes hx hm
    rw [contentForRemote_of_snapshot hsel hx, fetchChunks_answered] at hexec
    obtain ⟨-, hdata⟩ := hexec
    cases locations with
    | error e => cases hdata
    | ok found =>
      cases hr : chunkRanges found hashes with
      | error e => simp [joinAnswers, hr, bind, Except.bind] at hdata
      | ok asked =>
        cases ranges with
        | error e => simp [joinAnswers, hr, bind, Except.bind] at hdata
        | ok sent =>
          simp only [joinAnswers, hr, bind, Except.bind] at hdata
          refine join_intact hinj (fun part hpart => ?_) hm hdata.symm
          apply h found sent rfl rfl part
          obtain ⟨_, -, location, hl, he, -⟩ :=
            exists_right_of_forall₂ (chunkRanges_ok hr) hpart
          exact he ▸ List.mem_map_of_mem hl

variable {C : Unit → RuntimeState → Req → Prop}

theorem fetchChunks_vouched (hinj : Function.Injective (blake3 : Bytes → String))
    (hC : ∀ s q, IsRead q → C () s q) : Comp.wp Unaltered C (fun _ _ _ => True)
      (fetchChunks hashes) (fun _ _ data => ∀ contentId, Manifest contentId hashes →
        blake3 data = contentId) () s := by
  rw [fetchChunks, Comp.wp_bind, Sync.lookupChunks, Comp.wp_request]
  refine ⟨hC _ _ trivial, fun _ _ _ => ⟨fun locations _ => ?_, fun _ _ => trivial⟩⟩
  rw [Comp.wp_bind, Comp.wp_ofExcept]
  refine ⟨fun asked _ => ?_, fun _ _ => trivial⟩
  rw [Comp.wp_bind, Sync.readRanges, Comp.wp_request]
  refine ⟨hC _ _ trivial, fun r _ ht => ⟨fun sent hr => ?_, fun _ _ => trivial⟩⟩
  obtain rfl : r = .ok sent := hr
  rw [Comp.wp_ofExcept]
  refine ⟨fun data hdata contentId hm => ?_, fun _ _ => trivial⟩
  exact join_intact hinj (fun part _ found hfound => ht _ found hfound) hm hdata

/-- Sent intact ranges, the content of a snapshot is returned right. -/
theorem contentForRemote_vouched (hinj : Function.Injective (blake3 : Bytes → String))
    (hC : ∀ s q, IsRead q → C () s q) : Comp.wp Unaltered C (fun _ _ _ => True)
      (contentForRemote key selectedHead) (fun _ _ data => ∀ x, s.Selects key selectedHead x →
        x.Vouches data) () s := by
  by_cases hsnap : ∃ x contentId size hashes, s.Selects key selectedHead x ∧
      x.change = .binarySnapshot contentId size hashes
  · obtain ⟨x, contentId, size, hashes, hsel, hx⟩ := hsnap
    rw [Comp.wp, contentForRemote_of_snapshot hsel hx]
    refine Comp.wp_imp (fetchChunks_vouched hinj hC) fun _ _ data hdata y hy _ _ _ hc hm => ?_
    obtain rfl := Option.some.inj (hsel.symm.trans hy)
    rw [hx] at hc
    cases hc
    exact hdata _ hm
  · refine Comp.wp_mono ((contentForRemote_reads key selectedHead).wp (J := fun _ _ => True)
      (fun _ _ _ _ _ => trivial) (fun _ t q _ hq => hC t q hq) (fun _ _ _ _ _ _ _ _ => trivial)
      trivial) (fun _ _ _ _ => trivial) ?_
    intro _ _ data _ x hsel contentId size hashes hx
    exact absurd ⟨x, contentId, size, hashes, hsel, hx⟩ hsnap

theorem Comp.Within.writes {y : Sync α} (hy : Comp.Within NoWrite Anyhow y) (t : RuntimeState) :
    Comp.wp Unaltered (fun _ _ => Writes s key selectedHead) (fun _ _ _ => True) y
      (fun _ _ _ => True) () t := by
  refine Comp.wp_mono (Comp.Within.wp (J := fun _ _ => True) hy (fun _ _ _ _ _ => trivial)
    (fun _ _ q _ hq => ?_) (fun _ _ _ _ _ _ _ _ => trivial) trivial)
    (fun _ _ _ _ => trivial) fun _ _ _ _ => trivial
  cases q <;> first | exact trivial | exact hq.elim

/-- A single local write of the content. -/
theorem applyMutation_writes {mutation : LocalMutation} {noResult : String}
    {refused : Option String → String} (hcontent : mutation.content? = some data)
    (hdata : ∀ x, s.Selects key selectedHead x → x.Vouches data) (t : RuntimeState) :
    Comp.wp Unaltered (fun _ _ => Writes s key selectedHead) (fun _ _ _ => True)
      (applyMutation mutation noResult refused) (fun _ _ _ => True) () t := by
  rw [applyMutation, Comp.wp_bind, Sync.applyMutations, Comp.wp_request]
  refine ⟨?_, fun _ _ _ => ⟨fun results _ => ?_, fun _ _ => trivial⟩⟩
  · intro mutation' hmem data' hdata'
    obtain rfl := List.mem_singleton.mp hmem
    obtain rfl := Option.some.inj (hcontent.symm.trans hdata')
    exact hdata
  · cases results with
    | nil => exact trivial
    | cons result _ =>
      rw [Comp.wp_ite]
      exact ⟨fun _ => trivial, fun _ => trivial⟩

variable (hinj : Function.Injective (blake3 : Bytes → String))
include hinj

theorem contentForRemote_writes : Comp.wp Unaltered (fun _ _ => Writes s key selectedHead)
    (fun _ _ _ => True) (contentForRemote key selectedHead) (fun _ _ data =>
      ∀ x, s.Selects key selectedHead x → x.Vouches data) () s := by
  refine contentForRemote_vouched hinj fun _ q hq => ?_
  cases q <;> first | exact trivial | exact hq.elim

theorem download_writes (locals : List LocalResource) (tally : Tally)
    (remote : RemoteResourceState) :
    Comp.wp Unaltered (fun _ _ => Writes s key none) (fun _ _ _ => True)
      (download locals tally key remote) (fun _ _ _ => True) () s := by
  rw [download, Comp.wp_bind]
  -- announcing reads, and does not move the memory
  refine Comp.wp_mono ((announceDownload_reads remote).wp (J := fun _ t => t = s) ?_ ?_ ?_ rfl)
    (fun _ _ _ _ => trivial) ?_
  · rintro _ _ _ rfl rfl
    rfl
  · rintro _ _ q - hq
    cases q <;> first | exact trivial | exact hq.elim
  · exact fun _ _ _ _ _ ht _ _ => ht
  rintro _ _ _ rfl
  rw [Comp.wp_bind]
  refine Comp.wp_imp (contentForRemote_writes hinj) fun _ t data hdata => ?_
  rw [Comp.wp_bind]
  refine Comp.wp_imp (applyMutation_writes rfl hdata t) fun _ t _ _ => ?_
  refine Comp.Within.writes (.bind (noteText_noWrite _ _) fun _ => ?_) t
  exact .bind (.modify fun _ => trivial) fun _ => .pure _

theorem commitContent_writes (rt : SyncRuntime) (head : String) (change : ResourceChange)
    (current : ReplicaState) (parents : List String) (refusal : Refusal) :
    Comp.wp Unaltered (fun _ _ => Writes s key (some head)) (fun _ _ _ => True)
      (commitContent rt key head change current parents refusal) (fun _ _ _ => True) () s := by
  rw [commitContent, Comp.wp_bind]
  refine Comp.wp_imp (contentForRemote_writes hinj) fun _ t data hdata => ?_
  rw [Comp.wp_bind]
  refine Comp.wp_imp (applyMutation_writes rfl hdata t) fun _ t _ _ => ?_
  exact Comp.Within.writes (.bind (publishBytes_noWrite _ _ _ _ _) fun _ => .modify fun _ => trivial) t

theorem preserveCopy_writes (target : ResourceKey) (head : String) :
    Comp.wp Unaltered (fun _ _ => Writes s key (some head)) (fun _ _ _ => True)
      (preserveCopy key ⟨.remote head, target⟩) (fun _ _ _ => True) () s := by
  rw [preserveCopy, Comp.wp_bind]
  refine Comp.wp_imp (contentForRemote_writes hinj) fun _ t data hdata => ?_
  rw [Comp.wp_bind]
  exact Comp.wp_imp (applyMutation_writes rfl hdata t) fun _ _ _ _ => trivial

/-- The content of a snapshot is right, whatever the remote answers, exactly when no located
chunk is sent altered; then only that content is ever written. -/
theorem contentForRemote_intact :
    (∀ locations ranges,
      (∀ (s s' : RuntimeState) key selectedHead x data, s.Selects key selectedHead x →
        Prog.Exec (Answered locations ranges) () (contentForRemote key selectedHead s) () s'
          (.ok data) → x.Vouches data) ↔
      ∀ found sent, locations = .ok found → ranges = .ok sent → ∀ part : Bytes,
        blake3 part ∈ found.map ChunkLocation.hash →
        ∀ data, (keptRanges sent)[blake3 part]? = some data → blake3 data = blake3 part) ∧
    ∀ (s : RuntimeState) key,
      (∀ locals tally remote, Comp.wp Unaltered (fun _ _ => Writes s key none) (fun _ _ _ => True)
        (download locals tally key remote) (fun _ _ _ => True) () s) ∧
      (∀ rt head change current parents refusal, Comp.wp Unaltered
        (fun _ _ => Writes s key (some head)) (fun _ _ _ => True)
        (commitContent rt key head change current parents refusal) (fun _ _ _ => True) () s) ∧
      ∀ head target, Comp.wp Unaltered (fun _ _ => Writes s key (some head)) (fun _ _ _ => True)
        (preserveCopy key ⟨.remote head, target⟩) (fun _ _ _ => True) () s := by
  refine ⟨contentForRemote_intact_iff hinj, fun s key => ⟨?_, ?_, ?_⟩⟩
  · exact download_writes hinj
  · exact commitContent_writes hinj
  · exact fun head target => preserveCopy_writes hinj target head

end Answers

section Samples

open Sample

attribute [local instance] crates

/-- One chunk is sent as it was cut. -/
theorem contentForRemote_intact_sent : ∃ locations ranges,
    locations = .ok [⟨blake3 (textBytes "a"), "p", 0, 1⟩] ∧
    ranges = .ok [⟨blake3 (textBytes "a"), textBytes "a"⟩] ∧
    ∀ (s s' : RuntimeState) key selectedHead x data, s.Selects key selectedHead x →
      Prog.Exec (Answered locations ranges) () (contentForRemote key selectedHead s) () s'
        (.ok data) → x.Vouches data := by
  refine ⟨_, _, rfl, rfl, ((contentForRemote_intact hex_injective).1 _ _).mpr ?_⟩
  rintro found sent ⟨⟩ ⟨⟩ part - data hdata
  obtain ⟨range, hmem, he⟩ := List.mem_map.mp (Map.mem_of_get?_ofList hdata)
  obtain rfl := List.mem_singleton.mp hmem
  obtain ⟨hhash, rfl⟩ := Prod.mk.inj he
  exact hhash

/-- Another byte is sent under the hash of the chunk, and returned as the content. -/
theorem contentForRemote_returns_altered : ∃ (s s' : RuntimeState) (k : ResourceKey) (head : String)
    (x : Commit), s.Selects k (some head) x ∧ x.change = binarySnapshot (textBytes "a") ∧
      Prog.Exec (Answered (.ok [⟨blake3 (textBytes "a"), "p", 0, 1⟩])
        (.ok [⟨blake3 (textBytes "a"), textBytes "b"⟩])) () (contentForRemote k (some head) s) ()
        s' (.ok (textBytes "b")) ∧ ¬ x.Vouches (textBytes "b") := by
  let x := Commit.create (key "f") [] "A" 1 0 (binarySnapshot (textBytes "a"))
  have hchunks : (chunkData (textBytes "a")).map (fun chunk => chunk.1.hash) =
      [blake3 (textBytes "a")] := by decide +kernel
  have hx : x.change = .binarySnapshot (blake3 (textBytes "a")) (textBytes "a").length
      [blake3 (textBytes "a")] := congrArg (ResourceChange.binarySnapshot _ _) hchunks
  refine ⟨holding x, holding x, x.resource, x.id, x, holding_selects x, rfl, ?_, ?_⟩
  · rw [contentForRemote_of_snapshot (holding_selects x) hx]
    exact fetchChunks_answered.mpr ⟨rfl, by decide +kernel⟩
  · intro hvouches
    have := hvouches _ _ _ hx ⟨[textBytes "a"], rfl, by simp⟩
    exact absurd this (by decide +kernel)

end Samples

end Rollforward
