import Rollforward.Ancestry
import Rollforward.Storage.Stock

/-! What `content_for_remote` returns, as a function of the state and the remote. -/

namespace Rollforward

open Std Lib

variable [Crates]

/-- The bytes of the version `head`. -/
def RuntimeState.versionAt (s : RuntimeState) (remote : Remote) (key : ResourceKey)
    (head : String) : Except SyncError Bytes :=
  match s.commits.get? head with
  | none => .error (.ioError ("missing commit " ++ head))
  | some commit =>
    match commit.change with
    | .delete => .error (.ioError (key.encoded ++ " is deleted"))
    | .textDelta _ => do
      let doc ← s.textDocAt key head
      return textBytes (TextDoc.content doc)
    | .binarySnapshot _ _ chunkHashes => remote.reassemble chunkHashes

/-- The bytes of the selected version, or else of the first head. -/
def RuntimeState.contentAt (s : RuntimeState) (remote : Remote) (key : ResourceKey)
    (selectedHead : Option String) : Except SyncError Bytes :=
  match selectedHead.or (s.heads key).head? with
  | none => .error (.ioError ("remote resource " ++ key.encoded ++ " has no head"))
  | some head => s.versionAt remote key head

/-- How a remote that nobody changes answers the reading of chunks. -/
def Remote.Reads (remote : Remote) (e : SyncEvent) (remote' : Remote) : Prop :=
  remote' = remote ∧
    match e with
    | ⟨_, .lookupChunks hashes, r⟩ => r = .ok (remote.lookupChunks hashes)
    | ⟨_, .readRanges ranges, r⟩ => r = remote.readRanges ranges
    | _ => False

section Exec

variable {remote : Remote} {s : RuntimeState}

theorem fetchChunks_exec (hashes : List String) :
    Prog.Exec Remote.Reads remote (fetchChunks hashes s) remote s (remote.reassemble hashes) := by
  have hlookup : remote.Reads ⟨s, .lookupChunks hashes, .ok (remote.lookupChunks hashes)⟩ remote :=
    ⟨rfl, rfl⟩
  refine .call hlookup ?_
  rw [Remote.reassemble]
  cases hr : chunkRanges (remote.lookupChunks hashes) hashes with
  | error e =>
    simp only [Prog.bind, id, Comp.ofExcept, hr, bind, Except.bind]
    exact .done
  | ok ranges =>
    simp only [Prog.bind, id, Comp.ofExcept, hr, bind, Except.bind]
    have hread : remote.Reads ⟨s, .readRanges ranges, remote.readRanges ranges⟩ remote :=
      ⟨rfl, rfl⟩
    refine .call hread ?_
    cases hd : remote.readRanges ranges with
    | error e => exact .done
    | ok data => exact .done

/-- Run alone, `content_for_remote` returns the bytes of the version. -/
theorem contentForRemote_exec (key : ResourceKey) (selectedHead : Option String) :
    Prog.Exec Remote.Reads remote (contentForRemote key selectedHead s) remote s
      (s.contentAt remote key selectedHead) := by
  unfold contentForRemote RuntimeState.contentAt RuntimeState.versionAt
  simp only [bind, Comp.get, Prog.bind]
  cases selectedHead.or (s.heads key).head? with
  | none => exact .done
  | some head =>
    cases hc : s.commits.get? head with
    | none =>
      simp only [hc]
      exact .done
    | some commit =>
      cases hx : commit.change with
      | delete =>
        simp only [hc, hx]
        exact .done
      | textDelta delta =>
        simp only [hc, hx, Comp.ofExcept, Prog.bind]
        cases s.textDocAt key head with
        | error e => exact .done
        | ok doc => exact .done
      | binarySnapshot contentId size chunkHashes =>
        simp only [hc, hx]
        exact fetchChunks_exec _

end Exec

section Reassemble

variable {remote : Remote} {hashes : List String} {data : Bytes}

theorem readRange_ok {range : PackRange} {part : RangeData}
    (h : remote.readRange range = .ok part) : part.hash = range.hash ∧ blake3 part.data = range.hash := by
  rw [Remote.readRange] at h
  split at h
  · cases h
  · dsimp only at h
    split at h
    · cases h
    · split at h
      · cases h
      · next hhash =>
        obtain rfl := Except.ok.inj h
        exact ⟨rfl, not_not.mp hhash⟩

/-- The bytes kept for each hash: those of the last range under it. -/
def keptRanges (ranges : List RangeData) : Map String Bytes :=
  ExtTreeMap.ofList (ranges.map fun range => (range.hash, range.data)) compare

omit [Crates] in
/-- A content is joined from the bytes kept for each hash of the manifest. -/
theorem joinRanges_eq_ok {ranges : List RangeData} : joinRanges ranges hashes = .ok data ↔
    ∃ parts, List.Forall₂ (fun hash part => (keptRanges ranges)[hash]? = some part) hashes parts ∧
      data = parts.flatten := by
  rw [joinRanges]
  generalize hm : List.mapM (m := Except SyncError) _ hashes = result
  constructor
  · intro h
    cases result with
    | error e => cases h
    | ok parts =>
      refine ⟨parts, (mapM_eq_ok.mp hm).imp fun hash part hp => ?_, (Except.ok.inj h).symm⟩
      rw [keptRanges]
      split at hp
      · next found => rw [found, Except.ok.inj hp]
      · cases hp
  · rintro ⟨parts, hparts, rfl⟩
    obtain rfl : result = .ok parts := by
      refine hm.symm.trans (mapM_eq_ok.mpr (hparts.imp fun hash part hp => ?_))
      rw [keptRanges] at hp
      simp only [hp]
    rfl

/-- A content that was read is made of parts with the digests of the manifest. -/
theorem parts_of_reassemble (h : remote.reassemble hashes = .ok data) :
    (∀ hash ∈ hashes, remote.Listed hash) ∧
      ∃ parts : List Bytes, hashes = parts.map blake3 ∧ data = parts.flatten := by
  rw [Remote.reassemble] at h
  cases hr : chunkRanges (remote.lookupChunks hashes) hashes with
  | error e => simp [hr, bind, Except.bind] at h
  | ok ranges =>
    cases hd : remote.readRanges ranges with
    | error e => simp [hr, hd, bind, Except.bind] at h
    | ok found =>
      simp only [hr, hd, bind, Except.bind] at h
      refine ⟨fun hash hh => ?_, ?_⟩
      · obtain ⟨range, -, location, hl, rfl, -⟩ := exists_right_of_forall₂ (chunkRanges_ok hr) hh
        exact Remote.listed_of_lookupChunks hl
      · obtain ⟨parts, hparts, rfl⟩ := joinRanges_eq_ok.mp h
        refine ⟨parts, List.forall₂_eq_eq_eq ▸ ?_, rfl⟩
        rw [List.forall₂_map_right_iff]
        refine hparts.imp fun hash part hp => ?_
        obtain ⟨range, hmem, he⟩ := List.mem_map.mp (Map.mem_of_get?_ofList hp)
        obtain ⟨rfl, rfl⟩ := Prod.mk.inj he
        obtain ⟨asked, -, hread⟩ := exists_of_mem_mapM hd hmem
        obtain ⟨hhash, hdigest⟩ := readRange_ok hread
        rw [hhash, hdigest]

/-- What could be read stays readable as long as its chunks are listed. -/
theorem Remote.Stocked.reassemble_again (hinj : Function.Injective (blake3 : Bytes → String))
    {remote' : Remote} (hs : remote'.Stocked) (h : remote.reassemble hashes = .ok data)
    (hlisted : ∀ hash ∈ hashes, remote.Listed hash → remote'.Listed hash) :
    remote'.reassemble hashes = .ok data := by
  obtain ⟨hall, parts, rfl, rfl⟩ := parts_of_reassemble h
  refine hs.reassemble hinj fun part hp => ?_
  have hmem := List.mem_map_of_mem (f := blake3) hp
  exact hlisted _ hmem (hall _ hmem)

end Reassemble

end Rollforward
