import Rollforward.Runtime.Host
import Rollforward.Runtime.Catalog
import Rollforward.Lib.Fallible
import Rollforward.Storage.Packs

/-! The stock of packs and indexes that a remote holds: what an index lists can be read
back. -/

namespace Rollforward

open Std Lib

variable [Crates]

def PackedChunk.location (entry : PackedChunk) (packId : String) : ChunkLocation :=
  ⟨entry.hash, packId, entry.offset, entry.length⟩

section Lookup

variable {wanted : List String} {found : Map String ChunkLocation}

/-- What one index adds to a lookup. -/
structure Adds (wanted : List String) (packId : String) (entries : List PackedChunk)
    (found found' : Map String ChunkLocation) : Prop where
  keeps : ∀ (hash : String) location, found[hash]? = some location → found'[hash]? = some location
  sound : ∀ (hash : String) location, found'[hash]? = some location → found[hash]? = some location ∨
    ∃ entry ∈ entries, entry.hash = hash ∧ location = entry.location packId
  complete : ∀ entry ∈ entries, entry.hash ∈ wanted → found'[entry.hash]?.isSome

omit [Crates] in
theorem Adds.step {packId : String} {entry : PackedChunk} {entries : List PackedChunk}
    {found₁ found₂ : Map String ChunkLocation} (h₁ : Adds wanted packId [entry] found found₁)
    (h₂ : Adds wanted packId entries found₁ found₂) :
    Adds wanted packId (entry :: entries) found found₂ where
  keeps hash location h := h₂.keeps _ _ (h₁.keeps _ _ h)
  sound hash location h := by
    rcases h₂.sound hash location h with h | ⟨e, he, hl⟩
    · rcases h₁.sound hash location h with h | ⟨e, he, hl⟩
      · exact Or.inl h
      · exact Or.inr ⟨e, List.mem_cons.mpr (Or.inl (List.mem_singleton.mp he)), hl⟩
    · exact Or.inr ⟨e, List.mem_cons_of_mem _ he, hl⟩
  complete e he hw := by
    rcases List.mem_cons.mp he with rfl | he
    · obtain ⟨location, hl⟩ := Option.isSome_iff_exists.mp
        (h₁.complete e List.mem_cons_self hw)
      rw [h₂.keeps _ _ hl]
      rfl
    · exact h₂.complete e he hw

omit [Crates] in
theorem findChunk_adds (packId : String) (entry : PackedChunk) :
    Adds wanted packId [entry] found (if entry.hash ∈ wanted then
      found.insertIfNew entry.hash (entry.location packId) else found) := by
  split
  · refine ⟨fun hash location h => ?_, fun hash location h => ?_, fun e he _ => ?_⟩
    · rw [Map.get?_insertIfNew]
      split
      · rw [h]
        rfl
      · exact h
    · rw [Map.get?_insertIfNew] at h
      split at h
      · next e =>
        cases hf : found[hash]? with
        | some old =>
          rw [hf] at h
          exact Or.inl h
        | none =>
          rw [hf] at h
          exact Or.inr ⟨entry, List.mem_cons_self, e, (Option.some.inj h).symm⟩
      · exact Or.inl h
    · rw [List.mem_singleton.mp he, Map.get?_insertIfNew, if_pos rfl]
      rfl
  · next hw =>
    refine ⟨fun _ _ h => h, fun _ _ h => Or.inl h, fun e he hin => ?_⟩
    rw [List.mem_singleton.mp he] at hin
    exact absurd hin hw

omit [Crates] in
theorem findChunks_adds (index : PackIndex) :
    Adds wanted index.packId index.chunks found (Remote.findChunks wanted found index) := by
  rw [Remote.findChunks]
  generalize index.chunks = entries
  induction entries generalizing found with
  | nil => exact ⟨fun _ _ h => h, fun _ _ h => Or.inl h, by simp⟩
  | cons entry entries ih => exact (findChunk_adds index.packId entry).step ih

/-- The result of a lookup over a listing. -/
structure Finds (wanted : List String) (listing : List PackIndex)
    (found : Map String ChunkLocation) : Prop where
  sound : ∀ (hash : String) location, found[hash]? = some location → ∃ index ∈ listing,
    ∃ entry ∈ index.chunks, entry.hash = hash ∧ location = entry.location index.packId
  complete : ∀ hash ∈ wanted, ∀ index ∈ listing, index.Lists hash → found[hash]?.isSome

omit [Crates] in
theorem Finds.add {listing : List PackIndex} (h : Finds wanted listing found) (index : PackIndex) :
    Finds wanted (listing ++ [index]) (Remote.findChunks wanted found index) := by
  have ha : Adds wanted index.packId index.chunks found (Remote.findChunks wanted found index) :=
    findChunks_adds index
  refine ⟨fun hash location hl => ?_, fun hash hw index' hi hlist => ?_⟩
  · rcases ha.sound hash location hl with hl | ⟨entry, he, hl⟩
    · obtain ⟨index', hi, hrest⟩ := h.sound hash location hl
      exact ⟨index', List.mem_append_left _ hi, hrest⟩
    · exact ⟨index, List.mem_append_right _ List.mem_cons_self, entry, he, hl⟩
  · rcases List.mem_append.mp hi with hi | hi
    · obtain ⟨location, hl⟩ := Option.isSome_iff_exists.mp (h.complete hash hw index' hi hlist)
      rw [ha.keeps _ _ hl]
      rfl
    · rw [List.mem_singleton.mp hi] at hlist
      obtain ⟨entry, he, rfl⟩ := List.mem_map.mp hlist
      exact ha.complete entry he hw

omit [Crates] in
theorem lookupIn_finds (wanted : List String) (listing : List PackIndex) :
    Finds wanted listing (listing.foldl (Remote.findChunks wanted) ∅) := by
  have hfold : ∀ (rest : List PackIndex) {done : List PackIndex} {found : Map String ChunkLocation},
      Finds wanted done found →
      Finds wanted (done ++ rest) (rest.foldl (Remote.findChunks wanted) found) := by
    intro rest
    induction rest with
    | nil =>
      intro done found h
      simpa using h
    | cons index rest ih =>
      intro done found h
      rw [List.foldl_cons, List.append_cons]
      exact ih (h.add index)
  have hstart : Finds wanted [] (∅ : Map String ChunkLocation) := ⟨by simp, by simp⟩
  have h := hfold listing hstart
  rwa [List.nil_append] at h

omit [Crates] in
theorem mem_lookupIn {listing : List PackIndex} {location : ChunkLocation}
    (h : location ∈ Remote.lookupIn listing wanted) : ∃ index ∈ listing,
      ∃ entry ∈ index.chunks, location = entry.location index.packId := by
  obtain ⟨⟨hash, found⟩, hm, rfl⟩ := List.mem_map.mp h
  obtain ⟨index, hi, entry, he, -, hl⟩ :=
    (lookupIn_finds wanted listing).sound _ _ (ExtTreeMap.mem_toList_iff_getElem?_eq_some.mp hm)
  exact ⟨index, hi, entry, he, hl⟩

omit [Crates] in
/-- A wanted hash is found when some index lists it. -/
theorem exists_mem_lookupIn {listing : List PackIndex} {hash : String} (hw : hash ∈ wanted) :
    hash ∈ (Remote.lookupIn listing wanted).map ChunkLocation.hash ↔
      ∃ index ∈ listing, index.Lists hash := by
  have hf := lookupIn_finds wanted listing
  constructor
  · intro h
    obtain ⟨location, hl, rfl⟩ := List.mem_map.mp h
    obtain ⟨index, hi, entry, he, rfl⟩ := mem_lookupIn hl
    exact ⟨index, hi, List.mem_map_of_mem he⟩
  · rintro ⟨index, hi, hl⟩
    obtain ⟨location, hloc⟩ := Option.isSome_iff_exists.mp (hf.complete hash hw index hi hl)
    obtain ⟨_, -, entry, -, rfl, rfl⟩ := hf.sound _ _ hloc
    have hin := ExtTreeMap.mem_toList_iff_getElem?_eq_some.mpr hloc
    exact List.mem_map.mpr ⟨_, List.mem_map_of_mem hin, rfl⟩

end Lookup

namespace Remote

/-- Some index of the remote lists the chunk. -/
def Listed (remote : Remote) (hash : String) : Prop :=
  ∃ (id : String) (index : PackIndex), remote.indexes[id]? = some index ∧ index.Lists hash

/-- Packs are named by their bytes, and every index belongs to a pack that is there. -/
structure Stocked (remote : Remote) : Prop where
  packs : ∀ (id : String) data, remote.packs[id]? = some data → id = blake3 data
  indexes : ∀ (id : String) index, remote.indexes[id]? = some index →
    ∃ data, remote.packs[id]? = some data ∧ Sealed id data index

/-- The content of a manifest, as `content_for_remote` puts it together. -/
def reassemble (remote : Remote) (hashes : List String) : Except SyncError Bytes := do
  let ranges ← chunkRanges (remote.lookupChunks hashes) hashes
  joinRanges (← remote.readRanges ranges) hashes

variable {remote : Remote}

theorem mem_listing {index : PackIndex} : index ∈ remote.indexes.toList.map Prod.snd ↔
    ∃ id : String, remote.indexes[id]? = some index := by
  constructor
  · intro h
    obtain ⟨⟨id, index⟩, hm, rfl⟩ := List.mem_map.mp h
    exact ⟨id, ExtTreeMap.mem_toList_iff_getElem?_eq_some.mp hm⟩
  · rintro ⟨id, hi⟩
    exact List.mem_map.mpr ⟨(id, index), ExtTreeMap.mem_toList_iff_getElem?_eq_some.mpr hi, rfl⟩

/-- A lookup finds the wanted hashes that are listed. -/
theorem mem_lookupChunks {hashes : List String} {hash : String} (hw : hash ∈ hashes) :
    hash ∈ (remote.lookupChunks hashes).map ChunkLocation.hash ↔ remote.Listed hash := by
  rw [lookupChunks, exists_mem_lookupIn hw]
  constructor
  · rintro ⟨index, hi, hl⟩
    obtain ⟨id, hi⟩ := mem_listing.mp hi
    exact ⟨id, index, hi, hl⟩
  · rintro ⟨id, index, hi, hl⟩
    exact ⟨index, mem_listing.mpr ⟨id, hi⟩, hl⟩

theorem listed_of_lookupChunks {hashes : List String} {location : ChunkLocation}
    (h : location ∈ remote.lookupChunks hashes) : remote.Listed location.hash := by
  obtain ⟨index, hi, entry, he, rfl⟩ := mem_lookupIn h
  obtain ⟨id, hi⟩ := mem_listing.mp hi
  exact ⟨id, index, hi, List.mem_map_of_mem he⟩

/-- What a lookup points at can be read, and has the digest. -/
theorem Stocked.readRange (h : remote.Stocked) {hashes : List String} {location : ChunkLocation}
    (hl : location ∈ remote.lookupChunks hashes) : ∃ data, blake3 data = location.hash ∧
      remote.readRange ⟨location.hash, location.packId, location.offset, location.length⟩ =
        .ok ⟨location.hash, data⟩ := by
  obtain ⟨index, hi, entry, he, rfl⟩ := mem_lookupIn hl
  obtain ⟨id, hi⟩ := mem_listing.mp hi
  obtain ⟨data, hd, hs⟩ := h.indexes id index hi
  obtain ⟨hbound, hhash⟩ := hs.cuts entry he
  refine ⟨(data.drop entry.offset).take entry.length, hhash, ?_⟩
  have hlength : ((data.drop entry.offset).take entry.length).length = entry.length := by
    rw [List.length_take, List.length_drop]
    omega
  simp only [Remote.readRange, PackedChunk.location, hs.packId, hd]
  rw [if_neg (by omega), if_neg (by rw [hhash]; exact fun hne => hne rfl)]

end Remote

section Reassemble

variable {remote : Remote} {hashes : List String}

omit [Crates] in
theorem chunkRanges_ok {locations : List ChunkLocation} {ranges : List PackRange}
    (h : chunkRanges locations hashes = .ok ranges) :
    List.Forall₂ (fun hash range => ∃ location ∈ locations, location.hash = hash ∧
      range = ⟨hash, location.packId, location.offset, location.length⟩) hashes ranges := by
  refine List.Forall₂.imp (fun hash range hr => ?_) (mapM_eq_ok.mp h)
  split at hr
  · next location hl =>
    obtain ⟨location', hm, he⟩ := List.mem_map.mp (Map.mem_of_get?_ofList hl)
    obtain ⟨rfl, rfl⟩ := Prod.mk.inj he
    exact ⟨location', hm, rfl, (Except.ok.inj hr).symm⟩
  · cases hr

omit [Crates] in
theorem exists_chunkRanges {locations : List ChunkLocation}
    (h : ∀ hash ∈ hashes, hash ∈ locations.map ChunkLocation.hash) :
    ∃ ranges, chunkRanges locations hashes = .ok ranges := by
  refine exists_mapM fun hash hmem => ?_
  split
  · exact ⟨_, rfl⟩
  · next hnone =>
    refine absurd (h hash hmem) fun hin => Map.get?_ofList_eq_none.mp hnone ?_
    rwa [List.map_map]

/-- Parts that were read by their digest join to what was cut. -/
theorem joinRanges_ok (hinj : Function.Injective (blake3 : Bytes → String)) {parts : List Bytes}
    {ranges : List RangeData} (hranges : ∀ range ∈ ranges, blake3 range.data = range.hash)
    (hall : ∀ part ∈ parts, blake3 part ∈ ranges.map RangeData.hash) :
    joinRanges ranges (parts.map blake3) = .ok parts.flatten := by
  rw [joinRanges, List.mapM_map, mapM_of_forall_ok (g := id)]
  · rw [List.map_id]
    rfl
  · intro part hp
    rw [Function.comp_apply]
    split
    · next data hd =>
      obtain ⟨range, hr, he⟩ := List.mem_map.mp (Map.mem_of_get?_ofList hd)
      obtain ⟨hhash, rfl⟩ := Prod.mk.inj he
      rw [hinj ((hranges range hr).trans hhash)]
      rfl
    · next hnone =>
      refine absurd (hall part hp) fun hin => Map.get?_ofList_eq_none.mp hnone ?_
      rwa [List.map_map]

/-- A manifest whose chunks are listed gives the bytes that were cut. -/
theorem Remote.Stocked.reassemble (h : remote.Stocked)
    (hinj : Function.Injective (blake3 : Bytes → String)) {parts : List Bytes}
    (hlisted : ∀ part ∈ parts, remote.Listed (blake3 part)) :
    remote.reassemble (parts.map blake3) = .ok parts.flatten := by
  obtain ⟨ranges, hranges⟩ : ∃ ranges,
      chunkRanges (remote.lookupChunks (parts.map blake3)) (parts.map blake3) = .ok ranges := by
    refine exists_chunkRanges fun hash hmem => ?_
    obtain ⟨part, hp, rfl⟩ := List.mem_map.mp hmem
    exact (Remote.mem_lookupChunks hmem).mpr (hlisted part hp)
  have hspec := chunkRanges_ok hranges
  have hread : ∀ range ∈ ranges, ∃ data, blake3 data = range.hash ∧
      remote.readRange range = .ok ⟨range.hash, data⟩ := by
    intro range hr
    obtain ⟨hash, -, location, hl, rfl, rfl⟩ := exists_left_of_forall₂ hspec hr
    exact h.readRange hl
  obtain ⟨data, hdata⟩ : ∃ data, ranges.mapM remote.readRange = .ok data := by
    refine exists_mapM fun range hr => ?_
    obtain ⟨d, -, hd⟩ := hread range hr
    exact ⟨_, hd⟩
  rw [Remote.reassemble, hranges]
  change (remote.readRanges ranges >>= fun data => joinRanges data _) = _
  rw [Remote.readRanges, hdata]
  refine joinRanges_ok hinj (fun range hr => ?_) fun part hp => ?_
  · obtain ⟨asked, ha, hok⟩ := exists_of_mem_mapM hdata hr
    obtain ⟨d, hd, hok'⟩ := hread asked ha
    rw [hok'] at hok
    obtain rfl := Except.ok.inj hok
    exact hd
  · obtain ⟨range, hr, location, -, -, rfl⟩ :=
      exists_right_of_forall₂ hspec (List.mem_map_of_mem hp)
    obtain ⟨back, hb, hok⟩ := mapM_mem hdata hr
    obtain ⟨d, -, hok'⟩ := hread _ hr
    rw [hok'] at hok
    obtain rfl := Except.ok.inj hok
    exact List.mem_map.mpr ⟨_, hb, rfl⟩

end Reassemble

end Rollforward
