import Rollforward.Binary

/-! What `chunk_data` and `build_packs` make of a file: chunks that join to it again, and
packs whose indexes point at every chunk. -/

namespace Rollforward

variable [Crates]

/-- Consecutive ranges from `start` to `stop`, none empty and none longer than `limit`. -/
inductive Tiles (limit : Nat) : Nat → Nat → List (Nat × Nat) → Prop
  | nil : Tiles limit start start []
  | cons (pos : 0 < length) (le : length ≤ limit) (rest : Tiles limit (start + length) stop ranges) :
      Tiles limit start stop ((start, length) :: ranges)

/-- What `FastCDC` documents of its cut points. -/
def FastcdcTiles : Prop :=
  ∀ data, Tiles maxSize 0 data.length (Crates.fastcdc data minSize avgSize maxSize)

/-- A chunk with its digest, of a size that `FastCDC` gives. -/
structure Digested (chunk : ChunkInfo × Bytes) : Prop where
  hash : chunk.1.hash = blake3 chunk.2
  pos : chunk.2 ≠ []
  length : chunk.2.length ≤ maxSize

section Chunks

omit [Crates] in
theorem Tiles.flatten {data : Bytes} {start stop : Nat} {ranges : List (Nat × Nat)}
    (h : Tiles limit start stop ranges) (hstop : stop = data.length) :
    (ranges.map fun range => (data.drop range.1).take range.2).flatten = data.drop start := by
  induction h with
  | nil => simp [hstop]
  | cons pos le rest ih =>
    rw [List.map_cons, List.flatten_cons, ih hstop, ← List.drop_drop]
    exact List.take_append_drop ..

omit [Crates] in
theorem Tiles.bounds {start stop : Nat} {ranges : List (Nat × Nat)}
    (h : Tiles limit start stop ranges) :
    start ≤ stop ∧ ∀ range ∈ ranges, 0 < range.2 ∧ range.2 ≤ limit ∧ range.1 + range.2 ≤ stop := by
  induction h with
  | nil => simp
  | cons pos le rest ih =>
    obtain ⟨hle, hrest⟩ := ih
    refine ⟨by omega, fun range hr => ?_⟩
    rcases List.mem_cons.mp hr with rfl | hr
    · exact ⟨pos, le, hle⟩
    · exact hrest range hr

variable (hcdc : FastcdcTiles)
include hcdc

theorem flatten_chunkData (data : Bytes) : ((chunkData data).map Prod.snd).flatten = data := by
  have h := (hcdc data).flatten rfl
  rw [List.drop_zero] at h
  rw [chunkData, List.map_map]
  exact h

theorem chunkData_cut {data : Bytes} {chunk : ChunkInfo × Bytes} (h : chunk ∈ chunkData data) :
    Digested chunk := by
  obtain ⟨range, hr, rfl⟩ := List.mem_map.mp h
  obtain ⟨hpos, hle, hstop⟩ := (hcdc data).bounds.2 range hr
  have hlength : ((data.drop range.1).take range.2).length = range.2 := by
    rw [List.length_take, List.length_drop]
    omega
  refine ⟨rfl, fun hnil => ?_, ?_⟩
  · rw [show (data.drop range.1).take range.2 = [] from hnil, List.length_nil] at hlength
    omega
  · exact hlength.trans_le hle

end Chunks

/-- The entry points at bytes of `data` with its digest. -/
structure PackedChunk.Cuts (entry : PackedChunk) (data : Bytes) : Prop where
  bound : entry.offset + entry.length ≤ data.length
  hash : blake3 ((data.drop entry.offset).take entry.length) = entry.hash

def PackIndex.Lists (index : PackIndex) (hash : String) : Prop :=
  hash ∈ index.chunks.map PackedChunk.hash

instance (index : PackIndex) (hash : String) : Decidable (index.Lists hash) :=
  inferInstanceAs (Decidable (_ ∈ _))

/-- A pack is named by its bytes and its index points into it. -/
structure Sealed (id : String) (data : Bytes) (index : PackIndex) : Prop where
  name : id = blake3 data
  packId : index.packId = id
  cuts : ∀ entry ∈ index.chunks, entry.Cuts data

section Packs

theorem PackedChunk.Cuts.append {entry : PackedChunk} {data : Bytes} (h : entry.Cuts data)
    (more : Bytes) : entry.Cuts (data ++ more) := by
  obtain ⟨hbound, hhash⟩ := h
  refine ⟨by rw [List.length_append]; omega, ?_⟩
  rw [List.drop_append_of_le_length (by omega),
    List.take_append_of_le_length (by rw [List.length_drop]; omega), hhash]

omit [Crates] in
theorem toU32_of_le {n : Nat} (h : n ≤ maxSize) : toU32 n = n :=
  toU32_of_lt (h.trans_lt (by decide))

theorem sealPack_sealed {data : Bytes} {chunks : List PackedChunk}
    (h : ∀ entry ∈ chunks, entry.Cuts data) :
    Sealed (sealPack data chunks).1 (sealPack data chunks).2.1 (sealPack data chunks).2.2 :=
  ⟨rfl, rfl, h⟩

/-- The builder has packed `done`. -/
structure PackBuilder.Builds (b : PackBuilder) (done : List (ChunkInfo × Bytes)) : Prop where
  packs : ∀ pack ∈ b.packs, Sealed pack.1 pack.2.1 pack.2.2
  chunks : ∀ entry ∈ b.chunks, entry.Cuts b.buf
  empty : b.buf = [] → b.chunks = []
  seen : ∀ hash ∈ b.seen, (∃ pack ∈ b.packs, pack.2.2.Lists hash) ∨
    hash ∈ b.chunks.map PackedChunk.hash
  done : ∀ chunk ∈ done, chunk.1.hash ∈ b.seen

/-- A chunk that was not seen goes to the end of the buffer. -/
theorem PackBuilder.Builds.chunk {b : PackBuilder} {done : List (ChunkInfo × Bytes)}
    (h : b.Builds done) {info : ChunkInfo} {bytes : Bytes} (hc : Digested (info, bytes)) :
    ∀ entry ∈ b.chunks ++
      [{ hash := info.hash, offset := b.buf.length, length := toU32 bytes.length }],
      entry.Cuts (b.buf ++ bytes) := by
  intro entry he
  rcases List.mem_append.mp he with he | he
  · exact (h.chunks entry he).append bytes
  · rw [List.mem_singleton.mp he]
    refine ⟨?_, ?_⟩
    · rw [toU32_of_le hc.length, List.length_append]
    · dsimp only
      rw [toU32_of_le hc.length, List.drop_left, List.take_length]
      exact hc.hash.symm

theorem PackBuilder.Builds.push {b : PackBuilder} {done : List (ChunkInfo × Bytes)}
    (h : b.Builds done) {chunk : ChunkInfo × Bytes} (hc : Digested chunk) :
    (b.push chunk).Builds (done ++ [chunk]) := by
  obtain ⟨info, bytes⟩ := chunk
  have hchunks := h.chunk hc
  have hdone : ∀ c ∈ done ++ [(info, bytes)], c.1.hash ∈ info.hash :: b.seen := by
    intro c hmem
    rcases List.mem_append.mp hmem with hmem | hmem
    · exact List.mem_cons_of_mem _ (h.done c hmem)
    · rw [List.mem_singleton.mp hmem]
      exact List.mem_cons_self
  unfold PackBuilder.push
  dsimp only
  split
  · next hseen =>
    refine ⟨h.packs, h.chunks, h.empty, h.seen, fun c hmem => ?_⟩
    rcases List.mem_cons.mp (hdone c hmem) with e | hin
    · rw [e]
      exact hseen
    · exact hin
  · split
    · -- the pack is full
      refine ⟨?_, by simp, fun _ => rfl, ?_, hdone⟩
      · intro pack hp
        rcases List.mem_append.mp hp with hp | hp
        · exact h.packs pack hp
        · rw [List.mem_singleton.mp hp]
          exact sealPack_sealed hchunks
      · intro hash hh
        refine Or.inl ?_
        rcases List.mem_cons.mp hh with rfl | hh
        · exact ⟨_, List.mem_append_right _ List.mem_cons_self, by simp [PackIndex.Lists, sealPack]⟩
        · rcases h.seen hash hh with ⟨pack, hp, hl⟩ | hin
          · exact ⟨pack, List.mem_append_left _ hp, hl⟩
          · refine ⟨_, List.mem_append_right _ List.mem_cons_self, ?_⟩
            rw [PackIndex.Lists, sealPack, List.map_append]
            exact List.mem_append_left _ hin
    · refine ⟨h.packs, hchunks, fun hnil => ?_, ?_, hdone⟩
      · exact absurd (List.append_eq_nil_iff.mp hnil).2 hc.pos
      · intro hash hh
        rw [List.map_append]
        rcases List.mem_cons.mp hh with rfl | hh
        · exact Or.inr (List.mem_append_right _ List.mem_cons_self)
        · exact (h.seen hash hh).imp_right (List.mem_append_left _)

theorem PackBuilder.Builds.foldl {b : PackBuilder} {done chunks : List (ChunkInfo × Bytes)}
    (h : b.Builds done) (hc : ∀ chunk ∈ chunks, Digested chunk) :
    (chunks.foldl PackBuilder.push b).Builds (done ++ chunks) := by
  induction chunks generalizing b done with
  | nil => simpa using h
  | cons chunk chunks ih =>
    obtain ⟨hchunk, hrest⟩ := List.forall_mem_cons.mp hc
    rw [List.foldl_cons, List.append_cons]
    exact ih (h.push hchunk) hrest

/-- Every pack is sealed, and every chunk is in one of them. -/
theorem buildPacks_sealed {chunks : List (ChunkInfo × Bytes)} (hc : ∀ chunk ∈ chunks, Digested chunk) :
    (∀ pack ∈ buildPacks chunks, Sealed pack.1 pack.2.1 pack.2.2) ∧
      ∀ chunk ∈ chunks, ∃ pack ∈ buildPacks chunks, pack.2.2.Lists chunk.1.hash := by
  have hstart : ({} : PackBuilder).Builds [] :=
    ⟨by simp, by simp, fun _ => rfl, by simp, by simp⟩
  have h := hstart.foldl hc
  rw [List.nil_append] at h
  rw [buildPacks, PackBuilder.finish]
  split
  · next hnil =>
    refine ⟨h.packs, fun chunk hmem => ?_⟩
    refine (h.seen _ (h.done chunk hmem)).resolve_right fun hin => ?_
    rw [h.empty hnil] at hin
    cases hin
  · constructor
    · intro pack hp
      rcases List.mem_append.mp hp with hp | hp
      · exact h.packs pack hp
      · rw [List.mem_singleton.mp hp]
        exact sealPack_sealed h.chunks
    · intro chunk hmem
      rcases h.seen _ (h.done chunk hmem) with ⟨pack, hp, hl⟩ | hin
      · exact ⟨pack, List.mem_append_left _ hp, hl⟩
      · exact ⟨_, List.mem_append_right _ List.mem_cons_self, hin⟩

end Packs

end Rollforward
