import Rollforward.Sample
import Rollforward.Storage.Packs

/-! `build_packs` lays its chunks out one after the other: every hash once, in packs that are
full but for the last. -/

namespace Rollforward

section Partitioning

variable [Crates]

/-- What `build_packs` is given: chunks that are not empty, shorter than 32 bits can tell, and
the same for the same hash. -/
structure Packable (chunks : List (ChunkInfo × Bytes)) : Prop where
  pos : ∀ chunk ∈ chunks, chunk.2 ≠ []
  short : ∀ chunk ∈ chunks, chunk.2.length < 2 ^ 32
  same : ∀ chunk ∈ chunks, ∀ other ∈ chunks, chunk.1.hash = other.1.hash → chunk.2 = other.2

def PackedChunk.range (entry : PackedChunk) : Nat × Nat := (entry.offset, entry.length)

/-- The entries cut `data` into pieces, and each piece is what the chunks have under its hash. -/
structure LaidOut (chunks : List (ChunkInfo × Bytes)) (data : Bytes)
    (entries : List PackedChunk) : Prop where
  tiles : Tiles (2 ^ 32 - 1) 0 data.length (entries.map PackedChunk.range)
  holds : ∀ entry ∈ entries, entry.offset + entry.length ≤ data.length ∧
    ∃ chunk ∈ chunks, chunk.1.hash = entry.hash ∧
      (data.drop entry.offset).take entry.length = chunk.2

/-- A pack that is not empty and not full before its last chunk. -/
structure Filled (data : Bytes) (entries : List PackedChunk) : Prop where
  pos : data ≠ []
  last : ∃ entry ∈ entries.getLast?, data.length < targetPackSize + entry.length

section Layout

variable {chunks : List (ChunkInfo × Bytes)} {data : Bytes} {entries : List PackedChunk}

omit [Crates] in
theorem Tiles.append {limit start middle stop : Nat} {ranges ranges' : List (Nat × Nat)}
    (h : Tiles limit start middle ranges) (h' : Tiles limit middle stop ranges') :
    Tiles limit start stop (ranges ++ ranges') := by
  induction h with
  | nil => exact h'
  | cons pos le _ ih => exact .cons pos le (ih h')

omit [Crates] in
theorem LaidOut.mono {more : List (ChunkInfo × Bytes)} (h : LaidOut chunks data entries)
    (hmore : ∀ chunk ∈ chunks, chunk ∈ more) : LaidOut more data entries where
  tiles := h.tiles
  holds entry he := by
    obtain ⟨hbound, chunk, hc, hrest⟩ := h.holds entry he
    exact ⟨hbound, chunk, hmore chunk hc, hrest⟩

/-- The entry that a chunk gets at the end of a buffer. -/
def entryAt (data : Bytes) (chunk : ChunkInfo × Bytes) : PackedChunk :=
  { hash := chunk.1.hash, offset := data.length, length := toU32 chunk.2.length }

omit [Crates] in
theorem LaidOut.append (h : LaidOut chunks data entries) {chunk : ChunkInfo × Bytes}
    (hpos : chunk.2 ≠ []) (hshort : chunk.2.length < 2 ^ 32) :
    LaidOut (chunks ++ [chunk]) (data ++ chunk.2) (entries ++ [entryAt data chunk]) := by
  have hlength : (entryAt data chunk).length = chunk.2.length := toU32_of_lt hshort
  refine ⟨?_, fun entry he => ?_⟩
  · rw [List.map_append]
    refine h.tiles.append (.cons ?_ ?_ ?_)
    · rw [hlength]
      exact List.length_pos_iff.mpr hpos
    · rw [hlength]
      exact Nat.le_sub_one_of_lt hshort
    · rw [List.length_append, hlength]
      exact .nil
  · rcases List.mem_append.mp he with he | he
    · obtain ⟨hbound, found, hc, hhash, hbytes⟩ := h.holds entry he
      refine ⟨by rw [List.length_append]; omega, found, List.mem_append_left _ hc, hhash, ?_⟩
      rw [List.drop_append_of_le_length (by omega),
        List.take_append_of_le_length (by rw [List.length_drop]; omega), hbytes]
    · obtain rfl := List.mem_singleton.mp he
      refine ⟨?_, chunk, List.mem_append_right _ List.mem_cons_self, rfl, ?_⟩
      · rw [hlength, List.length_append]
        exact le_rfl
      · rw [hlength, entryAt, List.drop_left, List.take_length]

omit [Crates] in
theorem eraseDups_append_singleton {hashes : List String} {hash : String} :
    (hashes ++ [hash]).eraseDups =
      if hash ∈ hashes then hashes.eraseDups else hashes.eraseDups ++ [hash] := by
  rw [List.eraseDups_append]
  split
  · next h => simp [List.removeAll, h]
  · next h => simp [List.removeAll, h, List.eraseDups_cons]

end Layout

section Building

variable {done chunks : List (ChunkInfo × Bytes)} {b : PackBuilder}

def PackBuilder.hashes (b : PackBuilder) : List String :=
  (b.packs.flatMap fun pack => pack.2.2.chunks.map PackedChunk.hash) ++
    b.chunks.map PackedChunk.hash

/-- The builder has laid out `done`: in packs that are full, and in a buffer that is not. -/
structure PackBuilder.Lays (b : PackBuilder) (done : List (ChunkInfo × Bytes)) : Prop where
  hashes : b.hashes = (done.map fun chunk => chunk.1.hash).eraseDups
  seen : ∀ hash, hash ∈ b.seen ↔ hash ∈ done.map fun chunk => chunk.1.hash
  packs : ∀ pack ∈ b.packs, LaidOut done pack.2.1 pack.2.2.chunks ∧
    Filled pack.2.1 pack.2.2.chunks ∧ targetPackSize ≤ pack.2.1.length
  buffer : LaidOut done b.buf b.chunks
  room : b.buf.length < targetPackSize
  filled : b.buf ≠ [] → Filled b.buf b.chunks

theorem PackBuilder.Lays.push (h : b.Lays done) {chunk : ChunkInfo × Bytes} (hpos : chunk.2 ≠ [])
    (hshort : chunk.2.length < 2 ^ 32) : (b.push chunk).Lays (done ++ [chunk]) := by
  have hmore : ∀ c ∈ done, c ∈ done ++ [chunk] := fun c hc => List.mem_append_left _ hc
  have hbuffer : LaidOut (done ++ [chunk]) (b.buf ++ chunk.2) (b.chunks ++ [entryAt b.buf chunk]) :=
    h.buffer.append hpos hshort
  have hfilled : Filled (b.buf ++ chunk.2) (b.chunks ++ [entryAt b.buf chunk]) := by
    refine ⟨fun hnil => hpos (List.append_eq_nil_iff.mp hnil).2, entryAt b.buf chunk, by simp, ?_⟩
    have hlength : (entryAt b.buf chunk).length = chunk.2.length := toU32_of_lt hshort
    have hroom := h.room
    rw [List.length_append, hlength]
    omega
  have hpacks : ∀ pack ∈ b.packs, LaidOut (done ++ [chunk]) pack.2.1 pack.2.2.chunks ∧
      Filled pack.2.1 pack.2.2.chunks ∧ targetPackSize ≤ pack.2.1.length := fun pack hp =>
    ⟨(h.packs pack hp).1.mono hmore, (h.packs pack hp).2⟩
  have hdone : (done ++ [chunk]).map (fun c => c.1.hash) =
      done.map (fun c => c.1.hash) ++ [chunk.1.hash] := by simp
  unfold PackBuilder.push
  dsimp only
  split
  · next hseen =>
    have hin := (h.seen _).mp hseen
    refine ⟨?_, fun hash => ?_, hpacks, h.buffer.mono hmore, h.room, h.filled⟩
    · rw [hdone, eraseDups_append_singleton, if_pos hin]
      exact h.hashes
    · rw [hdone, h.seen, List.mem_append, List.mem_singleton]
      exact ⟨Or.inl, fun hh => hh.elim id fun e => e ▸ hin⟩
  · next hnew =>
    have hout : chunk.1.hash ∉ done.map fun c => c.1.hash := fun hin => hnew ((h.seen _).mpr hin)
    have hhashes : b.hashes ++ [chunk.1.hash] =
        ((done ++ [chunk]).map fun c => c.1.hash).eraseDups := by
      rw [hdone, eraseDups_append_singleton, if_neg hout, h.hashes]
    have hseen : ∀ hash, hash ∈ chunk.1.hash :: b.seen ↔
        hash ∈ (done ++ [chunk]).map fun c => c.1.hash := by
      intro hash
      rw [hdone, List.mem_cons, h.seen, List.mem_append, List.mem_singleton, or_comm]
    split
    · next hfull =>
      refine ⟨?_, hseen, fun pack hp => ?_, ⟨.nil, by simp⟩,
        (by decide : 0 < targetPackSize), fun hne => absurd rfl hne⟩
      · rw [← hhashes]
        simp [PackBuilder.hashes, sealPack]
      · rcases List.mem_append.mp hp with hp | hp
        · exact hpacks pack hp
        · obtain rfl := List.mem_singleton.mp hp
          exact ⟨hbuffer, hfilled, hfull⟩
    · next hroom =>
      refine ⟨?_, hseen, hpacks, hbuffer, Nat.lt_of_not_le hroom, fun _ => hfilled⟩
      rw [← hhashes]
      simp [PackBuilder.hashes]

theorem PackBuilder.Lays.foldl (h : b.Lays done) (hpos : ∀ chunk ∈ chunks, chunk.2 ≠ [])
    (hshort : ∀ chunk ∈ chunks, chunk.2.length < 2 ^ 32) :
    (chunks.foldl PackBuilder.push b).Lays (done ++ chunks) := by
  induction chunks generalizing b done with
  | nil => simpa using h
  | cons chunk chunks ih =>
    obtain ⟨hp, hps⟩ := List.forall_mem_cons.mp hpos
    obtain ⟨hs, hss⟩ := List.forall_mem_cons.mp hshort
    rw [List.foldl_cons, List.append_cons]
    exact ih (h.push hp hs) hps hss

end Building

section Packs

variable {chunks : List (ChunkInfo × Bytes)}

/-- What `build_packs` makes of chunks. -/
structure Partitions (chunks : List (ChunkInfo × Bytes))
    (packs : List (String × Bytes × PackIndex)) : Prop where
  hashes : (packs.flatMap fun pack => pack.2.2.chunks.map PackedChunk.hash) =
    (chunks.map fun chunk => chunk.1.hash).eraseDups
  holds : ∀ pack ∈ packs, ∀ entry ∈ pack.2.2.chunks,
    entry.offset + entry.length ≤ pack.2.1.length ∧
    ∀ chunk ∈ chunks, chunk.1.hash = entry.hash →
      (pack.2.1.drop entry.offset).take entry.length = chunk.2
  tiles : ∀ pack ∈ packs,
    Tiles (2 ^ 32 - 1) 0 pack.2.1.length (pack.2.2.chunks.map PackedChunk.range)
  filled : ∀ pack ∈ packs, Filled pack.2.1 pack.2.2.chunks
  full : ∀ pack ∈ packs.dropLast, targetPackSize ≤ pack.2.1.length

theorem buildPacks_partitions (h : Packable chunks) : Partitions chunks (buildPacks chunks) := by
  have hstart : ({} : PackBuilder).Lays [] :=
    ⟨rfl, by simp, by simp, ⟨.nil, by simp⟩, by decide, fun hne => absurd rfl hne⟩
  have hlays := hstart.foldl h.pos h.short
  rw [List.nil_append] at hlays
  have hexact : ∀ {data : Bytes} {entries : List PackedChunk}, LaidOut chunks data entries →
      ∀ entry ∈ entries, entry.offset + entry.length ≤ data.length ∧
        ∀ chunk ∈ chunks, chunk.1.hash = entry.hash →
          (data.drop entry.offset).take entry.length = chunk.2 := by
    intro data entries hlaid entry he
    obtain ⟨hbound, found, hf, hhash, hbytes⟩ := hlaid.holds entry he
    refine ⟨hbound, fun chunk hc hsame => ?_⟩
    rw [hbytes]
    exact h.same found hf chunk hc (hhash.trans hsame.symm)
  rw [buildPacks, PackBuilder.finish]
  generalize chunks.foldl PackBuilder.push {} = b at hlays
  split
  · next hnil =>
    have hnone : b.chunks = [] := by
      refine List.eq_nil_iff_forall_not_mem.mpr fun entry he => ?_
      obtain ⟨hpos, -, hstop⟩ := hlays.buffer.tiles.bounds.2 _ (List.mem_map_of_mem he)
      rw [hnil, List.length_nil] at hstop
      omega
    refine ⟨?_, fun pack hp => hexact (hlays.packs pack hp).1,
      fun pack hp => (hlays.packs pack hp).1.tiles, fun pack hp => (hlays.packs pack hp).2.1,
      fun pack hp => (hlays.packs pack (List.dropLast_subset _ hp)).2.2⟩
    rw [← hlays.hashes, PackBuilder.hashes, hnone, List.map_nil, List.append_nil]
  · next hne =>
    have hall : ∀ pack ∈ b.packs ++ [sealPack b.buf b.chunks],
        LaidOut chunks pack.2.1 pack.2.2.chunks ∧ Filled pack.2.1 pack.2.2.chunks := by
      intro pack hp
      rcases List.mem_append.mp hp with hp | hp
      · exact ⟨(hlays.packs pack hp).1, (hlays.packs pack hp).2.1⟩
      · obtain rfl := List.mem_singleton.mp hp
        exact ⟨hlays.buffer, hlays.filled hne⟩
    refine ⟨?_, fun pack hp => hexact (hall pack hp).1, fun pack hp => (hall pack hp).1.tiles,
      fun pack hp => (hall pack hp).2, fun pack hp => ?_⟩
    · rw [← hlays.hashes, PackBuilder.hashes, List.flatMap_append]
      simp [sealPack]
    · rw [List.dropLast_concat] at hp
      exact (hlays.packs pack hp).2.2

end Packs

end Partitioning

section Samples

open Sample

attribute [local instance] crates

/-- Three chunks, the last one seen before. -/
def pieces : List (ChunkInfo × Bytes) :=
  [(⟨"a", 0, 2⟩, [1, 2]), (⟨"b", 2, 1⟩, [3]), (⟨"a", 3, 2⟩, [1, 2])]

theorem buildPacks_partitions_pieces :
    Packable pieces ∧ Partitions pieces (buildPacks pieces) := by
  have h : Packable pieces := by
    constructor <;> decide
  exact ⟨h, buildPacks_partitions h⟩

end Samples

end Rollforward
