import Rollforward.Types

/-! `binary.rs`: content-defined chunks and the packs they are stored in. -/

namespace Rollforward

variable [Crates]

def minSize : Nat := 4 * 1024
def avgSize : Nat := 16 * 1024
def maxSize : Nat := 64 * 1024
def targetPackSize : Nat := 4 * 1024 * 1024

/-- `u32::try_from(n).unwrap_or(u32::MAX)`. -/
def toU32 (n : Nat) : Nat := if n < 2 ^ 32 then n else 2 ^ 32 - 1

omit [Crates] in
theorem toU32_of_lt {n : Nat} (h : n < 2 ^ 32) : toU32 n = n := if_pos h

/-- Finalize one pack: content-address it and stamp the id into its index. -/
def sealPack (buf : Bytes) (chunks : List PackedChunk) : String × Bytes × PackIndex :=
  let packId := blake3 buf
  (packId, buf, { packId, chunks })

structure PackBuilder where
  packs : List (String × Bytes × PackIndex) := []
  seen : List String := []
  buf : Bytes := []
  chunks : List PackedChunk := []

def PackBuilder.push (b : PackBuilder) (chunk : ChunkInfo × Bytes) : PackBuilder :=
  let (info, bytes) := chunk
  if info.hash ∈ b.seen then b
  else
    let seen := info.hash :: b.seen
    let chunks := b.chunks ++
      [{ hash := info.hash, offset := b.buf.length, length := toU32 bytes.length }]
    let buf := b.buf ++ bytes
    if buf.length ≥ targetPackSize then
      { packs := b.packs ++ [sealPack buf chunks], seen, buf := [], chunks := [] }
    else { packs := b.packs, seen, buf, chunks }

def PackBuilder.finish (b : PackBuilder) : List (String × Bytes × PackIndex) :=
  if b.buf = [] then b.packs else b.packs ++ [sealPack b.buf b.chunks]

/-- Group chunks into packs of about `targetPackSize` bytes, each hash once. -/
def buildPacks (newChunks : List (ChunkInfo × Bytes)) : List (String × Bytes × PackIndex) :=
  (newChunks.foldl PackBuilder.push {}).finish

/-- Slice `data` into content-defined chunks and hash each of them. -/
def chunkData (data : Bytes) : List (ChunkInfo × Bytes) :=
  (Crates.fastcdc data minSize avgSize maxSize).map fun (offset, length) =>
    let bytes := (data.drop offset).take length
    ({ hash := blake3 bytes, offset, length := toU32 length }, bytes)

end Rollforward
