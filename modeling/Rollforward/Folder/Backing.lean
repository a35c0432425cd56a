import Rollforward.Folder.Files

/-! Whether every index belongs to a pack that is there, over runs of calls that are cut. -/

namespace Rollforward

open Std Lib

section Runs

variable [Crates]

/-- A call on the folder, cut after so many file operations.  Of a deletion some removals may
fail. -/
inductive StoreCall
  | commit (process : Nat) (batch : CommitBatch) (cut : Nat)
  | delete (ids : List String) (fails : Nat → Bool) (cut : Nat)

namespace StoreCall

/-- The operations that take effect. -/
def ops : StoreCall → List FileOp
  | .commit _ batch cut => (writeOps batch.objects).take cut
  | .delete ids fails cut =>
    (((deleteOps ids).zipIdx.take cut).filter fun op => ¬ fails op.2).map Prod.fst

def process : StoreCall → Nat
  | .commit process _ _ => process
  | .delete _ _ _ => 0

/-- Batches as the runtime builds them. -/
def Built : StoreCall → Prop
  | .commit _ batch _ => batch.Packed
  | .delete _ _ _ => True

/-- A deletion that removes a pack removes every index that points into it. -/
def Clears (remote : Remote) : StoreCall → Prop
  | .commit _ _ _ => True
  | .delete ids fails cut => ∀ (name : String) index, remote.indexes[name]? = some index →
    index.chunks ≠ [] → FileOp.removePack index.packId ∈ (delete ids fails cut).ops →
    FileOp.removeIndex name ∈ (delete ids fails cut).ops

end StoreCall

def Remote.perform (remote : Remote) (call : StoreCall) : Remote :=
  remote.runOps call.process call.ops

/-- The folders that such calls leave. -/
def Remote.Kept (remote : Remote) : Prop :=
  Relation.ReflTransGen (fun remote remote' => ∃ call : StoreCall, call.Built ∧
    call.Clears remote ∧ remote' = remote.perform call) {} remote

end Runs

section Backed

variable [Crates] {remote : Remote} {process : Nat}

namespace Remote

/-- What an index lists is in a pack that is there. -/
def Backed (remote : Remote) : Prop :=
  ∀ (name : String) index, remote.indexes[name]? = some index → index.chunks ≠ [] →
    '.' ∉ index.packId.toList ∧ remote.packs[index.packId]?.isSome

theorem Backed.lookup (h : remote.Backed) {hashes : List String} {location : ChunkLocation}
    (hl : location ∈ remote.lookupChunks hashes) : remote.packs[location.packId]?.isSome := by
  obtain ⟨index, hi, entry, he, rfl⟩ := mem_lookupIn hl
  obtain ⟨name, hname⟩ := mem_listing.mp hi
  exact (h name index hname (List.ne_nil_of_mem he)).2

/-- No write takes a pack away. -/
theorem packs_fileStep {id : String} (hid : '.' ∉ id.toList) (h : remote.packs[id]?.isSome)
    {object : StoredObject} {op : FileOp} (hop : op = .writeTemp object ∨ op = .rename object) :
    (fileStep process remote op).packs[id]?.isSome := by
  rcases hop with rfl | rfl
  · rw [fileStep]
    split
    · exact h
    · cases object with
      | pack pack =>
        rw [writeTemp, Map.get?_insert]
        split
        · rfl
        · exact h
      | _ => exact h
  · rw [fileStep]
    split
    · exact h
    · cases object with
      | pack pack =>
        rw [rename, Map.get?_insert]
        split
        · rfl
        · rw [Map.get?_erase, if_neg (ne_tempName hid).symm]
          exact h
      | _ => exact h

/-- How a write changes the indexes. -/
theorem get?_indexes_fileStep {object : StoredObject} {op : FileOp}
    (hop : op = .writeTemp object ∨ op = .rename object) {name : String} {index : PackIndex}
    (h : (fileStep process remote op).indexes[name]? = some index) :
    remote.indexes[name]? = some index ∨ ∃ new, object = .index new ∧ index = new.data := by
  rcases hop with rfl | rfl
  · rw [fileStep] at h
    split at h
    · exact Or.inl h
    · cases object with
      | index new =>
        rw [writeTemp, Map.get?_insert] at h
        split at h
        · exact Or.inr ⟨new, rfl, (Option.some.inj h).symm⟩
        · exact Or.inl h
      | _ => exact Or.inl h
  · rw [fileStep] at h
    split at h
    · exact Or.inl h
    · cases object with
      | index new =>
        rw [rename, Map.get?_insert] at h
        split at h
        · exact Or.inr ⟨new, rfl, (Option.some.inj h).symm⟩
        · rw [Map.get?_erase] at h
          split at h
          · cases h
          · exact Or.inl h
      | _ => exact Or.inl h

theorem mem_writeOps {objects : List StoredObject} {op : FileOp} (h : op ∈ writeOps objects) :
    ∃ object ∈ objects, op = .writeTemp object ∨ op = .rename object := by
  obtain ⟨object, ho, hop⟩ := List.mem_flatMap.mp h
  simp only [List.mem_cons, List.not_mem_nil, or_false] at hop
  exact ⟨object, ho, hop⟩

/-- Objects whose indexes, if any, point into packs that are there. -/
def Bears (remote : Remote) (objects : List StoredObject) : Prop :=
  ∀ index, StoredObject.index index ∈ objects →
    '.' ∉ index.data.packId.toList ∧ remote.packs[index.data.packId]?.isSome

/-- Any part of such writes keeps the indexes backed. -/
theorem Backed.writes (h : remote.Backed) {objects : List StoredObject}
    (hbears : remote.Bears objects) {ops : List FileOp} (hops : ∀ op ∈ ops, op ∈ writeOps objects) :
    (remote.runOps process ops).Backed := by
  induction ops generalizing remote with
  | nil => exact h
  | cons op ops ih =>
    obtain ⟨hop, hops⟩ := List.forall_mem_cons.mp hops
    obtain ⟨object, hobject, hkind⟩ := mem_writeOps hop
    refine ih ?_ ?_ hops
    · intro name index hname hne
      rcases get?_indexes_fileStep hkind hname with hold | ⟨new, rfl, rfl⟩
      · obtain ⟨hdot, hpack⟩ := h name index hold hne
        exact ⟨hdot, packs_fileStep hdot hpack hkind⟩
      · obtain ⟨hdot, hpack⟩ := hbears new hobject
        exact ⟨hdot, packs_fileStep hdot hpack hkind⟩
    · intro index hindex
      obtain ⟨hdot, hpack⟩ := hbears index hindex
      exact ⟨hdot, packs_fileStep hdot hpack hkind⟩

/-- Packs that are written are there. -/
theorem packs_runOps {packs : List PackObject} (hplain : ∀ pack ∈ packs, '.' ∉ pack.id.toList)
    {pack : PackObject} (hpack : pack ∈ packs ∨ remote.packs[pack.id]?.isSome)
    (hdot : '.' ∉ pack.id.toList) :
    (remote.runOps process (writeOps (packs.map .pack))).packs[pack.id]?.isSome := by
  induction packs generalizing remote with
  | nil =>
    rcases hpack with hpack | hpack
    · cases hpack
    · exact hpack
  | cons first packs ih =>
    obtain ⟨hfirst, hplain⟩ := List.forall_mem_cons.mp hplain
    let temp := fileStep process remote (.writeTemp (.pack first))
    have hrun : remote.runOps process (writeOps ((first :: packs).map .pack)) =
        (fileStep process temp (.rename (.pack first))).runOps process
          (writeOps (packs.map .pack)) := rfl
    rw [hrun]
    apply ih hplain
    rcases hpack with hpack | hpack
    · rcases List.mem_cons.mp hpack with rfl | hpack
      · right
        by_cases hs : temp.stores (.pack pack)
        · rw [fileStep, if_pos hs]
          exact hs
        · rw [fileStep, if_neg hs, rename, Map.get?_insert, if_pos rfl]
          rfl
      · exact Or.inl hpack
    · right
      exact packs_fileStep hdot (packs_fileStep hdot hpack (Or.inl rfl)) (Or.inr rfl)

/-- A batch that is cut anywhere keeps the indexes backed: its packs come first. -/
theorem Backed.commit (h : remote.Backed) (hhex : ∀ data, '.' ∉ (blake3 data).toList)
    {batch : CommitBatch} (hpacked : batch.Packed) (cut : Nat) :
    (remote.runOps process ((writeOps batch.objects).take cut)).Backed := by
  have hplain : ∀ pack ∈ batch.packs, '.' ∉ pack.id.toList := by
    intro pack hpack
    rw [hpacked.packs pack hpack]
    exact hhex pack.data
  let rest := batch.indexes.map StoredObject.index ++ (batch.commits.map .commit ++
    (batchSegments batch.commits).map .segment)
  have hops : writeOps batch.objects = writeOps (batch.packs.map .pack) ++ writeOps rest :=
    List.flatMap_append
  have hnone : remote.Bears (batch.packs.map .pack) := by
    intro index hindex
    simp at hindex
  rw [hops, List.take_append, runOps, List.foldl_append]
  rcases Nat.lt_or_ge (writeOps (batch.packs.map .pack)).length cut with hlt | hle
  · have hbears : (remote.runOps process (writeOps (batch.packs.map .pack))).Bears rest := by
      intro index hindex
      have hmem : index ∈ batch.indexes := by simpa [rest] using hindex
      obtain ⟨pack, hpack, -, hsealed⟩ := hpacked.indexes index hmem
      rw [hsealed.packId]
      exact ⟨hplain pack hpack, packs_runOps hplain (Or.inl hpack) (hplain pack hpack)⟩
    rw [List.take_of_length_le hlt.le]
    exact (h.writes hnone fun _ hop => hop).writes hbears fun _ hop => List.mem_of_mem_take hop
  · rw [Nat.sub_eq_zero_of_le hle]
    exact h.writes hnone fun _ hop => List.mem_of_mem_take hop

section Removals

variable {ops : List FileOp} (hops : ∀ op ∈ ops, ∃ id, op = .removePack id ∨ op = .removeIndex id)

include hops

theorem get?_indexes_removals {name : String} {index : PackIndex}
    (h : (remote.runOps process ops).indexes[name]? = some index) :
    remote.indexes[name]? = some index ∧ FileOp.removeIndex name ∉ ops := by
  induction ops generalizing remote with
  | nil => exact ⟨h, List.not_mem_nil⟩
  | cons op ops ih =>
    obtain ⟨⟨id, hop⟩, hops⟩ := List.forall_mem_cons.mp hops
    obtain ⟨hstep, hrest⟩ := ih hops h
    rcases hop with rfl | rfl
    · exact ⟨hstep, by simpa using hrest⟩
    · rw [fileStep, Map.get?_erase] at hstep
      split at hstep
      · cases hstep
      · next hne =>
        refine ⟨hstep, fun hin => ?_⟩
        rcases List.mem_cons.mp hin with e | hin
        · exact hne (FileOp.removeIndex.inj e).symm
        · exact hrest hin

theorem get?_packs_removals {id : String} (h : FileOp.removePack id ∉ ops) :
    (remote.runOps process ops).packs[id]? = remote.packs[id]? := by
  induction ops generalizing remote with
  | nil => rfl
  | cons op ops ih =>
    obtain ⟨⟨other, hop⟩, hops⟩ := List.forall_mem_cons.mp hops
    obtain ⟨hne, hrest⟩ := not_or.mp (List.mem_cons.not.mp h)
    refine (ih hops hrest).trans ?_
    rcases hop with rfl | rfl
    · rw [fileStep, Map.get?_erase, if_neg]
      rintro rfl
      exact hne rfl
    · rfl

end Removals

theorem mem_deleteOps {ids : List String} {op : FileOp} :
    op ∈ deleteOps ids ↔ ∃ id ∈ ids, op = .removePack id ∨ op = .removeIndex id := by
  simp [deleteOps]

theorem mem_ops_delete {ids : List String} {fails : Nat → Bool} {cut : Nat} {op : FileOp}
    (h : op ∈ (StoreCall.delete ids fails cut).ops) : op ∈ deleteOps ids := by
  obtain ⟨entry, hentry, rfl⟩ := List.mem_map.mp h
  have hin := List.mem_of_mem_take (List.mem_filter.mp hentry).1
  exact List.fst_mem_of_mem_zipIdx hin

theorem Backed.perform (h : remote.Backed) (hhex : ∀ data, '.' ∉ (blake3 data).toList)
    {call : StoreCall} (hbuilt : call.Built) (hclears : call.Clears remote) :
    (remote.perform call).Backed := by
  cases call with
  | commit process batch cut => exact h.commit hhex hbuilt cut
  | delete ids fails cut =>
    have hops : ∀ op ∈ (StoreCall.delete ids fails cut).ops,
        ∃ id, op = .removePack id ∨ op = .removeIndex id := by
      intro op hop
      obtain ⟨id, -, hkind⟩ := mem_deleteOps.mp (mem_ops_delete hop)
      exact ⟨id, hkind⟩
    intro name index hname hne
    obtain ⟨hold, hkept⟩ := get?_indexes_removals hops hname
    obtain ⟨hdot, hpack⟩ := h name index hold hne
    refine ⟨hdot, ?_⟩
    rw [Remote.perform, get?_packs_removals hops]
    · exact hpack
    · exact fun hgone => hkept (hclears name index hold hne hgone)

theorem Kept.backed (h : remote.Kept) (hhex : ∀ data, '.' ∉ (blake3 data).toList) :
    remote.Backed := by
  induction h with
  | refl => exact fun name index hname => by simp at hname
  | tail _ hstep ih =>
    obtain ⟨call, hbuilt, hclears, rfl⟩ := hstep
    exact ih.perform hhex hbuilt hclears

/-- In every run of calls that are cut anywhere, and whose deletions remove with a pack every
index that points into it, what a lookup finds is in a pack that is there. -/
theorem lookupChunks_backed (hhex : ∀ data, '.' ∉ (blake3 data).toList) (h : remote.Kept) :
    ∀ hashes, ∀ location ∈ remote.lookupChunks hashes, remote.packs[location.packId]?.isSome :=
  fun _ _ hl => (h.backed hhex).lookup hl

end Remote

/-- A deletion that is not cut, and of which no removal fails, removes each pack with its
index. -/
theorem StoreCall.clears_whole
    (h : ∀ (name : String) index, remote.indexes[name]? = some index → index.packId = name)
    (ids : List String) : (delete ids (fun _ => false) (deleteOps ids).length).Clears remote := by
  intro name index hname _ hgone
  have hops : (delete ids (fun _ => false) (deleteOps ids).length).ops = deleteOps ids := by
    rw [ops, List.take_of_length_le (by simp), List.filter_eq_self.mpr (by simp),
      List.zipIdx_map_fst]
  rw [hops, Remote.mem_deleteOps] at hgone ⊢
  rw [h name index hname] at hgone
  obtain ⟨id, hid, e⟩ := hgone
  rcases e with e | e
  · exact ⟨id, hid, Or.inr (congrArg _ (FileOp.removePack.inj e))⟩
  · cases e

end Backed

section Samples

open Sample

attribute [local instance] crates

/-- The batch of a file that is one chunk. -/
def chunkBatch (content : String) : CommitBatch :=
  let data := textBytes content
  let (id, data, index) := sealPack data [⟨blake3 data, 0, data.length⟩]
  { packs := [⟨id, data⟩], indexes := [⟨id, index⟩] }

theorem chunkBatch_packed (content : String) : (chunkBatch content).Packed where
  packs pack hpack := by
    obtain rfl := List.mem_singleton.mp hpack
    rfl
  indexes index hindex := by
    obtain rfl := List.mem_singleton.mp hindex
    refine ⟨_, List.mem_singleton_self _, rfl, sealPack_sealed ?_⟩
    intro entry he
    obtain rfl := List.mem_singleton.mp he
    refine ⟨(Nat.zero_add _).le, ?_⟩
    rw [List.drop_zero, List.take_length]

def twoPacks : Remote :=
  (({} : Remote).perform (.commit 7 (chunkBatch "a") 4)).perform (.commit 7 (chunkBatch "b") 4)

theorem twoPacks_kept : twoPacks.Kept := by
  have hfirst : (({} : Remote).perform (.commit 7 (chunkBatch "a") 4)).Kept :=
    .single ⟨.commit 7 (chunkBatch "a") 4, chunkBatch_packed "a", trivial, rfl⟩
  exact hfirst.tail ⟨.commit 7 (chunkBatch "b") 4, chunkBatch_packed "b", trivial, rfl⟩

/-- Two packs, one of which is removed with its index. -/
theorem Remote.lookupChunks_backed_removed : ∃ remote : Remote, remote.Kept ∧
    remote.packs.keys = ["62"] ∧
    ∀ hashes, ∀ location ∈ remote.lookupChunks hashes, remote.packs[location.packId]?.isSome := by
  have hnames : ∀ entry ∈ twoPacks.indexes.toList, entry.2.packId = entry.1 := by decide +kernel
  have hkept : (twoPacks.perform (.delete ["61"] (fun _ => false) 2)).Kept := by
    refine twoPacks_kept.tail ⟨.delete ["61"] (fun _ => false) 2, trivial, ?_, rfl⟩
    apply StoreCall.clears_whole
    intro name index hname
    exact hnames (name, index) (ExtTreeMap.mem_toList_iff_getElem?_eq_some.mpr hname)
  exact ⟨_, hkept, by decide +kernel, Remote.lookupChunks_backed dot_notMem_hex hkept⟩

/-- The pack is removed first: cut there, the deletion leaves its index behind. -/
theorem Remote.lookupChunks_dangles : ∃ calls : List StoreCall, (∀ call ∈ calls, call.Built) ∧
    ∃ hashes, ∃ location ∈ (calls.foldl Remote.perform {}).lookupChunks hashes,
      (calls.foldl Remote.perform {}).packs[location.packId]? = none := by
  refine ⟨[.commit 7 (chunkBatch "a") 4, .delete ["61"] (fun _ => false) 1], ?_, ["61"], ?_⟩
  · intro call hcall
    simp only [List.mem_cons, List.not_mem_nil, or_false] at hcall
    rcases hcall with rfl | rfl
    · exact chunkBatch_packed "a"
    · exact trivial
  · decide +kernel

end Samples

end Rollforward
