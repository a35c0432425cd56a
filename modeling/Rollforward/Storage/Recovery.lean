import Rollforward.Published
import Rollforward.Sample
import Rollforward.Storage.Stock

/-! Whether the content of a published snapshot can be read back: every batch keeps the
stock of the remote in order, but the index of a pack is lost when its id is taken. -/

namespace Rollforward

open Std Lib

section Batch

variable [Crates] {remote : Remote} {batch : CommitBatch}

/-- The objects of a batch belong together. -/
structure CommitBatch.Packed (batch : CommitBatch) : Prop where
  packs : ∀ pack ∈ batch.packs, pack.id = blake3 pack.data
  indexes : ∀ index ∈ batch.indexes, ∃ pack ∈ batch.packs, pack.id = index.id ∧
    Sealed pack.id pack.data index.data

/-- The index is written: nothing is stored under its id, and it is the first of the batch
to have it. -/
def CommitBatch.Lands (batch : CommitBatch) (remote : Remote) (index : PackIndexObject) : Prop :=
  remote.indexes[index.id]? = none ∧
    batch.indexes.find? (fun other => other.id = index.id) = some index

instance (batch : CommitBatch) (remote : Remote) (index : PackIndexObject) :
    Decidable (batch.Lands remote index) :=
  have : DecidableEq PackIndexObject := fun a b =>
    decidable_of_iff (a.id = b.id ∧ a.data = b.data) (by cases a; cases b; simp)
  inferInstanceAs (Decidable (_ ∧ _))

/-- Every chunk of the batch is listed already or by an index that is written. -/
def CommitBatch.Lodges (batch : CommitBatch) (remote : Remote) : Prop :=
  ∀ x ∈ batch.commits, ∀ hash ∈ x.change.chunkHashes, remote.Listed hash ∨
    ∃ index ∈ batch.indexes, batch.Lands remote index ∧ index.data.Lists hash

omit [Crates] in
theorem get?_foldl_insertIfNew {objects : List γ} {name : γ → String} {value : γ → β}
    {m : Map String β} {id : String} :
    (objects.foldl (fun m object => m.insertIfNew (name object) (value object)) m)[id]? =
      m[id]?.or ((objects.find? fun object => name object = id).map value) := by
  induction objects generalizing m with
  | nil => simp
  | cons object objects ih =>
    rw [List.foldl_cons, ih, Map.get?_insertIfNew, List.find?_cons]
    by_cases h : name object = id
    · cases hm : m[id]? <;> simp [h]
    · simp [h]

theorem Remote.get?_indexes_commitBatch (id : String) :
    (remote.commitBatch batch).indexes[id]? = remote.indexes[id]?.or
      ((batch.indexes.find? fun object => object.id = id).map PackIndexObject.data) :=
  get?_foldl_insertIfNew

theorem Remote.get?_packs_commitBatch (id : String) :
    (remote.commitBatch batch).packs[id]? = remote.packs[id]?.or
      ((batch.packs.find? fun object => object.id = id).map PackObject.data) :=
  get?_foldl_insertIfNew

/-- What is listed after a batch. -/
theorem Remote.listed_commitBatch {hash : String} : (remote.commitBatch batch).Listed hash ↔
    remote.Listed hash ∨ ∃ index ∈ batch.indexes, batch.Lands remote index ∧
      index.data.Lists hash := by
  constructor
  · rintro ⟨id, index, hi, hl⟩
    rw [Remote.get?_indexes_commitBatch] at hi
    rcases Option.or_eq_some_iff.mp hi with hi | ⟨hnone, hi⟩
    · exact Or.inl ⟨id, index, hi, hl⟩
    · obtain ⟨object, hf, rfl⟩ := Option.map_eq_some_iff.mp hi
      obtain rfl : object.id = id := of_decide_eq_true (List.find?_some hf :)
      exact Or.inr ⟨object, List.mem_of_find?_eq_some hf, ⟨hnone, hf⟩, hl⟩
  · rintro (⟨id, index, hi, hl⟩ | ⟨object, -, ⟨hnone, hf⟩, hl⟩)
    · exact ⟨id, index, by rw [Remote.get?_indexes_commitBatch, hi]; rfl, hl⟩
    · exact ⟨object.id, object.data, by rw [Remote.get?_indexes_commitBatch, hnone, hf]; rfl, hl⟩

theorem Remote.Stocked.commitBatch (h : remote.Stocked)
    (hinj : Function.Injective (blake3 : Bytes → String)) (hb : batch.Packed) :
    (remote.commitBatch batch).Stocked := by
  have hpacks : ∀ (id : String) data, (remote.commitBatch batch).packs[id]? = some data →
      id = blake3 data := by
    intro id data hd
    rw [Remote.get?_packs_commitBatch] at hd
    rcases Option.or_eq_some_iff.mp hd with hd | ⟨-, hd⟩
    · exact h.packs id data hd
    · obtain ⟨pack, hf, rfl⟩ := Option.map_eq_some_iff.mp hd
      obtain rfl : pack.id = id := of_decide_eq_true (List.find?_some hf :)
      exact hb.packs pack (List.mem_of_find?_eq_some hf)
  refine ⟨hpacks, fun id index hi => ?_⟩
  rw [Remote.get?_indexes_commitBatch] at hi
  rcases Option.or_eq_some_iff.mp hi with hi | ⟨-, hi⟩
  · obtain ⟨data, hd, hs⟩ := h.indexes id index hi
    exact ⟨data, by rw [Remote.get?_packs_commitBatch, hd]; rfl, hs⟩
  · obtain ⟨object, hf, rfl⟩ := Option.map_eq_some_iff.mp hi
    obtain rfl : object.id = id := of_decide_eq_true (List.find?_some hf :)
    obtain ⟨pack, hp, hid, hs⟩ := hb.indexes object (List.mem_of_find?_eq_some hf)
    -- a pack of that id is there by now, and its bytes can only be these
    cases hd : (remote.commitBatch batch).packs[object.id]? with
    | some data =>
      have hdata : data = pack.data := hinj ((hpacks _ _ hd).symm.trans (hid ▸ hs.name))
      exact ⟨data, rfl, hdata ▸ hid ▸ hs⟩
    | none =>
      rw [Remote.get?_packs_commitBatch, Option.or_eq_none_iff, Option.map_eq_none_iff,
        List.find?_eq_none] at hd
      exact absurd (decide_eq_true hid) (hd.2 pack hp)

omit [Crates] in
theorem get?_foldl_erase {ids : List String} {m : Map String β} {id : String} :
    (ids.foldl (fun m id => m.erase id) m)[id]? = if id ∈ ids then none else m[id]? := by
  induction ids generalizing m with
  | nil => simp
  | cons first ids ih =>
    rw [List.foldl_cons, ih, Map.get?_erase]
    by_cases h : first = id
    · simp [h]
    · by_cases hin : id ∈ ids <;> simp [h, hin, Ne.symm h]

theorem Remote.Stocked.deletePackObjects (h : remote.Stocked) (ids : List String) :
    (remote.deletePackObjects ids).Stocked := by
  refine ⟨fun id data hd => ?_, fun id index hi => ?_⟩
  · rw [Remote.deletePackObjects, get?_foldl_erase] at hd
    split at hd
    · cases hd
    · exact h.packs id data hd
  · rw [Remote.deletePackObjects, get?_foldl_erase] at hi
    split at hi
    · cases hi
    · next hid =>
      obtain ⟨data, hd, hs⟩ := h.indexes id index hi
      refine ⟨data, ?_, hs⟩
      rw [Remote.deletePackObjects, get?_foldl_erase, if_neg hid]
      exact hd

theorem newChunks_digested (hcdc : FastcdcTiles) {files : List Bytes}
    {existing : List ChunkLocation} :
    ∀ chunk ∈ newChunks (chunksOf files) existing, Digested chunk := by
  intro chunk hc
  obtain ⟨data, -, hd⟩ := List.mem_flatMap.mp (List.mem_filter.mp hc).1
  exact chunkData_cut hcdc hd

theorem MadeBatch.packed {S : Setting} {h : List SyncEvent} {s : RuntimeState} {files : List Bytes}
    {existing : List ChunkLocation} (hb : MadeBatch S h s files existing batch)
    (hcdc : FastcdcTiles) : batch.Packed := by
  have hdigested : ∀ chunk ∈ newChunks (chunksOf files) existing, Digested chunk :=
    newChunks_digested hcdc
  have hsealed := (buildPacks_sealed hdigested).1
  refine ⟨fun pack hp => ?_, fun index hi => ?_⟩
  · rw [hb.packs] at hp
    obtain ⟨built, hbuilt, rfl⟩ := List.mem_map.mp hp
    exact (hsealed built hbuilt).name
  · rw [hb.indexes] at hi
    obtain ⟨built, hbuilt, rfl⟩ := List.mem_map.mp hi
    refine ⟨⟨built.1, built.2.1⟩, ?_, rfl, hsealed built hbuilt⟩
    rw [hb.packs]
    exact List.mem_map_of_mem hbuilt

end Batch

section Worlds

variable [Crates] {S : Setting} {w w' : World} {c : String}

/-- How a step can change the packs and indexes. -/
theorem World.step_stock {l : Label} (hs : w.step S l = some w') :
    (w'.remote.packs = w.remote.packs ∧ w'.remote.indexes = w.remote.indexes) ∨
      (∃ c s batch k, l = .answer c .serve ∧ (w.clients c).prog = .call s (.commitBatch batch) k ∧
        w'.remote = w.remote.commitBatch batch) ∨
      ∃ c s ids k, l = .answer c .serve ∧ (w.clients c).prog = .call s (.deletePackObjects ids) k ∧
        w'.remote = w.remote.deletePackObjects ids := by
  cases l with
  | start c command =>
    rw [World.step] at hs
    split at hs
    · obtain rfl := Option.some.inj hs
      exact Or.inl ⟨rfl, rfl⟩
    · cases hs
  | edit c key file | crash c =>
    obtain rfl := Option.some.inj hs
    exact Or.inl ⟨rfl, rfl⟩
  | answer c a =>
    obtain ⟨s, q, k, r, w₁, hp, hr, rfl⟩ := World.answer_cases hs
    cases a with
    | fail error =>
      simp only [World.respond, Option.map_eq_some_iff, Prod.mk.injEq] at hr
      obtain ⟨_, -, -, rfl⟩ := hr
      exact Or.inl ⟨rfl, rfl⟩
    | serve =>
      cases q with
      | commitBatch batch =>
        cases hr
        exact Or.inr (Or.inl ⟨c, s, batch, k, rfl, hp, rfl⟩)
      | deletePackObjects ids =>
        cases hr
        exact Or.inr (Or.inr ⟨c, s, ids, k, rfl, hp, rfl⟩)
      | scanCatalog request =>
        simp only [World.respond] at hr
        split at hr
        · cases hr
          exact Or.inl ⟨rfl, rfl⟩
        · cases hr
          exact Or.inl ⟨rfl, rfl⟩
      | loadCommits ids =>
        simp only [World.respond] at hr
        split at hr
        · cases hr
          exact Or.inl ⟨rfl, rfl⟩
        · cases hr
          exact Or.inl ⟨rfl, rfl⟩
      | _ => cases hr <;> exact Or.inl ⟨rfl, rfl⟩
    | _ =>
      cases q <;> cases hr
      all_goals exact Or.inl ⟨rfl, rfl⟩

/-- Every batch that a client is about to publish belongs together. -/
theorem World.Relies.packed (h : w.Relies S) (hcdc : FastcdcTiles) {s : RuntimeState}
    {batch : CommitBatch} {k : Except SyncError Unit → Prog host RuntimeState (Except SyncError Unit)}
    (hcall : (w.clients c).prog = .call s (.commitBatch batch) k) : batch.Packed := by
  obtain ⟨files, existing, hmade⟩ := h.publishes hcall
  exact hmade.packed hcdc

variable {ok : World → Label → Prop}

theorem World.Relies.stocked (hinj : Function.Injective (blake3 : Bytes → String))
    (hcdc : FastcdcTiles) (h : w.Relies S) {l : Label} (hs : w.step S l = some w')
    (hst : w.remote.Stocked) : w'.remote.Stocked := by
  rcases World.step_stock hs with ⟨hp, hi⟩ | ⟨c, s, batch, k, -, hcall, e⟩ |
    ⟨c, s, ids, k, -, -, e⟩
  · refine ⟨fun id data hd => hst.packs id data (hp ▸ hd), fun id index hx => ?_⟩
    rw [hp]
    exact hst.indexes id index (hi ▸ hx)
  · rw [e]
    exact hst.commitBatch hinj (h.packed hcdc hcall)
  · rw [e]
    exact hst.deletePackObjects ids

/-- The stock is in order in every run. -/
theorem World.Reachable.stocked (hinj : Function.Injective (blake3 : Bytes → String))
    (hcdc : FastcdcTiles) (h : w.Reachable S ok) : w.remote.Stocked := by
  induction h with
  | refl => exact ⟨by simp, by simp⟩
  | tail hv hstep ih =>
    obtain ⟨l, -, hs⟩ := hstep
    exact (World.Reachable.relies hv).stocked hinj hcdc hs ih

theorem reassemble_binarySnapshot {remote : Remote} (h : remote.Stocked)
    (hinj : Function.Injective (blake3 : Bytes → String)) (hcdc : FastcdcTiles) {data : Bytes}
    (hlisted : ∀ hash ∈ (binarySnapshot data).chunkHashes, remote.Listed hash) :
    remote.reassemble (binarySnapshot data).chunkHashes = .ok data := by
  have hhashes : (binarySnapshot data).chunkHashes = ((chunkData data).map Prod.snd).map blake3 := by
    rw [binarySnapshot, ResourceChange.chunkHashes, List.map_map]
    exact List.map_congr_left fun chunk hc => (chunkData_cut hcdc hc).hash
  rw [hhashes] at hlisted ⊢
  rw [h.reassemble hinj fun part hp => hlisted _ (List.mem_map_of_mem hp),
    flatten_chunkData hcdc]

/-- The chunks of a batch can be looked up and read back, as the files that were published,
exactly when each of them is listed or in a pack whose index is written. -/
theorem World.batch_recoverable (hinj : Function.Injective (blake3 : Bytes → String))
    (hcdc : FastcdcTiles) (h : w.Reachable S ok) {s : RuntimeState} {batch : CommitBatch}
    {k : Except SyncError Unit → Prog host RuntimeState (Except SyncError Unit)}
    (hcall : (w.clients c).prog = .call s (.commitBatch batch) k)
    (hstep : w.step S (.answer c .serve) = some w') :
    (∀ x ∈ batch.commits, x.change.snapshot?.isSome → ∃ data, x.change = binarySnapshot data ∧
      (∀ hash ∈ x.change.chunkHashes,
        hash ∈ (w'.remote.lookupChunks x.change.chunkHashes).map ChunkLocation.hash) ∧
      w'.remote.reassemble x.change.chunkHashes = .ok data) ↔ batch.Lodges w.remote := by
  have hremote : w'.remote = w.remote.commitBatch batch := by
    obtain ⟨s', q, k', r, w₁, hp, hr, rfl⟩ := World.answer_cases hstep
    rw [hcall] at hp
    cases hp
    cases hr
    rfl
  have hstocked : w'.remote.Stocked := by
    rw [hremote]
    exact (h.stocked hinj hcdc).commitBatch hinj (h.relies.packed hcdc hcall)
  have hlisted : batch.Lodges w.remote ↔ ∀ x ∈ batch.commits, ∀ hash ∈ x.change.chunkHashes,
      w'.remote.Listed hash := by
    simp only [hremote, Remote.listed_commitBatch]
    rfl
  rw [hlisted]
  constructor
  · intro hread x hx hash hh
    have hsome : x.change.snapshot?.isSome := by
      cases hc : x.change with
      | binarySnapshot => rfl
      | textDelta | delete =>
        rw [hc] at hh
        cases hh
    obtain ⟨data, -, hfound, -⟩ := hread x hx hsome
    exact (Remote.mem_lookupChunks hh).mp (hfound hash hh)
  · intro hall x hx hsome
    obtain ⟨files, existing, hmade⟩ := h.relies.publishes hcall
    obtain ⟨data, -, hdata⟩ := (hmade.commits x hx).binary hsome
    refine ⟨data, hdata, fun hash hh => (Remote.mem_lookupChunks hh).mpr (hall x hx hash hh), ?_⟩
    rw [hdata]
    refine reassemble_binarySnapshot hstocked hinj hcdc fun hash hh => hall x hx hash ?_
    rw [hdata]
    exact hh

/-- Nobody starts a maintenance. -/
def World.Unmaintained (_ : World) : Label → Prop
  | .start _ (.maintain _) => False
  | _ => True

instance (w : World) : DecidablePred w.Unmaintained := fun l => by
  unfold World.Unmaintained
  split <;> infer_instance

end Worlds

section Scripts

open Sample

attribute [local instance] crates

theorem cuts_tiles {limit : Nat} (hpos : 0 < limit) {fuel start rest : Nat} (hfuel : rest ≤ fuel) :
    Tiles limit start (start + rest) (cuts limit fuel start rest) := by
  induction fuel generalizing start rest with
  | zero =>
    obtain rfl : rest = 0 := by omega
    exact .nil
  | succ fuel ih =>
    rw [cuts]
    split
    · next hzero =>
      subst hzero
      exact .nil
    · split
      · next hzero hle =>
        exact .cons (by omega) hle .nil
      · next hzero hle =>
        refine .cons hpos le_rfl ?_
        rw [show start + rest = start + limit + (rest - limit) by omega]
        exact ih (by omega)

theorem fastcdcTiles : FastcdcTiles := by
  intro data
  have h : Tiles maxSize 0 (0 + data.length) (cuts maxSize data.length 0 data.length) :=
    cuts_tiles (by decide) data.length.le_refl
  rwa [Nat.zero_add] at h

/-- One client that is about to publish its first two files. -/
theorem World.batch_recoverable_first : ∃ w w' batch,
    World.Reachable {} World.Unmaintained w ∧ batchOf w "A" = some batch ∧
      w.step {} (.answer "A" .serve) = some w' ∧ batch.commits.length = 2 ∧
      ∀ x ∈ batch.commits, x.change.snapshot?.isSome → ∃ data, x.change = binarySnapshot data ∧
        (∀ hash ∈ x.change.chunkHashes,
          hash ∈ (w'.remote.lookupChunks x.change.chunkHashes).map ChunkLocation.hash) ∧
        w'.remote.reassemble x.change.chunkHashes = .ok data := by
  obtain ⟨w, hw, hp⟩ := exists_reachable {} World.Unmaintained
    [.step (.edit "A" (key "a") (text "a" "t2")), .step (.edit "A" (key "b") (text "b" "t3")),
      .step (.start "A" (.reconcile ⟨["s"]⟩)), .answers "A" 8]
    (fun w => (w.step {} (.answer "A" .serve)).isSome ∧ (batchOf w "A").any fun batch =>
      batch.commits.length = 2 ∧ ∀ x ∈ batch.commits, ∀ hash ∈ x.change.chunkHashes,
        ∃ index ∈ batch.indexes, batch.Lands w.remote index ∧ index.data.Lists hash)
    (by decide +kernel)
  obtain ⟨hstep, hbatch⟩ := of_decide_eq_true hp
  obtain ⟨w', hstep⟩ := Option.isSome_iff_exists.mp hstep
  obtain ⟨batch, hb, hlodges⟩ := (Option.any_eq_true _ _).mp hbatch
  obtain ⟨htwo, hlodges⟩ := of_decide_eq_true hlodges
  obtain ⟨s, k, hcall⟩ := call_of_batchOf hb
  refine ⟨w, w', batch, hw, hb, hstep, htwo, ?_⟩
  exact (World.batch_recoverable hex_injective fastcdcTiles hw hcall hstep).mpr
    fun x hx hash hh => Or.inr (hlodges x hx hash hh)

/-- The bytes of two small files, one after the other, are a pack that is stored already:
its index lists one chunk of twice the size, and the new index is dropped. -/
theorem World.batch_loses_chunks : ∃ w w' batch x,
    World.Reachable {} World.Unmaintained w ∧ batchOf w "A" = some batch ∧
      w.step {} (.answer "A" .serve) = some w' ∧ x ∈ batch.commits ∧
      x.change = binarySnapshot (textBytes "a") ∧
      w'.remote.lookupChunks x.change.chunkHashes = [] ∧
      (w'.remote.reassemble x.change.chunkHashes).toOption = none := by
  obtain ⟨w, hw, hp⟩ := exists_reachable {} World.Unmaintained
    (upload "A" "c" "ab" "t1" ++
      [.step (.edit "A" (key "a") (text "a" "t2")), .step (.edit "A" (key "b") (text "b" "t3")),
        .step (.start "A" (.reconcile ⟨["s"]⟩)), .answers "A" 8])
    (fun w => (w.step {} (.answer "A" .serve)).any fun w' => (batchOf w "A").any fun batch =>
      batch.commits.any fun x =>
        x.change.snapshot? = some (blake3 (textBytes "a"), (textBytes "a").length) ∧
        x.change.chunkHashes = (binarySnapshot (textBytes "a")).chunkHashes ∧
        w'.remote.lookupChunks x.change.chunkHashes = [] ∧
        (w'.remote.reassemble x.change.chunkHashes).toOption = none)
    (by decide +kernel)
  obtain ⟨w', hstep, hp⟩ := (Option.any_eq_true _ _).mp hp
  obtain ⟨batch, hb, hp⟩ := (Option.any_eq_true _ _).mp hp
  obtain ⟨x, hx, hp⟩ := List.any_eq_true.mp hp
  obtain ⟨hid, hhashes, hfound, hread⟩ := of_decide_eq_true hp
  refine ⟨w, w', batch, x, hw, hb, hstep, hx, ?_, hfound, hread⟩
  cases hc : x.change with
  | binarySnapshot contentId size hashes =>
    rw [hc] at hid hhashes
    obtain ⟨rfl, rfl⟩ := Prod.mk.inj (Option.some.inj hid)
    rw [show hashes = _ from hhashes]
    rfl
  | textDelta | delete =>
    rw [hc] at hid
    cases hid

end Scripts

end Rollforward
