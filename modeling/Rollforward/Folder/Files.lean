import Rollforward.Storage.Recovery

/-! `commit_batch` and `delete_pack_objects`, one file operation after the other.  A temporary
file stands in the directory of the object that it becomes, where `files_recursive` lists it. -/

namespace Rollforward

open Std Lib

/-- `Path::file_stem`. -/
def fileStem (name : String) : String :=
  match name.toList.reverse.dropWhile fun char => char ≠ '.' with
  | [] => name
  | _ :: stem => if stem = [] then name else String.ofList stem.reverse

/-- `path.with_extension(format!("tmp-{}", process))`. -/
def tempName (name : String) (process : Nat) : String :=
  fileStem name ++ ("." ++ ("tmp-" ++ toString process))

theorem dot_mem_tempName (name : String) (process : Nat) :
    '.' ∈ (tempName name process).toList := by
  simp [tempName]

theorem ne_tempName {id name : String} {process : Nat} (h : '.' ∉ id.toList) :
    id ≠ tempName name process := by
  rintro rfl
  exact h (dot_mem_tempName name process)

section Operations

variable [Crates]

/-- What `write_immutable` writes. -/
inductive StoredObject
  | pack (pack : PackObject)
  | index (index : PackIndexObject)
  | commit (commit : Commit)
  | segment (segment : CatalogSegment)

inductive FileOp
  | writeTemp (object : StoredObject)
  | rename (object : StoredObject)
  | removePack (id : String)
  | removeIndex (id : String)

namespace Remote

/-- `path.exists()`. -/
def stores (remote : Remote) : StoredObject → Bool
  | .pack pack => remote.packs[pack.id]?.isSome
  | .index index => remote.indexes[index.id]?.isSome
  | .commit commit => (remote.commits.get? commit.id).isSome
  | .segment segment => segment ∈ remote.segments

/-- A temporary pack or index stands beside the finished ones under a name of its own.  That of
a commit is read by nobody.  That of a segment is read as the segment itself is. -/
def writeTemp (process : Nat) (remote : Remote) : StoredObject → Remote
  | .pack pack =>
    { remote with packs := remote.packs.insert (tempName pack.id process) pack.data }
  | .index index =>
    { remote with indexes := remote.indexes.insert (tempName index.id process) index.data }
  | .commit _ => remote
  | .segment segment => { remote with segments := writeSegment remote.segments segment }

def rename (process : Nat) (remote : Remote) : StoredObject → Remote
  | .pack pack =>
    { remote with
      packs := (remote.packs.erase (tempName pack.id process)).insert pack.id pack.data }
  | .index index =>
    { remote with
      indexes := (remote.indexes.erase (tempName index.id process)).insert index.id index.data }
  | .commit commit => { remote with commits := writeCommit remote.commits commit }
  | .segment segment => { remote with segments := writeSegment remote.segments segment }

/-- An object that is there is not written again. -/
def fileStep (process : Nat) (remote : Remote) : FileOp → Remote
  | .writeTemp object => if remote.stores object then remote else remote.writeTemp process object
  | .rename object => if remote.stores object then remote else remote.rename process object
  | .removePack id => { remote with packs := remote.packs.erase id }
  | .removeIndex id => { remote with indexes := remote.indexes.erase id }

def runOps (process : Nat) (remote : Remote) (ops : List FileOp) : Remote :=
  ops.foldl (fileStep process) remote

end Remote

def writeOps (objects : List StoredObject) : List FileOp :=
  objects.flatMap fun object => [.writeTemp object, .rename object]

/-- The objects of a batch in the order they are written. -/
def CommitBatch.objects (batch : CommitBatch) : List StoredObject :=
  batch.packs.map .pack ++ (batch.indexes.map .index ++ (batch.commits.map .commit ++
    (Remote.batchSegments batch.commits).map .segment))

/-- Failed removals are passed over. -/
def deleteOps (ids : List String) : List FileOp :=
  ids.flatMap fun id => [.removePack id, .removeIndex id]

end Operations

section Whole

variable [Crates] {remote : Remote} {process : Nat}

namespace Remote

/-- The object as `commitBatch` writes it. -/
def write (remote : Remote) : StoredObject → Remote
  | .pack pack => { remote with packs := writePack remote.packs pack }
  | .index index => { remote with indexes := writeIndex remote.indexes index }
  | .commit commit => { remote with commits := writeCommit remote.commits commit }
  | .segment segment => { remote with segments := writeSegment remote.segments segment }

/-- Writing objects of one kind changes one field. -/
theorem foldl_write (field : Remote → γ) (set : Remote → γ → Remote)
    (object : α → StoredObject) {f : γ → α → γ} (hwrite : ∀ remote a, write remote (object a) = set remote (f (field remote) a))
    (hfield : ∀ remote v, field (set remote v) = v)
    (hset : ∀ remote v v', set (set remote v) v' = set remote v')
    (hself : ∀ remote, set remote (field remote) = remote) (xs : List α) (remote : Remote) :
    (xs.map object).foldl write remote = set remote (xs.foldl f (field remote)) := by
  induction xs generalizing remote with
  | nil => exact (hself remote).symm
  | cons x xs ih => rw [List.map_cons, List.foldl_cons, ih, hwrite, hfield, hset, List.foldl_cons]

theorem commitBatch_eq_foldl (batch : CommitBatch) :
    remote.commitBatch batch = batch.objects.foldl write remote := by
  have hpacks := foldl_write (f := writePack) packs (fun remote packs => { remote with packs })
    .pack (fun _ _ => rfl) (fun _ _ => rfl) (fun _ _ _ => rfl) fun _ => rfl
  have hindexes := foldl_write (f := writeIndex) indexes
    (fun remote indexes => { remote with indexes })
    .index (fun _ _ => rfl) (fun _ _ => rfl) (fun _ _ _ => rfl) fun _ => rfl
  have hcommits := foldl_write (f := writeCommit) commits
    (fun remote commits => { remote with commits })
    .commit (fun _ _ => rfl) (fun _ _ => rfl) (fun _ _ _ => rfl) fun _ => rfl
  have hsegments := foldl_write (f := writeSegment) segments
    (fun remote segments => { remote with segments })
    .segment (fun _ _ => rfl) (fun _ _ => rfl) (fun _ _ _ => rfl) fun _ => rfl
  rw [CommitBatch.objects, List.foldl_append, List.foldl_append, List.foldl_append, hpacks, hindexes,
    hcommits, hsegments]
  rfl

/-- No temporary file was left behind. -/
structure Tidy (remote : Remote) : Prop where
  packs : ∀ (name : String), remote.packs[name]?.isSome → '.' ∉ name.toList
  indexes : ∀ (name : String), remote.indexes[name]?.isSome → '.' ∉ name.toList

end Remote

/-- Packs and indexes are named by digests. -/
def StoredObject.Plain : StoredObject → Prop
  | .pack object => '.' ∉ object.id.toList
  | .index object => '.' ∉ object.id.toList
  | .commit _ | .segment _ => True

omit [Crates] in
/-- Written under another name first and renamed. -/
theorem Map.insertIfNew_of_temp {m : Map String β} {id temp : String} {value : β}
    (hid : m[id]? = none) (htemp : m[temp]? = none) :
    ((m.insert temp value).erase temp).insert id value = m.insertIfNew id value := by
  apply ExtTreeMap.ext_getElem?
  intro name
  rw [Map.get?_insert, Map.get?_erase, Map.get?_insert, Map.get?_insertIfNew]
  by_cases h : id = name
  · rw [if_pos h, if_pos h, ← h, hid]
    rfl
  · rw [if_neg h, if_neg h]
    by_cases ht : temp = name
    · rw [if_pos ht, ← ht, htemp]
    · rw [if_neg ht, if_neg ht]

namespace Remote

theorem Tidy.get?_packs_temp (h : remote.Tidy) (id : String) (process : Nat) :
    remote.packs[tempName id process]? = none := by
  apply Option.not_isSome_iff_eq_none.mp
  exact fun hsome => h.packs _ hsome (dot_mem_tempName id process)

theorem Tidy.get?_indexes_temp (h : remote.Tidy) (id : String) (process : Nat) :
    remote.indexes[tempName id process]? = none := by
  apply Option.not_isSome_iff_eq_none.mp
  exact fun hsome => h.indexes _ hsome (dot_mem_tempName id process)

omit [Crates] in
theorem insertIfNew_of_isSome {m : Map String β} {id : String} {value : β}
    (h : m[id]?.isSome) : m.insertIfNew id value = m := by
  apply ExtTreeMap.ext_getElem?
  intro name
  rw [Map.get?_insertIfNew]
  split
  · next e =>
    obtain ⟨old, hold⟩ := Option.isSome_iff_exists.mp h
    rw [← e, hold, Option.getD_some]
  · rfl

/-- An object that is there stays as it is. -/
theorem write_of_stores {object : StoredObject} (h : remote.stores object) :
    remote.write object = remote := by
  cases object with
  | pack pack => rw [write, writePack, insertIfNew_of_isSome h]
  | index index => rw [write, writeIndex, insertIfNew_of_isSome h]
  | commit commit =>
    have hsome : (remote.commits.get? commit.id).isSome := h
    rw [write, writeCommit, if_pos hsome]
  | segment segment => rw [write, writeSegment, if_pos (of_decide_eq_true h)]

/-- Both operations together write the object. -/
theorem Tidy.put (h : remote.Tidy) {object : StoredObject} (hplain : object.Plain) :
    fileStep process (fileStep process remote (.writeTemp object)) (.rename object) =
      remote.write object := by
  by_cases hs : remote.stores object
  · rw [fileStep, if_pos hs, fileStep, if_pos hs, write_of_stores hs]
  · rw [fileStep, if_neg hs]
    cases object with
    | pack pack =>
      have hid : remote.packs[pack.id]? = none := Option.not_isSome_iff_eq_none.mp hs
      rw [fileStep, if_neg]
      · rw [writeTemp, rename, write, writePack, ← Map.insertIfNew_of_temp hid
          (h.get?_packs_temp pack.id process)]
      · rw [stores, writeTemp, Map.get?_insert, if_neg (ne_tempName hplain).symm, hid]
        exact Bool.false_ne_true
    | index index =>
      have hid : remote.indexes[index.id]? = none := Option.not_isSome_iff_eq_none.mp hs
      rw [fileStep, if_neg]
      · rw [writeTemp, rename, write, writeIndex, ← Map.insertIfNew_of_temp hid
          (h.get?_indexes_temp index.id process)]
      · rw [stores, writeTemp, Map.get?_insert, if_neg (ne_tempName hplain).symm, hid]
        exact Bool.false_ne_true
    | commit commit => rw [fileStep, writeTemp, if_neg hs, rename, write]
    | segment segment =>
      have hstored : (remote.writeTemp process (.segment segment)).stores (.segment segment) := by
        apply decide_eq_true
        rw [writeTemp, writeSegment]
        split
        · assumption
        · exact List.mem_append_right _ List.mem_cons_self
      rw [fileStep, if_pos hstored, writeTemp, write]

theorem Tidy.write (h : remote.Tidy) {object : StoredObject} (hplain : object.Plain) :
    (remote.write object).Tidy := by
  cases object with
  | pack pack =>
    refine ⟨fun name hname => ?_, h.indexes⟩
    rw [Remote.write, writePack, Map.get?_insertIfNew] at hname
    split at hname
    · next e => exact e ▸ hplain
    · exact h.packs name hname
  | index index =>
    refine ⟨h.packs, fun name hname => ?_⟩
    rw [Remote.write, writeIndex, Map.get?_insertIfNew] at hname
    split at hname
    · next e => exact e ▸ hplain
    · exact h.indexes name hname
  | commit commit | segment segment => exact ⟨h.packs, h.indexes⟩

/-- Writing objects one file operation after the other. -/
theorem Tidy.runOps (h : remote.Tidy) {objects : List StoredObject}
    (hplain : ∀ object ∈ objects, object.Plain) :
    remote.runOps process (writeOps objects) = objects.foldl Remote.write remote := by
  induction objects generalizing remote with
  | nil => rfl
  | cons object objects ih =>
    obtain ⟨hobject, hobjects⟩ := List.forall_mem_cons.mp hplain
    rw [List.foldl_cons, ← ih (h.write hobject) hobjects, ← h.put hobject]
    rfl

/-- Not cut, the call does what it does as a whole. -/
theorem Tidy.runOps_objects (h : remote.Tidy) {batch : CommitBatch}
    (hplain : ∀ object ∈ batch.objects, object.Plain) :
    remote.runOps process (writeOps batch.objects) = remote.commitBatch batch := by
  rw [h.runOps hplain, commitBatch_eq_foldl]

end Remote

end Whole

end Rollforward
