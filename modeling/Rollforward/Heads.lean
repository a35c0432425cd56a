import Rollforward.Lib.History
import Rollforward.State

/-! Heads, and what is read off them, depend only on the set of commits held. -/

namespace Rollforward

open Std Lib

/-- `y` was made over `x`. -/
def Commit.Over [Yrs] (x y : Commit) : Prop := y.resource = x.resource ∧ x.id ∈ y.parents

instance [Yrs] (x y : Commit) : Decidable (x.Over y) := inferInstanceAs (Decidable (_ ∧ _))

variable [Crates]

namespace RuntimeState

def held (s : RuntimeState) : Set Commit := { x | x ∈ s.commits }

variable {s t : RuntimeState} {key : ResourceKey}

theorem mem_heads_iff_isHead {id : String} :
    id ∈ s.heads key ↔ ∃ x, IsHead Commit.Over s.held x ∧ x.resource = key ∧ x.id = id := by
  rw [mem_heads]
  constructor
  · rintro ⟨⟨x, hx, rfl, rfl⟩, hno⟩
    exact ⟨x, ⟨hx, fun y hy hxy => hno y hy hxy.1 hxy.2⟩, rfl, rfl⟩
  · rintro ⟨x, ⟨hx, hno⟩, rfl, rfl⟩
    exact ⟨⟨x, hx, rfl, rfl⟩, fun y hy hr hp => hno y hy ⟨hr, hp⟩⟩

theorem heads_sorted (s : RuntimeState) (key : ResourceKey) :
    (s.heads key).Pairwise fun a b => compare a b = .lt := by
  refine List.Pairwise.filter _ (List.pairwise_map.mpr ?_)
  exact s.commits.values_sorted.filter _

theorem heads_congr (h : ∀ x : Commit, x.resource = key →
    (IsHead Commit.Over s.held x ↔ IsHead Commit.Over t.held x)) : s.heads key = t.heads key := by
  have : Std.Irrefl fun a b : String => compare a b = .lt := ⟨fun a h => by simp at h⟩
  have : Std.Antisymm fun a b : String => compare a b = .lt :=
    ⟨fun a b hab hba => by rw [OrientedCmp.gt_of_lt hab] at hba; cases hba⟩
  refine List.Pairwise.eq_of_mem_iff (heads_sorted s key) (heads_sorted t key) ?_
  intro id
  rw [mem_heads_iff_isHead, mem_heads_iff_isHead]
  constructor
  · rintro ⟨x, hx, hr, hid⟩
    exact ⟨x, (h x hr).mp hx, hr, hid⟩
  · rintro ⟨x, hx, hr, hid⟩
    exact ⟨x, (h x hr).mpr hx, hr, hid⟩

theorem headChanges_congr (h : ∀ x : Commit, x.resource = key →
    (IsHead Commit.Over s.held x ↔ IsHead Commit.Over t.held x)) :
    s.headChanges key = t.headChanges key := by
  have hheads := heads_congr h
  rw [headChanges, headChanges, ← hheads]
  apply List.filterMap_congr
  intro id hid
  obtain ⟨x, hx, hr, rfl⟩ := mem_heads_iff_isHead.mp hid
  rw [KeyedMap.mem_def.mp hx.1, KeyedMap.mem_def.mp ((h x hr).mp hx).1]

theorem textDoc_congr (h : ∀ x : Commit, x.resource = key → x.change.isText = true →
    (x ∈ s.commits ↔ x ∈ t.commits)) : s.textDoc key = t.textDoc key := by
  have hfilter : ∀ u : RuntimeState, (u.resourceCommits key).filterMap textDelta? =
      (u.commits.values.filter fun x => x.resource = key ∧ x.change.isText = true).filterMap
        textDelta? := by
    intro u
    rw [resourceCommits, List.filterMap_filter, List.filterMap_filter]
    apply List.filterMap_congr
    intro x _
    by_cases hr : x.resource = key
    · cases hc : x.change <;> simp [hr, hc, textDelta?, ResourceChange.isText]
    · simp [hr]
  rw [textDoc, textDoc, hfilter s, hfilter t, KeyedMap.filter_values_congr]
  intro x hx
  simp only [decide_eq_true_eq] at hx
  exact h x hx.1 hx.2

/-- The remote state is known from the heads and the text of the resource. -/
theorem remoteState_congr
    (hheads : ∀ x : Commit, x.resource = key →
      (IsHead Commit.Over s.held x ↔ IsHead Commit.Over t.held x))
    (htext : ∀ x : Commit, x.resource = key → x.change.isText = true →
      (x ∈ s.commits ↔ x ∈ t.commits)) : s.remoteState key = t.remoteState key := by
  simp only [remoteState, heads_congr hheads, headChanges_congr hheads, textDoc_congr htext]

theorem heads_of_commits (h : t.commits = s.commits) (key : ResourceKey) :
    t.heads key = s.heads key := by
  apply heads_congr
  intro x _
  rw [held, held, h]

theorem textDoc_of_commits (h : t.commits = s.commits) (key : ResourceKey) :
    t.textDoc key = s.textDoc key := by
  apply textDoc_congr
  intro x _ _
  rw [h]

theorem remoteState_of_commits (h : t.commits = s.commits) (key : ResourceKey) :
    t.remoteState key = s.remoteState key := by
  apply remoteState_congr
  · intro x _
    rw [held, held, h]
  · intro x _ _
    rw [h]

theorem mem_headChanges {change : ResourceChange} : change ∈ s.headChanges key ↔
    ∃ x, IsHead Commit.Over s.held x ∧ x.resource = key ∧ x.change = change := by
  simp only [headChanges, List.mem_filterMap, mem_heads_iff_isHead]
  constructor
  · rintro ⟨_, ⟨x, hx, hr, rfl⟩, hc⟩
    rw [KeyedMap.mem_def.mp hx.1] at hc
    exact ⟨x, hx, hr, Option.some.inj hc⟩
  · rintro ⟨x, hx, hr, rfl⟩
    exact ⟨x.id, ⟨x, hx, hr, rfl⟩, by rw [KeyedMap.mem_def.mp hx.1]; rfl⟩

theorem headChanges_length (s : RuntimeState) (key : ResourceKey) :
    (s.headChanges key).length = (s.heads key).length := by
  rw [headChanges, List.length_filterMap_eq_countP, List.countP_eq_length]
  intro id hid
  rw [Option.isSome_map]
  exact isSome_of_mem_heads hid

/-- What the heads of a resource are when its remote state is read. -/
inductive Shows (s : RuntimeState) (key : ResourceKey) : RemoteResourceState → Prop
  | missing (none : s.heads key = []) : Shows s key .missing
  | deleted (some : s.heads key ≠ [])
      (all : ∀ x, IsHead Commit.Over s.held x → x.resource = key → x.change = .delete) :
      Shows s key (.deleted (s.heads key))
  | text {doc} (some : s.heads key ≠ [])
      (all : ∀ x, IsHead Commit.Over s.held x → x.resource = key → x.change.isText = true)
      (read : s.textDoc key = .ok doc) :
      Shows s key (.mkPresent (blake3 (textBytes (TextDoc.content doc)))
        (textBytes (TextDoc.content doc)).length (s.heads key))
  | snapshot {contentId size} (some : s.heads key ≠ [])
      (all : ∀ x, IsHead Commit.Over s.held x → x.resource = key →
        x.change.snapshot? = Option.some (contentId, size)) :
      Shows s key (.mkPresent contentId size (s.heads key))
  | forked : Shows s key (.forked (s.heads key))

omit [Crates] in
theorem filterMap_eq_all {f : α → Option β} {xs : List α} {b : β} {bs : List β}
    (h : xs.filterMap f = b :: bs) (hlen : bs.length + 1 = xs.length) (hall : ∀ c ∈ bs, c = b) :
    ∀ x ∈ xs, f x = some b := by
  have hsome : ∀ x ∈ xs, (f x).isSome := by
    rw [← List.countP_eq_length, ← List.length_filterMap_eq_countP, h]
    exact hlen
  intro x hx
  obtain ⟨c, hc⟩ := Option.isSome_iff_exists.mp (hsome x hx)
  have hmem : c ∈ b :: bs := h ▸ List.mem_filterMap.mpr ⟨x, hx, hc⟩
  rw [hc, (List.mem_cons.mp hmem).elim id (hall c)]

theorem shows_of_remoteState {remote : RemoteResourceState} (h : s.remoteState key = .ok remote) :
    s.Shows key remote := by
  simp only [remoteState] at h
  split at h
  · next hnil =>
    obtain rfl := Except.ok.inj h
    exact .missing hnil
  next hsome =>
  split at h
  · next hall =>
    obtain rfl := Except.ok.inj h
    refine .deleted hsome fun x hx hr => ?_
    have := List.all_eq_true.mp hall _ (mem_headChanges.mpr ⟨x, hx, hr, rfl⟩)
    cases hc : x.change <;> simp [hc, ResourceChange.isDelete] at this
    rfl
  split at h
  · next hall =>
    cases hdoc : s.textDoc key with
    | error e => simp [hdoc, bind, Except.bind] at h
    | ok doc =>
      simp only [hdoc, bind, Except.bind, pure, Except.pure] at h
      obtain rfl := Except.ok.inj h
      refine .text hsome (fun x hx hr => ?_) hdoc
      exact List.all_eq_true.mp hall _ (mem_headChanges.mpr ⟨x, hx, hr, rfl⟩)
  split at h
  · obtain rfl := Except.ok.inj h
    exact .forked
  · next first rest hfirst =>
    split at h
    · next heq =>
      obtain rfl := Except.ok.inj h
      refine .snapshot hsome fun x hx hr => ?_
      exact filterMap_eq_all hfirst heq.1 heq.2 _ (mem_headChanges.mpr ⟨x, hx, hr, rfl⟩)
    · obtain rfl := Except.ok.inj h
      exact .forked

/-- What a head of a binary resource is when the remote state says `present`. -/
theorem Shows.snapshot_of_head {contentId : String} {size : Nat}
    {heads : List String} (h : s.Shows key (.present contentId size heads)) {y : Commit}
    (hy : IsHead Commit.Over s.held y) (hres : y.resource = key) (hbin : y.change.isText = false) :
    ∃ size chunkHashes, y.change = .binarySnapshot contentId size chunkHashes := by
  generalize hr : RemoteResourceState.present contentId size heads = r at h
  cases h with
  | missing | deleted | forked => cases hr
  | text _ all =>
    rw [all y hy hres] at hbin
    cases hbin
  | snapshot _ all =>
    obtain ⟨rfl, -⟩ := RemoteResourceState.present.inj hr
    have hall := all y hy hres
    cases hchange : y.change with
    | binarySnapshot id n hashes =>
      rw [hchange] at hall
      obtain ⟨rfl, rfl⟩ := Prod.mk.inj (Option.some.inj hall)
      exact ⟨_, _, rfl⟩
    | textDelta => rw [hchange] at hall; cases hall
    | delete => rw [hchange] at hall; cases hall

theorem Shows.delete_of_head {heads : List String}
    (h : s.Shows key (.deleted heads)) {y : Commit} (hy : IsHead Commit.Over s.held y)
    (hres : y.resource = key) : y.change = .delete := by
  generalize hr : RemoteResourceState.deleted heads = r at h
  cases h with
  | deleted _ all => exact all y hy hres
  | missing | forked | text | snapshot => cases hr

theorem Shows.no_head (h : s.Shows key .missing) {y : Commit}
    (hy : IsHead Commit.Over s.held y) (hres : y.resource = key) : False := by
  generalize hr : RemoteResourceState.missing = r at h
  cases h with
  | missing none =>
    have hin := mem_heads_iff_isHead.mpr ⟨y, hy, hres, rfl⟩
    rw [none] at hin
    cases hin
  | deleted | forked | text | snapshot => cases hr

end RuntimeState

end Rollforward
