import Rollforward.Graph

/-! A text version is what its author saw: the deltas under a commit are those that its
author held, on every client and at any later time. -/

namespace Rollforward

open Std Lib

section States

variable [Crates] {published : List Commit} {s t : RuntimeState} {key : ResourceKey}

theorem RuntimeState.parentsIn_of_mem {y : Commit} (hy : y ∈ s.commits) :
    s.parentsIn y.resource y.id = y.parents := by
  simp [parentsIn, KeyedMap.mem_def.mp hy, Option.filter_some]

/-- What a state holds of the published commits, parents included. -/
structure RuntimeState.Upright (s : RuntimeState) (published : List Commit) : Prop where
  held : ∀ x ∈ s.commits, x ∈ published
  stands : ∀ x ∈ s.commits, s.Stands x

variable (ids : ∀ x ∈ published, ∀ y ∈ published, y.id = x.id → y = x) (hkin : Kin published)
include ids hkin

theorem RuntimeState.Upright.parent (hs : s.Upright published) {x y : Commit} (hx : x ∈ s.commits)
    (hy : y ∈ published) (hp : y.id ∈ x.parents) : y ∈ s.commits ∧ y.resource = x.resource := by
  obtain ⟨z, hz⟩ := Option.isSome_iff_exists.mp (hs.stands x hx _ hp)
  have hmem := KeyedMap.mem_of_get? hz
  obtain rfl := ids y hy z (hs.held z hmem) (KeyedMap.key_of_get? hz)
  exact ⟨hmem, hkin z hy x (hs.held x hx) hp⟩

/-- The ancestry of a commit is the same wherever the commit is held. -/
theorem RuntimeState.Upright.reaches (hs : s.Upright published) (ht : t.Upright published)
    {k : Commit} (hks : k ∈ s.commits) (hkt : k ∈ t.commits) {id : String}
    (h : Reaches (s.parentsIn k.resource) k.id id) :
    (∃ y ∈ s.commits, y ∈ t.commits ∧ y.resource = k.resource ∧ y.id = id) ∧
      Reaches (t.parentsIn k.resource) k.id id := by
  induction h with
  | refl => exact ⟨⟨k, hks, hkt, rfl, rfl⟩, .refl⟩
  | tail _ hedge ih =>
    obtain ⟨⟨y, hys, hyt, hr, rfl⟩, hreach⟩ := ih
    rw [Edge, ← hr, parentsIn_of_mem hys] at hedge
    obtain ⟨z, hz⟩ := Option.isSome_iff_exists.mp (hs.stands y hys _ hedge)
    have hzs := KeyedMap.mem_of_get? hz
    obtain rfl := KeyedMap.key_of_get? hz
    obtain ⟨hzt, hzr⟩ := ht.parent ids hkin hyt (hs.held z hzs) hedge
    refine ⟨⟨z, hzs, hzt, hzr.trans hr, rfl⟩, hreach.tail ?_⟩
    rw [Edge, ← hr, parentsIn_of_mem hyt]
    exact hedge

/-- Walking all parents or only those of the resource is the same. -/
theorem RuntimeState.Upright.reaches_in (hs : s.Upright published) {k : Commit}
    (hk : k ∈ s.commits) {id : String} (h : Reaches s.parentsOf k.id id) :
    Reaches (s.parentsIn k.resource) k.id id := by
  induction h with
  | refl => exact .refl
  | tail _ hedge ih =>
    refine ih.tail ?_
    obtain ⟨⟨u, hus, -, hur, rfl⟩, -⟩ := hs.reaches ids hkin hs hk hk ih
    rw [Edge, ← hur, parentsIn_of_mem hus]
    obtain ⟨u', hu', hid, hp⟩ := mem_parentsOf.mp hedge
    rwa [KeyedMap.eq_of_mem hu' hus hid] at hp

/-- Where `k` is the only head, the deltas under `k` are all there are; they are found
again wherever `k` is held. -/
theorem RuntimeState.Upright.textDocAt_eq (hground : Grounded published)
    (hs : s.Upright published) (ht : t.Upright published) {k : Commit} (hks : k ∈ s.commits)
    (hkt : k ∈ t.commits) (hhead : s.heads k.resource = [k.id]) :
    t.textDocAt k.resource k.id = s.textDoc k.resource := by
  have hmem : ∀ id, id ∈ t.reachable k.resource k.id ↔
      ∃ y ∈ s.resourceCommits k.resource, y.id = id := by
    intro id
    rw [mem_reachable]
    constructor
    · intro hr
      obtain ⟨⟨y, -, hys, hyr, rfl⟩, -⟩ := ht.reaches ids hkin hs hkt hks hr
      exact ⟨y, mem_resourceCommits.mpr ⟨hys, hyr⟩, rfl⟩
    · rintro ⟨y, hy, rfl⟩
      obtain ⟨hys, hyr⟩ := mem_resourceCommits.mp hy
      obtain ⟨z, hz, hzr, -, hreach⟩ := hground.exists_head hs.held hys
      have hzk : z.id = k.id := by
        have := mem_heads_iff_isHead.mpr ⟨z, hz, hzr, rfl⟩
        rw [hyr, hhead] at this
        exact List.mem_singleton.mp this
      obtain rfl := ids k (hs.held k hks) z (hs.held z hz.1) hzk
      exact (hs.reaches ids hkin ht hks hkt (hs.reaches_in ids hkin hks hreach)).2
  have hsorted : ((t.reachable k.resource k.id).insertionSort (· ≤ ·)) =
      (s.resourceCommits k.resource).map Commit.id := by
    refine eq_of_mem_iff_of_sorted (pairwise_insertionSort_lt (t.reachable_nodup _ _))
      (List.pairwise_map.mpr (s.commits.values_sorted.filter _)) fun id => ?_
    rw [List.mem_insertionSort, hmem, List.mem_map]
  rw [textDocAt, textDoc, hsorted, List.filterMap_map]
  congr 1
  apply List.filterMap_congr
  intro y hy
  obtain ⟨hys, hyr⟩ := mem_resourceCommits.mp hy
  obtain ⟨⟨u, hut, hus, -, hid⟩, -⟩ := ht.reaches ids hkin hs hkt hks
    (mem_reachable.mp ((hmem y.id).mpr ⟨y, hy, rfl⟩))
  obtain rfl := KeyedMap.eq_of_mem hus hys hid
  simp [KeyedMap.mem_def.mp hut]

end States

section Runs

variable [Crates] {S : Setting} {w w₁ w₂ : World} {c d : String}

theorem World.Reachable.upright (hex : ∀ data, ':' ∉ (blake3 data).toList)
    (h : w.Reachable S World.Lossless) (c : String) : (w.memory c).Upright w.published :=
  ⟨(h.inv.clients c).memory, ((h.whole hex).2 c).memory⟩

/-- What an author had when it published a text version is what every client that knows
the version reads back, whatever was published since. -/
theorem World.text_version_fidelity (hex : ∀ data, ':' ∉ (blake3 data).toList)
    (h₁ : w₁.Reachable S World.Lossless)
    (h₂ : Relation.ReflTransGen (World.Next S World.Lossless) w₁ w₂) {k : Commit}
    (hk : k ∈ recordable (w₁.clients c).trace) (hrec : k ∈ (w₁.memory c).commits)
    (htext : k.change.isText = true) {doc : Yrs.Doc}
    (hdoc : (w₁.memory c).textDoc k.resource = .ok doc) (hknows : k ∈ (w₂.memory d).commits) :
    contentForRemote k.resource (some k.id) (w₂.memory d) =
      .done (w₂.memory d) (.ok (textBytes (TextDoc.content doc))) := by
  have hreach₂ : w₂.Reachable S World.Lossless := Relation.ReflTransGen.trans h₁ h₂
  have hsurvives := hreach₂.mono fun _ _ hok => hok.1.1
  have hpub := Net.Run.published (World.Inv.run (P := fun n a => n.Survives a) hex h₁.inv
    (fun _ _ hfree => hfree.survives) (fun _ _ hok => hok.1.1.net) h₂)
  have hs : (w₁.memory c).Upright w₂.published :=
    ⟨fun x hx => hpub x ((h₁.upright hex c).held x hx), (h₁.upright hex c).stands⟩
  have hdocAt := RuntimeState.Upright.textDocAt_eq (World.Reachable.counted hex hsurvives).ids
    (hreach₂.whole hex).1 (hsurvives.grounded hex) hs (hreach₂.upright hex d) hrec hknows
    ((h₁.mono fun _ _ hok => hok.1.1).only_head hex hk hrec)
  cases hchange : k.change with
  | binarySnapshot contentId size chunkHashes => rw [hchange] at htext; cases htext
  | delete => rw [hchange] at htext; cases htext
  | textDelta delta =>
    rw [contentForRemote]
    simp only [Option.some_or, bind, Comp.get, Prog.bind, KeyedMap.mem_def.mp hknows, hchange,
      hdocAt, hdoc, Comp.ofExcept]
    rfl

end Runs

section Scripts

open Sample

attribute [local instance] crates

/-- `B` goes on with the text of `A`; the version of `A` can still be read at `B`. -/
theorem World.text_version_fidelity_edited : ∃ w₁ w₂ k doc,
    World.Reachable texts World.Lossless w₁ ∧
    Relation.ReflTransGen (World.Next texts World.Lossless) w₁ w₂ ∧
    k ∈ recordable (w₁.clients "A").trace ∧ (w₁.memory "A").textDoc k.resource = .ok doc ∧
    content (w₂.memory "B") (key "a") ≠ content (w₁.memory "A") (key "a") ∧
    contentForRemote k.resource (some k.id) (w₂.memory "B") =
      .done (w₂.memory "B") (.ok (textBytes (TextDoc.content doc))) := by
  obtain ⟨w₁, w₂, h₁, h₂, hp⟩ := exists_later texts World.Lossless
    (upload "A" "a" "one" "t1") (sync "B" ++ upload "B" "a" "two" "t2")
    (fun w₁ w₂ => content (w₂.memory "B") (key "a") ≠ content (w₁.memory "A") (key "a") ∧
      (recordable (w₁.clients "A").trace).any fun k => k.change.isText ∧
        ((w₁.memory "A").commits.get? k.id).isSome ∧ ((w₂.memory "B").commits.get? k.id).isSome ∧
        ((w₁.memory "A").textDoc k.resource).toOption.isSome) (by decide +kernel)
  simp only [List.any_eq_true, decide_eq_true_eq] at hp
  obtain ⟨hne, k, hk, htext, hrec, hknows, hdoc⟩ := hp
  have hreach₂ : World.Reachable texts World.Lossless w₂ := Relation.ReflTransGen.trans h₁ h₂
  have hids := (World.Reachable.counted colon_notMem_hex
    (hreach₂.mono fun _ _ hok => hok.1.1)).ids
  have hpub := Net.Run.published (World.Inv.run (P := fun n a => n.Survives a) colon_notMem_hex
    h₁.inv (fun _ _ hfree => hfree.survives) (fun _ _ hok => hok.1.1.net) h₂)
  have hkpub : k ∈ w₂.published :=
    hpub k ((h₁.inv.clients "A").own k (mem_ownCommits_of_recordable hk)).1
  have hmem : ∀ {s : RuntimeState}, (∀ x ∈ s.commits, x ∈ w₂.published) →
      (s.commits.get? k.id).isSome → k ∈ s.commits := by
    intro s hs hsome
    obtain ⟨y, hy⟩ := Option.isSome_iff_exists.mp hsome
    have hy' := KeyedMap.mem_of_get? hy
    rwa [← hids k hkpub y (hs y hy') (KeyedMap.key_of_get? hy)]
  cases hread : (w₁.memory "A").textDoc k.resource with
  | error e => simp [hread, Except.toOption] at hdoc
  | ok doc =>
    refine ⟨w₁, w₂, k, doc, h₁, h₂, hk, hread, hne, ?_⟩
    exact World.text_version_fidelity colon_notMem_hex h₁ h₂ hk
      (hmem (fun x hx => hpub x ((h₁.inv.clients "A").memory x hx)) hrec) htext hread
      (hmem (hreach₂.inv.clients "B").memory hknows)

end Scripts

end Rollforward
