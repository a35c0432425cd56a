import Rollforward.Ancestry
import Rollforward.Catalog.Closure
import Rollforward.Catalog.Recording
import Rollforward.Published

/-! The graph of commits in every client's state, as long as nothing is given up: parents
are held, they are older, and everything lies under a head. -/

namespace Rollforward

open Std Lib

section Rank

variable [Crates] {published batch : List Commit}

/-- The place of an id in the order of publication. -/
def rankOf (published : List Commit) (id : String) : Nat := published.findIdx fun x => x.id = id

/-- Every parent is an earlier commit of the same resource. -/
def Grounded (published : List Commit) : Prop :=
  ∀ x ∈ published, ∀ p ∈ x.parents, ∃ y ∈ published, y.id = p ∧ y.resource = x.resource ∧
    rankOf published p < rankOf published x.id

theorem rankOf_append_left {id : String} (h : ∃ x ∈ published, x.id = id) :
    rankOf (published ++ batch) id = rankOf published id := by
  rw [rankOf, List.findIdx_append, if_pos]
  · rfl
  · simpa [List.findIdx_lt_length] using h

theorem rankOf_lt_length {id : String} (h : ∃ x ∈ published, x.id = id) :
    rankOf published id < published.length := by
  simpa [rankOf, List.findIdx_lt_length] using h

theorem length_le_rankOf_append {id : String} (h : ∀ x ∈ published, x.id ≠ id) :
    published.length ≤ rankOf (published ++ batch) id := by
  rw [rankOf, List.findIdx_append, if_neg]
  · omega
  · simpa [List.findIdx_lt_length] using h

theorem Grounded.append (h : Grounded published)
    (hbatch : ∀ x ∈ batch, x ∈ published ∨ (∀ y ∈ published, y.id ≠ x.id) ∧
      ∀ p ∈ x.parents, ∃ y ∈ published, y.id = p ∧ y.resource = x.resource) :
    Grounded (published ++ batch) := by
  intro x hx p hp
  have hx : x ∈ published ∨ (∀ y ∈ published, y.id ≠ x.id) ∧
      ∀ p ∈ x.parents, ∃ y ∈ published, y.id = p ∧ y.resource = x.resource :=
    (List.mem_append.mp hx).elim Or.inl (hbatch x)
  rcases hx with hx | ⟨hnew, hparents⟩
  · obtain ⟨y, hy, hid, hres, hlt⟩ := h x hx p hp
    refine ⟨y, List.mem_append_left _ hy, hid, hres, ?_⟩
    rw [rankOf_append_left ⟨y, hy, hid⟩, rankOf_append_left ⟨x, hx, rfl⟩]
    exact hlt
  · obtain ⟨y, hy, hid, hres⟩ := hparents p hp
    refine ⟨y, List.mem_append_left _ hy, hid, hres, ?_⟩
    rw [rankOf_append_left ⟨y, hy, hid⟩]
    exact (rankOf_lt_length ⟨y, hy, hid⟩).trans_le (length_le_rankOf_append hnew)

theorem Grounded.kin (h : Grounded published)
    (ids : ∀ x ∈ published, ∀ y ∈ published, y.id = x.id → y = x) : Kin published := by
  intro x hx y hy hp
  obtain ⟨z, hz, hid, hres, -⟩ := h y hy _ hp
  rw [← ids x hx z hz hid, hres]

end Rank

section States

variable [Crates] {published : List Commit} {s : RuntimeState} {key : ResourceKey}

theorem mem_parentsOf {id p : String} :
    p ∈ s.parentsOf id ↔ ∃ x ∈ s.commits, x.id = id ∧ p ∈ x.parents := by
  rw [RuntimeState.parentsOf]
  constructor
  · intro hp
    cases hg : s.commits.get? id with
    | none => simp [hg] at hp
    | some x =>
      rw [hg] at hp
      exact ⟨x, KeyedMap.mem_of_get? hg, KeyedMap.key_of_get? hg, hp⟩
  · rintro ⟨x, hx, rfl, hp⟩
    rw [KeyedMap.mem_def.mp hx]
    exact hp

theorem Grounded.rank_lt (h : Grounded published) (hs : ∀ x ∈ s.commits, x ∈ published)
    {x y : Commit} (hy : y ∈ s.commits) (hxy : x.Over y) :
    rankOf published x.id < rankOf published y.id := by
  obtain ⟨z, -, -, -, hlt⟩ := h y (hs y hy) _ hxy.2
  exact hlt

/-- Every commit lies under a head of its resource. -/
theorem Grounded.exists_head (h : Grounded published) (hs : ∀ x ∈ s.commits, x ∈ published)
    {x : Commit} (hx : x ∈ s.commits) : ∃ y, IsHead Commit.Over s.held y ∧
      y.resource = x.resource ∧ rankOf published x.id ≤ rankOf published y.id ∧
      Reaches s.parentsOf y.id x.id := by
  obtain ⟨y, hy, hle, hr⟩ := exists_isHead_over (r := Commit.Over) (X := s.held)
    (k := fun x => rankOf published x.id) (n := published.length)
    (fun a _ b hb hab => h.rank_lt hs hb hab)
    (fun a ha => rankOf_lt_length ⟨a, hs a ha, rfl⟩) hx
  suffices hwalk : y.resource = x.resource ∧ Reaches s.parentsOf y.id x.id from
    ⟨y, hy, hwalk.1, hle, hwalk.2⟩
  clear hle hy
  induction hr with
  | refl => exact ⟨rfl, .refl⟩
  | tail _ hbc ih =>
    refine ⟨hbc.2.1.trans ih.1, .head ?_ ih.2⟩
    exact mem_parentsOf.mpr ⟨_, hbc.1, rfl, hbc.2.2⟩

/-- A commit over all heads of a state is the only head once it is recorded, with
whatever was published for other resources. -/
theorem Grounded.only_head (h : Grounded published)
    (ids : ∀ x ∈ published, ∀ y ∈ published, y.id = x.id → y = x)
    (hs : ∀ x ∈ s.commits, x ∈ published) {t : RuntimeState} {xs : List Commit} {x : Commit}
    (hxs : ∀ y ∈ xs, y ∈ published) (ht : t.commits = s.commits.insertAll xs)
    (hother : ∀ y ∈ xs, y.resource = x.resource → y = x)
    (hparents : x.parents = sortDedup (s.heads x.resource)) (hmem : x ∈ t.commits) :
    t.heads x.resource = [x.id] := by
  have hmem_t : ∀ {y : Commit}, y ∈ t.commits ↔ y ∈ s.commits ∨ y ∈ xs := by
    intro y
    rw [ht]
    exact KeyedMap.mem_insertAll (fun v hv u hu => ids v (hxs v hv) u (hs u hu))
      fun v hv u hu => ids v (hxs v hv) u (hxs u hu)
  have hover : ∀ {y : Commit}, IsHead Commit.Over s.held y → y.resource = x.resource → y.Over x := by
    intro y hy hr
    refine ⟨hr.symm, ?_⟩
    rw [hparents, mem_sortDedup]
    exact RuntimeState.mem_heads_iff_isHead.mpr ⟨y, hy, hr, rfl⟩
  have hpub : ∀ y ∈ t.commits, y ∈ published := fun y hy =>
    (hmem_t.mp hy).elim (hs y) (hxs y)
  have hlt : ∀ {y : Commit}, y.Over x → rankOf published y.id < rankOf published x.id :=
    fun hyx => h.rank_lt hpub hmem hyx
  have hhead : ∀ y, IsHead Commit.Over t.held y → y.resource = x.resource → y = x := by
    intro y hy hr
    rcases hmem_t.mp hy.1 with hys | hyx
    · refine absurd (hover ⟨hys, fun z hz => hy.2 z (hmem_t.mpr (Or.inl hz))⟩ hr) (hy.2 x hmem)
    · exact hother y hyx hr
  have hxhead : IsHead Commit.Over t.held x := by
    refine ⟨hmem, fun y hy hxy => ?_⟩
    have hrank := h.rank_lt hpub hy hxy
    rcases hmem_t.mp hy with hys | hyx
    · obtain ⟨z, hz, hr, hle, -⟩ := h.exists_head hs hys
      have := hlt (hover hz (hr.trans hxy.1))
      omega
    · rw [hother y hyx hxy.1] at hrank
      omega
  have hone : ∀ id, id ∈ t.heads x.resource ↔ id = x.id := by
    intro id
    rw [RuntimeState.mem_heads_iff_isHead]
    constructor
    · rintro ⟨y, hy, hr, rfl⟩
      rw [hhead y hy hr]
    · rintro rfl
      exact ⟨x, hxhead, rfl, rfl⟩
  have hnodup : (t.heads x.resource).Nodup := by
    refine (RuntimeState.heads_sorted t x.resource).imp fun hab e => ?_
    rw [e, compare_self] at hab
    cases hab
  apply List.perm_singleton.mp
  exact (List.perm_ext_iff_of_nodup hnodup (List.nodup_singleton _)).mpr (by simpa using hone)

end States

section Runs

variable [Crates] {S : Setting} {w w' : World} {c : String}

/-- A compaction that is served gives nothing up. -/
def World.Retains (w : World) : Label → Prop
  | .answer c .serve =>
    match (w.clients c).prog with
    | .call _ (.compactCatalog compaction) _ => compaction.obsoleteCommitIds = []
    | _ => True
  | _ => True

/-- Runs without maintenance and without lost publications.  Catalog snapshots may be
taken, by clients that are not behind. -/
def World.Lossless (w : World) (l : Label) : Prop := w.Harmless l ∧ w.Retains l

instance (w : World) : DecidablePred w.Retains := fun l =>
  decidable_of_iff ((match l with
    | .answer c .serve =>
      match (w.clients c).prog with
      | .call _ (.compactCatalog compaction) _ => decide (compaction.obsoleteCommitIds = [])
      | _ => true
    | _ => true) = true) <| by
    unfold World.Retains
    split
    · split <;> simp
    · simp

instance (w : World) : DecidablePred w.Lossless := fun l =>
  inferInstanceAs (Decidable (w.Harmless l ∧ w.Retains l))

theorem World.Retains.net {l : Label} (h : w.Retains l) : Net.Retains (w.act l) := by
  unfold World.act
  split
  · exact trivial
  · next c =>
    split
    · exact trivial
    · next s compaction k hp =>
      rw [World.Retains, hp] at h
      exact h
    · exact trivial
  · exact trivial

theorem Act.Free.retains {a : Act} (h : a.Free) : Net.Retains a := by
  cases a <;> first | exact trivial | exact h.elim

/-- Nothing is given up in a lossless run. -/
theorem Net.Run.nothing {n n' : Net} {P : Net → Act → Prop} (hn : n.obsoleted = [])
    (hP : ∀ n a, P n a → Net.Retains a) (h : Net.Run P n n') : n'.obsoleted = [] := by
  induction h with
  | refl => exact hn
  | tail _ hstep ih =>
    obtain ⟨a, ha, hm⟩ := hstep
    have hr := hP _ _ ha
    cases hm with
    | compact =>
      rw [Net.Retains] at hr
      simp [Net.set, ih, hr]
    | _ => exact ih

theorem World.Reachable.nothing (hex : ∀ data, ':' ∉ (blake3 data).toList)
    (h : w.Reachable S World.Lossless) : w.obsoleted = [] :=
  Net.Run.nothing (P := fun _ a => Net.Retains a) rfl (fun _ _ hP => hP)
    (h.run hex (fun _ _ hfree => hfree.retains) fun _ _ hok => hok.2.net)

/-- A commit is published over commits of its resource that its client holds. -/
theorem World.Reachable.parents_published {ok : World → Label → Prop} (h : w.Reachable S ok)
    {s : RuntimeState} {batch : CommitBatch}
    {k : Except SyncError Unit → Prog host RuntimeState (Except SyncError Unit)}
    (hp : (w.clients c).prog = .call s (.commitBatch batch) k) {x : Commit} (hx : x ∈ batch.commits)
    {p : String} (hparent : p ∈ x.parents) :
    ∃ y ∈ w.published, y.id = p ∧ y.resource = x.resource := by
  obtain ⟨files, existing, hmade⟩ := h.relies.publishes hp
  have hmem : (w.clients c).memory = s := by rw [Client.memory, hp]; rfl
  rw [(hmade.commits x hx).parents, mem_sortDedup] at hparent
  obtain ⟨⟨y, hy, hr, hid⟩, -⟩ := RuntimeState.mem_heads.mp hparent
  exact ⟨y, (h.inv.clients c).memory y (hmem ▸ hy), hid, hr⟩

/-- Parents are earlier commits of the same resource in every run. -/
theorem World.Reachable.grounded (hex : ∀ data, ':' ∉ (blake3 data).toList)
    (h : w.Reachable S World.Survives) : Grounded w.published := by
  induction h with
  | refl => intro x hx; cases hx
  | @tail w w' hv hstep ih =>
    obtain ⟨l, -, hs⟩ := hstep
    have hinv := World.Reachable.inv hv
    rcases World.step_published hs with heq | ⟨c, s, batch, k, rfl, hp, heq⟩
    · rw [heq]
      exact ih
    · have hmem : (w.clients c).memory = s := by rw [Client.memory, hp]; rfl
      have hcall := (hinv.clients c).meets
      rw [hp] at hcall
      have hfresh := (BatchAsk.publishable (m := w.net.member c) hex hcall.1.2 rfl hmem).fresh
        ((World.Reachable.counted hex hv).counted c)
      have hsigned := (BatchAsk.publishable (m := w.net.member c) hex hcall.1.2 rfl hmem).signed
      rw [heq]
      refine ih.append fun x hx => Or.inr ⟨fun y hy e => ?_, fun p hparent =>
        World.Reachable.parents_published hv hp hx hparent⟩
      obtain ⟨ha, hc⟩ := ((World.Reachable.counted hex hv).signed y hy).inj (hsigned x hx) e
      exact absurd hc ((hfresh x hx).2 y hy ha).ne

theorem Net.Run.whole {n n' : Net} {P : Net → Act → Prop} (hn : n.Whole) (hnv : n.Valid)
    (hnc : n.Cutting R) (hnone : n.obsoleted = [])
    (hP : ∀ n a, P n a → n.Survives a ∧ n.Compacts a ∧ Net.Retains a)
    (h : Net.Run P n n') (hkin : Kin n'.published) :
    n'.Whole ∧ n'.Valid ∧ n'.Cutting R ∧ n'.obsoleted = [] := by
  induction h with
  | refl => exact ⟨hn, hnv, hnc, hnone⟩
  | @tail n' n'' hrun hstep ih =>
    obtain ⟨a, ha, hm⟩ := hstep
    obtain ⟨hs, hc, hr⟩ := hP _ _ ha
    have hkin' : Kin n'.published :=
      hkin.of_subset (Net.Run.published (.single ⟨a, ha, hm⟩))
    obtain ⟨hw, hv, hcut, hno⟩ := ih hkin'
    have hv' := hv.move hs hc hm
    have htrim : n'.Trimmed R a := by
      cases a with
      | compact c scope generation O =>
        obtain rfl : O = [] := hr
        refine ⟨by simp, fun x _ _ _ ⟨y, hy, hl, hxy⟩ => ⟨y, hy, hl, by simp, hxy⟩, by simp,
          fun hne => absurd rfl hne⟩
      | scan c scopes =>
        intro _ x _ _ _ ⟨y, hy, hxy⟩
        exact ⟨y, hy, by simp [hno], hxy⟩
      | _ => exact trivial
    exact ⟨hw.move hv hcut hno hkin' hs hr hm, hv', hcut.move hv hv' hc htrim hm,
      Net.Run.nothing hno (fun _ _ hP => (hP)) (.single ⟨a, hr, hm⟩)⟩

theorem World.Reachable.whole (hex : ∀ data, ':' ∉ (blake3 data).toList)
    (h : w.Reachable S World.Lossless) : Kin w.published ∧ w.net.Whole := by
  have hsurvives := h.mono fun _ _ hok => hok.1.1
  have hkin : Kin w.published :=
    (hsurvives.grounded hex).kin (World.Reachable.counted hex hsurvives).ids
  refine ⟨hkin, (Net.Run.whole (R := "") .init .init .init rfl (fun _ _ hP => hP)
    (h.run (P := fun n a => n.Survives a ∧ n.Compacts a ∧ Net.Retains a) hex ?_ ?_) hkin).1⟩
  · exact fun _ _ hfree => ⟨hfree.survives, hfree.compacts, hfree.retains⟩
  · exact fun _ _ hok => ⟨hok.1.1.net, hok.1.2.net, hok.2.net⟩

/-- The batch that is being recorded, and the memory it was published from. -/
theorem Chain.batch {s₀ m : RuntimeState} {h : List SyncEvent} (hchain : Chain s₀ h)
    (hm : Follows s₀ h m) {x : Commit} (hx : x ∈ recordable h) :
    ∃ s batch h₀, ⟨s, .commitBatch batch, .ok ()⟩ :: h₀ <:+ h ∧ recordable h = batch.commits ∧
      Grown batch.commits s m := by
  induction h generalizing m with
  | nil => cases hx
  | cons e h ih =>
    obtain ⟨s, q, r⟩ := e
    have hquiet : recordable (⟨s, q, r⟩ :: h) = recordable h → settled h ⟨s, q, r⟩ = s →
        ∃ s' batch h₀, ⟨s', .commitBatch batch, .ok ()⟩ :: h₀ <:+ ⟨s, q, r⟩ :: h ∧
          recordable (⟨s, q, r⟩ :: h) = batch.commits ∧ Grown batch.commits s' m := by
      intro hrec hset
      rw [Follows, hrec, hset] at hm
      obtain ⟨s', batch, h₀, hsuffix, heq, hg⟩ := ih hchain.2 hchain.1 (hrec ▸ hx)
      refine ⟨s', batch, h₀, hsuffix.trans (List.suffix_cons _ _), hrec.trans heq, ?_⟩
      exact hg.trans (heq ▸ hm)
    cases q with
    | commitBatch batch =>
      cases r with
      | ok _ => exact ⟨s, batch, h, List.suffix_rfl, rfl, hm⟩
      | error _ => exact hquiet rfl rfl
    | scanCatalog _ | loadCommits _ | compactCatalog _ => cases hx
    | _ => exact hquiet rfl rfl

/-- The commit a client published last is the only head of its resource there, as soon as it
is recorded. -/
theorem World.Reachable.only_head (hex : ∀ data, ':' ∉ (blake3 data).toList)
    (h : w.Reachable S World.Survives) {x : Commit} (hx : x ∈ recordable (w.clients c).trace)
    (hmem : x ∈ (w.memory c).commits) : (w.memory c).heads x.resource = [x.id] := by
  have hinv := h.inv.clients c
  obtain ⟨s, batch, h₀, hsuffix, heq, hg⟩ := hinv.chain.batch hinv.tracks.follows hx
  obtain ⟨files, existing, hmade⟩ := (World.Reachable.relies h).published hsuffix
  obtain ⟨xs, hxs, hcommits⟩ := hg.commits
  have hpub : ∀ y ∈ batch.commits, y ∈ w.published := fun y hy =>
    (hinv.own y (mem_ownCommits_of_recordable (heq ▸ hy))).1
  have hbatch := heq ▸ hx
  refine (h.grounded hex).only_head (World.Reachable.counted hex h).ids
    (hinv.events _ (hsuffix.subset List.mem_cons_self)) (fun y hy => hpub y (hxs y hy)) hcommits ?_
    (hmade.commits x hbatch).parents hmem
  intro y hy hr
  exact List.inj_on_of_nodup_map hmade.distinct (hxs y hy) hbatch hr

end Runs

section Scripts

open Sample

attribute [local instance] crates

end Scripts

end Rollforward
