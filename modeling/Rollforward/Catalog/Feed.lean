import Rollforward.Catalog.Truncation
import Rollforward.Sample

/-! One reader of a catalog that others publish to, without compaction: refreshing from
the cursors of the last time finds what a full scan finds. -/

namespace Rollforward

open Std Lib

section Feed

variable [Crates]

/-- How the remote answers the two calls of a refresh. -/
def Remote.Serves (remote : Remote) : (q : Req) → q.Resp → Prop
  | .scanCatalog request, r => r = remote.scanCatalog request
  | .loadCommits ids, r => r = remote.loadCommits ids
  | _, _ => False

def served (remote : Remote) (e : SyncEvent) (remote' : Remote) : Prop :=
  remote' = remote ∧ remote.Serves e.req e.resp

/-- A call of `refresh_remote` in the state `s` that returns with `r` and leaves `t`. -/
def Remote.Refreshes (remote : Remote) (scopes : List String) (s t : RuntimeState)
    (r : Except SyncError Unit) : Prop :=
  Prog.Exec served remote (refreshRemote scopes s) remote t r

structure Feed where
  remote : Remote := {}
  published : List Commit := []
  reader : RuntimeState := {}

/-- A batch that continues the counters of its authors. -/
structure Continues (published batch : List Commit) : Prop where
  created : ∀ x ∈ batch, ∃ key parents author counter timestamp change,
    x = Commit.create key parents author counter timestamp change
  fresh : Fresh published batch
  ascending : batch.Pairwise fun a b => a.author = b.author → a.clientCounter < b.clientCounter

inductive Feed.Step : Feed → Feed → Prop
  | publish {f : Feed} {batch : CommitBatch} (continues : Continues f.published batch.commits) :
      Step f { f with
        remote := f.remote.commitBatch batch
        published := f.published ++ batch.commits }
  | refresh {f : Feed} {scopes : List String} {s : RuntimeState}
      (done : f.remote.Refreshes scopes f.reader s (.ok ())) : Step f { f with reader := s }

abbrev Feed.Reaches : Feed → Feed → Prop := Relation.ReflTransGen Feed.Step

/-- What a refresh does when it succeeds. -/
structure Refreshed (remote : Remote) (scopes : List String) (s : RuntimeState)
    (delta : CatalogDelta) (commits : List Commit) (t : RuntimeState) : Prop where
  scan : remote.scanCatalog ⟨scopes, s.cursors⟩ = .ok delta
  load : remote.loadCommits (s.missingIds delta) = .ok commits
  result : t = (s.countEvents delta).absorb commits delta

/-- Published ids tell commits apart, the catalog is sound, and the reader sees it. -/
structure Feed.Valid (f : Feed) : Prop where
  signed : ∀ x ∈ f.published, x.Signed
  counters : ∀ x ∈ f.published, ∀ y ∈ f.published,
    x.author = y.author → x.clientCounter = y.clientCounter → x = y
  positive : ∀ x ∈ f.published, 0 < x.clientCounter
  catalog : Sound f.remote f.published []
  records : Records f.remote f.published
  reader : f.reader.Sees f.published []

variable {f f' : Feed} {remote : Remote} {scopes : List String} {s t : RuntimeState}
variable {delta : CatalogDelta} {commits batch : List Commit}

theorem Remote.Refreshes.cases {r : Except SyncError Unit}
    (h : remote.Refreshes scopes s t r) :
    (∃ delta commits, Refreshed remote scopes s delta commits t ∧ r = .ok ()) ∨
      (∃ e, remote.scanCatalog ⟨scopes, s.cursors⟩ = .error e ∧ r = .error e) ∨
      ∃ delta e, remote.scanCatalog ⟨scopes, s.cursors⟩ = .ok delta ∧
        remote.loadCommits (s.missingIds delta) = .error e ∧ r = .error e := by
  refine Prog.Meets.exec (C := fun _ _ _ => True) (Q := fun _ t r =>
    (∃ delta commits, Refreshed remote scopes s delta commits t ∧ r = .ok ()) ∨
      (∃ e, remote.scanCatalog ⟨scopes, s.cursors⟩ = .error e ∧ r = .error e) ∨
      ∃ delta e, remote.scanCatalog ⟨scopes, s.cursors⟩ = .ok delta ∧
        remote.loadCommits (s.missingIds delta) = .error e ∧ r = .error e) ?_ h
  refine ⟨trivial, ?_⟩
  rintro r _ ⟨rfl, hscan⟩
  cases r with
  | error e => exact Or.inr (Or.inl ⟨e, hscan.symm, rfl⟩)
  | ok delta =>
    refine ⟨trivial, ?_⟩
    rintro r _ ⟨rfl, hload⟩
    cases r with
    | error e => exact Or.inr (Or.inr ⟨delta, e, hscan.symm, hload.symm, rfl⟩)
    | ok commits => exact Or.inl ⟨delta, commits, ⟨hscan.symm, hload.symm, rfl⟩, rfl⟩

theorem Refreshed.refreshes (h : Refreshed remote scopes s delta commits t) :
    remote.Refreshes scopes s t (.ok ()) := by
  obtain rfl := h.result
  exact .call ⟨rfl, h.scan.symm⟩ (.call ⟨rfl, h.load.symm⟩ .done)

theorem Continues.signed (hex : ∀ data, ':' ∉ (blake3 data).toList)
    (h : Continues published batch) : ∀ x ∈ batch, x.Signed := by
  intro x hx
  obtain ⟨key, parents, author, counter, timestamp, change, rfl⟩ := h.created x hx
  exact ⟨_, hex _, rfl⟩

theorem Continues.distinct (h : Continues published batch) : ∀ x ∈ batch, ∀ y ∈ batch,
    x.author = y.author → x.clientCounter = y.clientCounter → x = y := by
  intro x hx y hy ha hc
  by_contra hne
  have : Std.Symm fun a b : Commit => a.author = b.author → a.clientCounter ≠ b.clientCounter :=
    ⟨fun _ _ h hb => (h hb.symm).symm⟩
  have hpair : batch.Pairwise fun a b => a.author = b.author → a.clientCounter ≠ b.clientCounter :=
    h.ascending.imp fun hlt e => (hlt e).ne
  exact hpair.forall hx hy hne ha hc

namespace Feed.Valid

theorem init : Valid {} where
  signed := by simp
  counters := by simp
  positive := by simp
  catalog := .empty
  records := ⟨by simp [Remote.current], by simp⟩
  reader := .empty

theorem ids (h : f.Valid) : ∀ x ∈ f.published, ∀ y ∈ f.published, y.id = x.id → y = x := by
  intro x hx y hy e
  obtain ⟨ha, hc⟩ := (h.signed y hy).inj (h.signed x hx) e
  exact h.counters y hy x hx ha hc

/-- On a valid feed every refresh succeeds. -/
theorem refreshed (h : f.Valid) (s : RuntimeState) (scopes : List String) :
    ∃ delta commits t, Refreshed f.remote scopes s delta commits t := by
  obtain ⟨delta, hscan⟩ := h.catalog.wf.scanCatalog_ok ⟨scopes, s.cursors⟩
  have hsome : ∀ id ∈ s.missingIds delta, (f.remote.commits.get? id).isSome := by
    intro id hid
    obtain ⟨event, he, rfl⟩ := List.mem_map.mp hid
    obtain ⟨x, hx, rfl⟩ := h.records.scan h.catalog.wf hscan event (List.mem_filter.mp he).1
    rw [show x.event.commitId = x.id from rfl,
      KeyedMap.mem_def.mp ((h.catalog.objects x).mpr ⟨hx, by simp⟩)]
    rfl
  obtain ⟨commits, hload⟩ := loadCommits_ok hsome
  exact ⟨delta, commits, _, hscan, hload, rfl⟩

/-- A refresh of some scopes holds exactly what was published there. -/
theorem mem_refreshed (h : f.Valid) (hs : s.Sees f.published [])
    (hr : Refreshed f.remote scopes s delta commits t) :
    t.Sees f.published [] ∧ ∀ x, inScopes scopes x.resource.scopeId = true →
      (x ∈ t.commits ↔ x ∈ f.published) := by
  obtain rfl := hr.result
  have hsees : ((s.countEvents delta).absorb commits delta).Sees f.published [] :=
    (h.catalog.scan hs hr.scan).absorb h.catalog hs h.ids hr.load
  refine ⟨hsees, fun x hscope => ⟨hsees.held x, fun hx => ?_⟩⟩
  by_cases hread : x.clientCounter ≤ reached (collectCursors s.cursors) x.lane
  · exact (h.catalog.mem_absorb h.ids hs hr.load).mpr (Or.inl (hs.knows x ⟨hx, by simp⟩ hread))
  · refine h.catalog.mem_absorb_of_event h.ids hs hr.load hx ?_
    exact (h.catalog.listed x ⟨hx, by simp⟩).mem_scan h.catalog.wf hr.scan hscope
      (Nat.not_le.mp hread)

theorem publish (hex : ∀ data, ':' ∉ (blake3 data).toList) (h : f.Valid) {batch : CommitBatch}
    (hc : Continues f.published batch.commits) :
    { f with
      remote := f.remote.commitBatch batch
      published := f.published ++ batch.commits : Feed }.Valid := by
  have hsigned : ∀ x ∈ f.published ++ batch.commits, x.Signed := fun x hx =>
    (List.mem_append.mp hx).elim (h.signed x) (hc.signed hex x)
  have hcounters : ∀ x ∈ f.published ++ batch.commits, ∀ y ∈ f.published ++ batch.commits,
      x.author = y.author → x.clientCounter = y.clientCounter → x = y := by
    intro x hx y hy ha he
    rcases List.mem_append.mp hx with hx | hx <;> rcases List.mem_append.mp hy with hy | hy
    · exact h.counters x hx y hy ha he
    · exact absurd he ((hc.fresh y hy).2 x hx ha).ne
    · exact absurd he ((hc.fresh x hx).2 y hy ha.symm).ne'
    · exact hc.distinct x hx y hy ha he
  refine ⟨hsigned, hcounters, fun x hx => ?_, h.catalog.publish hc.fresh ?_ (by simp),
    h.records.publish batch, h.reader.publish hc.fresh⟩
  · exact (List.mem_append.mp hx).elim (h.positive x) fun hx => (hc.fresh x hx).1
  · intro x hx y hy e
    obtain ⟨ha, he⟩ := (hsigned y hy).inj (hsigned x hx) e
    exact hcounters y hy x hx ha he

theorem refreshes_ok (h : f.Valid) {r : Except SyncError Unit}
    (hr : f.remote.Refreshes scopes s t r) :
    r = .ok () ∧ ∃ delta commits, Refreshed f.remote scopes s delta commits t := by
  obtain ⟨delta, commits, t', hdone⟩ := h.refreshed s scopes
  obtain ⟨delta', commits', hsome, rfl⟩ | ⟨e, he, -⟩ | ⟨delta', e, hscan, he, -⟩ := hr.cases
  · exact ⟨rfl, delta', commits', hsome⟩
  · rw [hdone.scan] at he
    cases he
  · rw [hdone.scan] at hscan
    obtain rfl := Except.ok.inj hscan
    rw [hdone.load] at he
    cases he

theorem step (hex : ∀ data, ':' ∉ (blake3 data).toList) (h : f.Valid) (hs : Feed.Step f f') :
    f'.Valid := by
  cases hs with
  | publish continues => exact h.publish hex continues
  | refresh done =>
    obtain ⟨-, delta, commits, hr⟩ := h.refreshes_ok done
    exact ⟨h.signed, h.counters, h.positive, h.catalog, h.records, (h.mem_refreshed h.reader hr).1⟩

theorem run (hex : ∀ data, ':' ∉ (blake3 data).toList) (h : f.Valid) (hr : Feed.Reaches f f') :
    f'.Valid := by
  induction hr with
  | refl => exact h
  | tail _ hs ih => exact ih.step hex hs

end Feed.Valid

theorem Refreshed.cursors_le (h : Refreshed remote scopes s delta commits t) (lane : Lane) :
    reached (collectCursors s.cursors) lane ≤ reached (collectCursors t.cursors) lane := by
  obtain rfl := h.result
  rw [RuntimeState.absorb, reached_collect_cursorList]
  exact reached_le_raiseCursors ..

theorem Feed.Valid.cursors_le (hex : ∀ data, ':' ∉ (blake3 data).toList) (h : f.Valid)
    (hr : Feed.Reaches f f') (lane : Lane) :
    reached (collectCursors f.reader.cursors) lane ≤
      reached (collectCursors f'.reader.cursors) lane := by
  induction hr with
  | refl => exact le_rfl
  | tail hrun hs ih =>
    refine ih.trans ?_
    cases hs with
    | publish => exact le_rfl
    | refresh done =>
      obtain ⟨-, delta, commits, hdone⟩ := (h.run hex hrun).refreshes_ok done
      exact hdone.cursors_le lane

/-- A refresh of some scopes always succeeds and leaves the reader with what a reader
without cursors would load there; no cursor ever decreases. -/
theorem Feed.refresh_is_full_scan (hex : ∀ data, ':' ∉ (blake3 data).toList)
    (h : Feed.Reaches {} f) (scopes : List String) :
    (∃ s, f.remote.Refreshes scopes f.reader s (.ok ())) ∧
    (∃ t, f.remote.Refreshes scopes {} t (.ok ())) ∧
    (∀ s r t, f.remote.Refreshes scopes f.reader s r → f.remote.Refreshes scopes {} t (.ok ()) →
      r = .ok () ∧ ∀ x : Commit, inScopes scopes x.resource.scopeId = true →
        (x ∈ s.commits ↔ x ∈ t.commits)) ∧
    ∀ f', Feed.Reaches f f' → ∀ lane, reached (collectCursors f.reader.cursors) lane ≤
      reached (collectCursors f'.reader.cursors) lane := by
  have hv := Feed.Valid.init.run hex h
  have hempty : RuntimeState.Sees {} f.published [] :=
    ⟨by simp, by simp [Bounded], fun x hx hle => absurd hle (by
      simpa [collectCursors, reached] using (hv.positive x hx.1).ne')⟩
  refine ⟨?_, ?_, fun s r t hs ht => ?_, fun f' hr => hv.cursors_le hex hr⟩
  · obtain ⟨delta, commits, s, hs⟩ := hv.refreshed f.reader scopes
    exact ⟨s, hs.refreshes⟩
  · obtain ⟨delta, commits, t, ht⟩ := hv.refreshed {} scopes
    exact ⟨t, ht.refreshes⟩
  · obtain ⟨hok, delta, commits, hs⟩ := hv.refreshes_ok hs
    obtain ⟨-, delta', commits', ht⟩ := hv.refreshes_ok ht
    refine ⟨hok, fun x hscope => ?_⟩
    rw [(hv.mem_refreshed hv.reader hs).2 x hscope, (hv.mem_refreshed hempty ht).2 x hscope]

end Feed

section Scripts

open Sample

attribute [local instance] crates

/-- The `n`-th commit of an author, alone in its batch. -/
def nth (author : String) (n : Nat) : CommitBatch where
  commits := [Commit.create (key author) [] author n 0 .delete]

theorem nth_continues {published : List Commit} {author : String} {n : Nat} (hn : 0 < n)
    (h : ∀ y ∈ published, y.author = author → y.clientCounter < n) :
    Continues published (nth author n).commits := by
  refine ⟨fun x hx => ?_, fun x hx => ?_, List.pairwise_singleton _ _⟩
  · exact ⟨_, _, _, _, _, _, List.mem_singleton.mp hx⟩
  · obtain rfl := List.mem_singleton.mp hx
    exact ⟨hn, h⟩

/-- A reader between the first and the second batch of one author. -/
theorem Feed.refresh_is_full_scan_between : ∃ f : Feed, Feed.Reaches {} f ∧
    f.published.length = 2 ∧ (∃ x ∈ f.published, x ∈ f.reader.commits) ∧
    ∀ s r t, f.remote.Refreshes ["s"] f.reader s r → f.remote.Refreshes ["s"] {} t (.ok ()) →
      r = .ok () ∧ ∀ x : Commit, inScopes ["s"] x.resource.scopeId = true →
        (x ∈ s.commits ↔ x ∈ t.commits) := by
  have hstart : Continues [] (nth "A" 1).commits := nth_continues Nat.one_pos (by simp)
  have hfirst : Feed.Step {} _ := .publish hstart
  have hv := Feed.Valid.init.step colon_notMem_hex hfirst
  obtain ⟨delta, commits, s, hs⟩ := hv.refreshed {} ["s"]
  have hread : Feed.Step _ _ := .refresh hs.refreshes
  have hlater : Continues ([] ++ (nth "A" 1).commits) (nth "A" 2).commits :=
    nth_continues Nat.two_pos (by decide)
  have hsecond : Feed.Step ⟨Remote.commitBatch {} (nth "A" 1), [] ++ (nth "A" 1).commits, s⟩ _ :=
    .publish hlater
  have hrun := ((Relation.ReflTransGen.single hfirst).tail hread).tail hsecond
  refine ⟨_, hrun, rfl, ⟨_, List.mem_append_left _ List.mem_cons_self, ?_⟩,
    (Feed.refresh_is_full_scan colon_notMem_hex hrun ["s"]).2.2.1⟩
  exact ((hv.mem_refreshed hv.reader hs).2 _ (by decide)).mpr List.mem_cons_self

end Scripts

end Rollforward
