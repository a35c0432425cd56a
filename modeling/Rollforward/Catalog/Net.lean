import Rollforward.Catalog.View
import Rollforward.System
import Mathlib.Data.List.Pairwise

/-! The catalog protocol on its own: clients scan, load, publish, compact, save and
crash around one remote.  A client is its memory, what it saved last, and a scan
whose commits it has not loaded yet. -/

namespace Rollforward

open Std Lib

variable [Crates]

/-- Local work records commits of one's own and draws counters, nothing else of
what the catalog is about. -/
structure Grown (own : List Commit) (s s' : RuntimeState) : Prop where
  commits : ∃ xs, (∀ x ∈ xs, x ∈ own) ∧ s'.commits = s.commits.insertAll xs
  cursors : s'.cursors = s.cursors
  counter : s.counter ≤ s'.counter

structure Member where
  memory : RuntimeState := {}
  saved : RuntimeState := {}
  /-- No commit of this client has a larger counter. -/
  floor : Nat := 0
  pending : Option CatalogDelta := none
  /-- The scopes of the last scan, and everything published then. -/
  asked : List String × List Commit := ([], [])
  /-- The refresh is complete and nothing was recorded since. -/
  current : Bool := false
  /-- Everything published when a scope was last refreshed. -/
  seen : String → List Commit := fun _ => []
  savedSeen : String → List Commit := fun _ => []
  /-- A batch went out after the last save. -/
  unsaved : Bool := false

structure Net where
  remote : Remote := {}
  member : String → Member := fun _ => {}
  published : List Commit := []
  obsoleted : List String := []

inductive Act
  | scan (c : String) (scopes : List String)
  | absorb (c : String)
  | publish (c : String) (batch : CommitBatch)
  | compact (c : String) (scope : String) (generation : Nat) (obsolete : List String)
  | work (c : String)
  | record (c : String)
  | drop (c : String)
  | save (c : String)
  | start (c : String)
  | crash (c : String)
  | other

structure Publishable (c : String) (m : Member) (batch : List Commit) : Prop where
  signed : ∀ x ∈ batch, x.Signed
  author : ∀ x ∈ batch, x.author = c
  counter : ∀ x ∈ batch, m.floor < x.clientCounter ∧ x.clientCounter ≤ m.memory.counter
  ascending : batch.Pairwise fun a b => a.clientCounter < b.clientCounter
  parents : ∀ x ∈ batch, ∀ p ∈ x.parents, (m.memory.commits.get? p).isSome

/-- What a client knows of its own counters. -/
structure Member.Counted (published : List Commit) (c : String) (m : Member) : Prop where
  floor : ∀ x ∈ published, x.author = c → x.clientCounter ≤ m.floor
  floor_le : m.floor ≤ m.memory.counter
  kept : m.unsaved = false → ∀ x ∈ published, x.author = c → x.clientCounter ≤ m.saved.counter

/-- What a client holds, given what was published and what was given up. -/
structure Member.Valid (published : List Commit) (obsoleted : List String) (m : Member) :
    Prop where
  memory : m.memory.Sees published obsoleted
  saved : m.saved.Sees published obsoleted
  pending : ∀ delta, m.pending = some delta → Scanned published obsoleted m.memory delta

section Member

variable {published batch : List Commit} {obsoleted : List String} {c : String} {m : Member}

theorem Member.Valid.obsolete (h : m.Valid published obsoleted) (O : List String) :
    m.Valid published (obsoleted ++ O) where
  memory := h.memory.obsolete O
  saved := h.saved.obsolete O
  pending delta hd := (h.pending delta hd).obsolete O

theorem Member.Valid.publish (h : m.Valid published obsoleted) (hf : Fresh published batch) :
    m.Valid (published ++ batch) obsoleted where
  memory := h.memory.publish hf
  saved := h.saved.publish hf
  pending delta hd := (h.pending delta hd).publish h.memory hf

theorem Publishable.fresh (hp : Publishable c m batch) (h : m.Counted published c) :
    Fresh published batch := by
  intro x hx
  obtain ⟨hlt, -⟩ := hp.counter x hx
  refine ⟨by omega, fun y hy ha => ?_⟩
  exact (h.floor y hy (ha.trans (hp.author x hx))).trans_lt hlt

theorem Publishable.distinct (hp : Publishable c m batch) :
    ∀ x ∈ batch, ∀ y ∈ batch, x.clientCounter = y.clientCounter → x = y := by
  intro x hx y hy e
  by_contra hne
  have : Std.Symm fun a b : Commit => a.clientCounter ≠ b.clientCounter := ⟨fun _ _ h => h.symm⟩
  have hpair : batch.Pairwise fun a b => a.clientCounter ≠ b.clientCounter :=
    hp.ascending.imp Nat.ne_of_lt
  exact hpair.forall hx hy hne e

theorem Member.Counted.publish_other (h : m.Counted published c)
    (hother : ∀ x ∈ batch, x.author ≠ c) : m.Counted (published ++ batch) c where
  floor x hx ha := by
    rcases List.mem_append.mp hx with hx | hx
    · exact h.floor x hx ha
    · exact absurd ha (hother x hx)
  floor_le := h.floor_le
  kept hu x hx ha := by
    rcases List.mem_append.mp hx with hx | hx
    · exact h.kept hu x hx ha
    · exact absurd ha (hother x hx)

theorem Member.Counted.publish (h : m.Counted published c) (hp : Publishable c m batch) :
    { m with
      floor := max m.memory.counter m.floor, pending := none, current := false
      unsaved := true : Member }.Counted (published ++ batch) c where
  floor x hx ha := by
    rcases List.mem_append.mp hx with hx | hx
    · exact (h.floor x hx ha).trans (le_max_right ..)
    · exact (hp.counter x hx).2.trans (le_max_left ..)
  floor_le := max_le le_rfl h.floor_le
  kept hu := by simp at hu

end Member

namespace Net

def set (n : Net) (c : String) (m : Member) : Net :=
  { n with member := Function.update n.member c m }

inductive Move (n : Net) : Act → Net → Prop
  | scan {c scopes delta}
      (answer : n.remote.scanCatalog ⟨scopes, (n.member c).memory.cursors⟩ = .ok delta) :
      Move n (.scan c scopes)
        (n.set c { n.member c with
          pending := some delta, asked := (scopes, n.published), current := false })
  | absorb {c delta commits} (scanned : (n.member c).pending = some delta)
      (answer : n.remote.loadCommits ((n.member c).memory.missingIds delta) = .ok commits) :
      Move n (.absorb c)
        (n.set c { n.member c with
          memory := (n.member c).memory.absorb commits delta
          pending := none
          current := true
          seen := refreshSeen (n.member c).asked (n.member c).seen })
  | publish {c batch} (may : Publishable c (n.member c) batch.commits) :
      Move n (.publish c batch)
        ({ n with
          remote := n.remote.commitBatch batch
          published := n.published ++ batch.commits }.set c
            { n.member c with
              floor := max (n.member c).memory.counter (n.member c).floor
              pending := none
              current := false
              unsaved := true })
  | compact {c scope generation obsolete}
      (held : ∀ id ∈ obsolete, ∃ x ∈ n.published, x.id = id) :
      Move n (.compact c scope generation obsolete)
        ({ n with
          remote := n.remote.compactCatalog
            ((n.member c).memory.compaction scope generation obsolete)
          obsoleted := n.obsoleted ++ obsolete }.set c
            { n.member c with
              memory := { (n.member c).memory with
                commits := (n.member c).memory.commits.eraseAll obsolete }
              pending := none
              current := false })
  | work {c s} (grown : Grown [] (n.member c).memory s) :
      Move n (.work c) (n.set c { n.member c with memory := s })
  | record {c s} (idle : (n.member c).pending = none) (stale : (n.member c).current = false)
      (grown : Grown (n.published.filter fun x => x.author = c) (n.member c).memory s) :
      Move n (.record c) (n.set c { n.member c with memory := s })
  | drop {c} : Move n (.drop c) (n.set c { n.member c with pending := none, current := false })
  | save {c} :
      Move n (.save c)
        (n.set c { n.member c with
          saved := (n.member c).memory, savedSeen := (n.member c).seen, unsaved := false })
  | start {c} :
      Move n (.start c) (n.set c { n.member c with floor := (n.member c).memory.counter })
  | crash {c} :
      Move n (.crash c)
        (n.set c { n.member c with
          memory := (n.member c).saved
          seen := (n.member c).savedSeen
          floor := (n.member c).saved.counter
          pending := none
          current := false })
  | other {remote : Remote} (commits : remote.commits = n.remote.commits)
      (segments : remote.segments = n.remote.segments)
      (snapshots : remote.snapshots = n.remote.snapshots) :
      Move n .other { n with remote }

/-- No client loses a commit that it published after its last save. -/
def Survives (n : Net) : Act → Prop
  | .crash c => (n.member c).unsaved = false
  | _ => True

/-- Clients compact only from states that are up to date. -/
def Compacts (n : Net) : Act → Prop
  | .compact c scope generation _ =>
    UpToDate n.remote n.obsoleted (n.member c).memory scope generation
  | _ => True

/-- Counters tell the commits of an author apart. -/
structure Counted (n : Net) : Prop where
  signed : ∀ x ∈ n.published, x.Signed
  counters : ∀ x ∈ n.published, ∀ y ∈ n.published,
    x.author = y.author → x.clientCounter = y.clientCounter → x = y
  positive : ∀ x ∈ n.published, 0 < x.clientCounter
  counted : ∀ c, (n.member c).Counted n.published c

structure Valid (n : Net) : Prop extends Counted n where
  catalog : Sound n.remote n.published n.obsoleted
  obsoleted : ∀ id ∈ n.obsoleted, ∃ x ∈ n.published, x.id = id
  members : ∀ c, (n.member c).Valid n.published n.obsoleted

section Counted

variable {n n' : Net} {c : String}

theorem Counted.init : Counted {} where
  signed := by simp
  counters := by simp
  positive := by simp
  counted _ := ⟨by simp, le_rfl, by simp⟩

theorem Counted.ids (h : n.Counted) :
    ∀ x ∈ n.published, ∀ y ∈ n.published, y.id = x.id → y = x := by
  intro x hx y hy e
  obtain ⟨ha, hc⟩ := (h.signed y hy).inj (h.signed x hx) e
  exact h.counters y hy x hx ha hc

theorem Counted.set (h : n.Counted) {m : Member} (hm : m.Counted n.published c) :
    (n.set c m).Counted where
  signed := h.signed
  counters := h.counters
  positive := h.positive
  counted := (Function.forall_update_iff _ fun c (m : Member) => m.Counted n.published c).mpr
    ⟨hm, fun c _ => h.counted c⟩

theorem Counted.publish (h : n.Counted) {batch : CommitBatch}
    (hp : Publishable c (n.member c) batch.commits) :
    ({ n with
      remote := n.remote.commitBatch batch
      published := n.published ++ batch.commits }.set c
        { n.member c with
          floor := max (n.member c).memory.counter (n.member c).floor
          pending := none
          current := false
          unsaved := true }).Counted := by
  have hf := hp.fresh (h.counted c)
  refine ⟨?_, ?_, ?_, ?_⟩
  · intro x hx
    rcases List.mem_append.mp hx with hx | hx
    · exact h.signed x hx
    · exact hp.signed x hx
  · intro x hx y hy ha hc
    rcases List.mem_append.mp hx with hx | hx <;> rcases List.mem_append.mp hy with hy | hy
    · exact h.counters x hx y hy ha hc
    · exact absurd hc ((hf y hy).2 x hx ha).ne
    · exact absurd hc ((hf x hx).2 y hy ha.symm).ne'
    · exact hp.distinct x hx y hy hc
  · intro x hx
    rcases List.mem_append.mp hx with hx | hx
    · exact h.positive x hx
    · exact (hf x hx).1
  · refine (Function.forall_update_iff _ fun c (m : Member) =>
      m.Counted (n.published ++ batch.commits) c).mpr ⟨(h.counted c).publish hp, ?_⟩
    intro c' hne
    refine (h.counted c').publish_other fun x hx ha => hne ?_
    rw [← ha, hp.author x hx]

theorem Counted.move (h : n.Counted) {a : Act} (hok : n.Survives a) (hm : Move n a n') :
    n'.Counted := by
  cases hm with
  | publish may => exact h.publish may
  | @compact c scope generation obsolete held =>
    have hc := h.counted c
    refine ⟨h.signed, h.counters, h.positive, ?_⟩
    exact (Function.forall_update_iff _ fun c (m : Member) => m.Counted n.published c).mpr
      ⟨⟨hc.floor, hc.floor_le, hc.kept⟩, fun c' _ => h.counted c'⟩
  | @work c s grown | @record c s _ _ grown =>
    have hc := h.counted c
    exact h.set ⟨hc.floor, hc.floor_le.trans grown.counter, hc.kept⟩
  | @save c =>
    have hc := h.counted c
    exact h.set ⟨hc.floor, hc.floor_le, fun _ x hx ha => (hc.floor x hx ha).trans hc.floor_le⟩
  | @start c =>
    have hc := h.counted c
    exact h.set ⟨fun x hx ha => (hc.floor x hx ha).trans hc.floor_le, le_rfl, hc.kept⟩
  | @crash c =>
    have hc := h.counted c
    exact h.set ⟨hc.kept hok, le_rfl, hc.kept⟩
  | other => exact ⟨h.signed, h.counters, h.positive, h.counted⟩
  | @scan c | @absorb c | @drop c =>
    have hc := h.counted c
    exact h.set ⟨hc.floor, hc.floor_le, hc.kept⟩

end Counted

section Valid

variable {n n' : Net} {c : String}

theorem Valid.init : Valid {} where
  toCounted := .init
  catalog := .empty
  obsoleted := by simp
  members _ := ⟨.empty, .empty, by simp⟩

theorem Valid.members_set (h : n.Valid) {m : Member} (hm : m.Valid n.published n.obsoleted) :
    ∀ c', ((n.set c m).member c').Valid n.published n.obsoleted :=
  (Function.forall_update_iff _ fun _ (m : Member) => m.Valid n.published n.obsoleted).mpr
    ⟨hm, fun c _ => h.members c⟩

/-- A new batch is not among the commits that were given up. -/
theorem Valid.not_obsoleted (h : n.Valid) {batch : List Commit} (hf : Fresh n.published batch)
    (ids : ∀ x ∈ n.published ++ batch, ∀ y ∈ n.published ++ batch, y.id = x.id → y = x) :
    ∀ x ∈ batch, x.id ∉ n.obsoleted := by
  intro x hx ho
  obtain ⟨y, hy, e⟩ := h.obsoleted _ ho
  obtain rfl := ids x (List.mem_append_right _ hx) y (List.mem_append_left _ hy) e
  exact absurd rfl ((hf y hx).2 y hy rfl).ne

theorem Valid.work_member (h : n.Valid) {own : List Commit} {s : RuntimeState}
    (hg : Grown own (n.member c).memory s) (hown : ∀ x ∈ own, x ∈ n.published) :
    { n.member c with memory := s : Member }.Valid n.published n.obsoleted := by
  have hc := h.members c
  obtain ⟨xs, hxs, hcommits⟩ := hg.commits
  have hpub : ∀ x ∈ xs, x ∈ n.published := fun x hx => hown x (hxs x hx)
  refine ⟨?_, hc.saved, ?_⟩
  · rw [RuntimeState.Sees, hcommits, hg.cursors]
    exact hc.memory.insertAll h.ids hpub
  · intro delta hd
    refine ⟨(hc.pending delta hd).bounded, fun x hx hle => ?_⟩
    rw [hg.cursors] at hle
    rw [hcommits, hc.memory.mem_insertAll h.ids hpub, or_assoc]
    exact ((hc.pending delta hd).knows x hx hle).imp_right Or.inr

theorem Valid.move (h : n.Valid) {a : Act} (hkept : n.Survives a) (hup : n.Compacts a)
    (hm : Move n a n') : n'.Valid := by
  have hcounted := h.toCounted.move hkept hm
  cases hm with
  | @scan c scopes delta answer =>
    have hc := h.members c
    refine ⟨hcounted, h.catalog, h.obsoleted, h.members_set ⟨hc.memory, hc.saved, ?_⟩⟩
    intro delta' hd
    obtain rfl := Option.some.inj hd
    exact h.catalog.scan hc.memory answer
  | @absorb c delta commits scanned answer =>
    have hc := h.members c
    refine ⟨hcounted, h.catalog, h.obsoleted, h.members_set ⟨?_, hc.saved, by simp⟩⟩
    exact (hc.pending delta scanned).absorb h.catalog hc.memory h.ids answer
  | @publish c batch may =>
    have hf := may.fresh (h.counted c)
    refine ⟨hcounted, h.catalog.publish hf hcounted.ids (h.not_obsoleted hf hcounted.ids), ?_, ?_⟩
    · intro id hid
      obtain ⟨y, hy, e⟩ := h.obsoleted id hid
      exact ⟨y, List.mem_append_left _ hy, e⟩
    · have hc := (h.members c).publish hf
      exact (Function.forall_update_iff _ fun _ (m : Member) =>
        m.Valid (n.published ++ batch.commits) n.obsoleted).mpr
          ⟨⟨hc.memory, hc.saved, by simp⟩, fun c' _ => (h.members c').publish hf⟩
  | @compact c scope generation O held =>
    refine ⟨hcounted, h.catalog.compact (h.members c).memory h.ids h.positive hup, ?_, ?_⟩
    · intro id hid
      rcases List.mem_append.mp hid with hid | hid
      · exact h.obsoleted id hid
      · exact held id hid
    · have hc := h.members c
      exact (Function.forall_update_iff _ fun _ (m : Member) =>
        m.Valid n.published (n.obsoleted ++ O)).mpr
          ⟨⟨hc.memory.eraseAll O, hc.saved.obsolete O, by simp⟩,
            fun c' _ => (h.members c').obsolete O⟩
  | work grown =>
    exact ⟨hcounted, h.catalog, h.obsoleted, h.members_set (h.work_member grown (by simp))⟩
  | record _ _ grown =>
    refine ⟨hcounted, h.catalog, h.obsoleted, h.members_set (h.work_member grown ?_)⟩
    exact fun x hx => (List.mem_filter.mp hx).1
  | @save c =>
    have hc := h.members c
    exact ⟨hcounted, h.catalog, h.obsoleted, h.members_set ⟨hc.memory, hc.memory, hc.pending⟩⟩
  | @crash c =>
    have hc := h.members c
    exact ⟨hcounted, h.catalog, h.obsoleted, h.members_set ⟨hc.saved, hc.saved, by simp⟩⟩
  | @drop c =>
    have hc := h.members c
    exact ⟨hcounted, h.catalog, h.obsoleted, h.members_set ⟨hc.memory, hc.saved, by simp⟩⟩
  | @start c =>
    have hc := h.members c
    exact ⟨hcounted, h.catalog, h.obsoleted, h.members_set ⟨hc.memory, hc.saved, hc.pending⟩⟩
  | other commits segments snapshots =>
    exact ⟨hcounted, h.catalog.congr commits segments snapshots, h.obsoleted, h.members⟩

end Valid

end Net

end Rollforward
