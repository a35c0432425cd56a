import Rollforward.Catalog.Feed
import Rollforward.Graph
import Rollforward.Upkeep

/-! What a truncation leaves of the heads: in the memory of the client that made it, and
for a client that comes to the catalog afterwards. -/

namespace Rollforward

open Std Lib

section Heads

variable [Crates] {s t : RuntimeState} {new : List Commit} {gone : ResourceKey → String → Prop}
variable {key : ResourceKey}

namespace Trimming

end Trimming

end Heads

section Calls

variable [Crates] {S : Setting} {w w' : World} {c : String} {ok : World → Label → Prop}
variable {s : RuntimeState}

/-- What an answer publishes and gives up. -/
theorem World.respond_accounts {q : Req} {a : Answer} {r : q.Resp}
    (h : w.respond S c s q a = some (r, w')) :
    w'.published = w.published ++ ownCommits [⟨s, q, r⟩] ∧
      w'.obsoleted = w.obsoleted ++ handed [⟨s, q, r⟩] := by
  have hsame : w'.published = w.published ∧ w'.obsoleted = w.obsoleted →
      ownCommits [⟨s, q, r⟩] = [] → handed [⟨s, q, r⟩] = [] →
      w'.published = w.published ++ ownCommits [⟨s, q, r⟩] ∧
        w'.obsoleted = w.obsoleted ++ handed [⟨s, q, r⟩] := by
    intro hw hown hhanded
    rw [hown, hhanded, List.append_nil, List.append_nil]
    exact hw
  cases a with
  | fail error =>
    simp only [World.respond, Option.map_eq_some_iff, Prod.mk.injEq] at h
    obtain ⟨_, hf, rfl, rfl⟩ := h
    cases q <;> cases hf <;> exact hsame ⟨rfl, rfl⟩ rfl rfl
  | serve =>
    cases q with
    | commitBatch batch =>
      cases h
      exact ⟨congrArg (w.published ++ ·) (List.append_nil _).symm, (List.append_nil _).symm⟩
    | compactCatalog compaction =>
      cases h
      exact ⟨(List.append_nil _).symm, rfl⟩
    | scanCatalog request =>
      simp only [World.respond] at h
      split at h
      · cases h
        exact hsame ⟨rfl, rfl⟩ rfl rfl
      · cases h
        exact hsame ⟨rfl, rfl⟩ rfl rfl
    | loadCommits ids =>
      simp only [World.respond] at h
      split at h
      · cases h
        exact hsame ⟨rfl, rfl⟩ rfl rfl
      · cases h
        exact hsame ⟨rfl, rfl⟩ rfl rfl
    | _ =>
      cases h
      all_goals exact hsame ⟨rfl, rfl⟩ rfl rfl
  | _ =>
    cases q <;> cases h
    all_goals exact hsame ⟨rfl, rfl⟩ rfl rfl

theorem ownCommits_cons (e : SyncEvent) (h : List SyncEvent) :
    ownCommits (e :: h) = ownCommits [e] ++ ownCommits h := by
  obtain ⟨t, q, r⟩ := e
  cases q with
  | commitBatch batch => cases r <;> simp [ownCommits]
  | _ => rfl

theorem le_floorOf (s₀ : RuntimeState) (h : List SyncEvent) : s₀.counter ≤ floorOf s₀ h := by
  induction h with
  | nil => exact le_rfl
  | cons e h ih =>
    unfold floorOf
    split
    · next heq => cases heq
    · next heq =>
      cases heq
      exact ih.trans (Nat.le_max_right ..)
    · next heq =>
      cases heq
      exact ih

/-- What was published and what was given up in a call. -/
structure World.Accounts (w : World) (c : String) (w' : World) : Prop where
  published : ∀ x, x ∈ w'.published ↔ x ∈ w.published ∨ x ∈ ownCommits (w'.clients c).trace
  obsoleted : ∀ id, id ∈ w'.obsoleted ↔ id ∈ w.obsoleted ∨ id ∈ handed (w'.clients c).trace
  before : (w'.clients c).before = w.memory c
  counters : ∀ x ∈ ownCommits (w'.clients c).trace, x.author = c ∧ (w.memory c).counter < x.clientCounter

theorem World.Accounts.answer {v v₁ : World} {s' : RuntimeState} {q : Req} {a : Answer} {r : q.Resp}
    {k : q.Resp → Prog host RuntimeState (Except SyncError Unit)} (h : w.Accounts c v)
    (hv : v.Reachable S ok) (hp : (v.clients c).prog = .call s' q k)
    (hr : v.respond S c s' q a = some (r, v₁)) : w.Accounts c (v₁.resume c s' q r (k r)) := by
  obtain ⟨hans, -⟩ := World.respond_fair ((World.Reachable.relies hv) c).files
    (World.Reachable.inv hv).objects hr
  obtain ⟨hpub, hobs⟩ := World.respond_accounts hr
  have htrace : ((v₁.resume c s' q r (k r)).clients c).trace =
      ⟨s', q, r⟩ :: (v.clients c).trace := by
    rw [World.resume, World.setClient_self, ← hans.trace]
  refine ⟨fun x => ?_, fun id => ?_, ?_, ?_⟩
  · rw [htrace, ownCommits_cons, List.mem_append]
    change x ∈ v₁.published ↔ _
    rw [hpub, List.mem_append, h.published]
    tauto
  · rw [htrace, handed_cons, List.mem_append]
    change id ∈ v₁.obsoleted ↔ _
    rw [hobs, List.mem_append, h.obsoleted]
    tauto
  · rw [World.resume, World.setClient_self]
    exact hans.before.trans h.before
  · rw [htrace, ownCommits_cons]
    intro x hx
    rcases List.mem_append.mp hx with hx | hx
    · have hcall := ((World.Reachable.inv hv).clients c).meets
      rw [hp] at hcall
      cases q with
      | commitBatch batch =>
        cases r with
        | error => cases hx
        | ok _ =>
          have hask : BatchAsk c _ _ _ batch.commits := hcall.1.2
          rw [ownCommits, ownCommits, List.append_nil] at hx
          obtain ⟨key, parents, counter, timestamp, change, hcreated⟩ := hask.created x hx
          have hfloor := (hask.counter x hx).1
          have hle := le_floorOf (v.clients c).before (v.clients c).trace
          rw [h.before] at hle hfloor
          exact ⟨by rw [hcreated]; rfl, hle.trans_lt hfloor⟩
      | _ => cases hx
    · exact h.counters x hx

theorem World.Calls.accounts {command : Command} (h : World.Calls S c command w w' s)
    (hw : w.Reachable S ok) : w.Accounts c w' := by
  obtain ⟨⟨w₁, hstart, hrun⟩, -⟩ := h
  have h₁ : w₁.Reachable S fun _ _ => True :=
    (hw.mono fun _ _ _ => trivial).tail ⟨_, trivial, hstart⟩
  obtain rfl := World.start_cases hstart
  suffices hboth : w'.Reachable S (fun _ _ => True) ∧ w.Accounts c w' from hboth.2
  induction hrun with
  | refl =>
    refine ⟨h₁, ⟨?_, ?_, ?_, ?_⟩⟩ <;> rw [World.setClient_self]
    · exact fun x => (or_iff_left List.not_mem_nil).symm
    · exact fun id => (or_iff_left List.not_mem_nil).symm
    · rfl
    · exact fun x hx => absurd hx List.not_mem_nil
  | @tail v v' _ hstep ih =>
    obtain ⟨l, halone, hs⟩ := hstep
    refine ⟨ih.1.tail ⟨l, trivial, hs⟩, ?_⟩
    cases l with
    | answer c' a =>
      obtain rfl : c' = c := halone
      obtain ⟨s', q, k, r, v₁, hp, hr, rfl⟩ := World.answer_cases hs
      exact ih.2.answer ih.1 hp hr
    | start | edit | crash => exact halone.elim

end Calls

/-- What a call of `maintain` did, given what it started from: nothing where the retention is
zero. -/
inductive Upkept [Crates] (rt : SyncRuntime) (versions : Nat) (before : RuntimeState) :
    RuntimeState → List ResourceAck → Verdicts → List SyncEvent → RuntimeState → Prop
  | off (zero : versions = 0) : Upkept rt versions before before [] [] [] before
  | cut {m acks vs h s} (cut : Truncated rt versions [] m acks vs h s) :
      Upkept rt versions before m acks vs h s

/-- The commit is given up where the history of its resource is cut. -/
def Verdicts.GivenUp [Crates] (vs : Verdicts) (m : RuntimeState) (versions : Nat)
    (acks : List ResourceAck) (key : ResourceKey) (id : String) : Prop :=
  ∃ checkpoint, (key, Verdict.truncate checkpoint) ∈ vs ∧ id ∈ m.obsolete versions acks key checkpoint

section Verdicts

variable [Crates] {rt : SyncRuntime} {versions : Nat} {before m s t : RuntimeState}
variable {acks : List ResourceAck} {vs : Verdicts} {h : List SyncEvent}

theorem Verdicts.unique (hd : (vs.map Prod.fst).Nodup) {key : ResourceKey} {v v' : Verdict}
    (hv : (key, v) ∈ vs) (hv' : (key, v') ∈ vs) : v = v' :=
  (Prod.mk.inj (List.inj_on_of_nodup_map hd hv hv' rfl)).2

theorem Verdicts.GivenUp.held {key : ResourceKey} {id : String}
    (hg : vs.GivenUp m versions acks key id) : ∃ y ∈ m.commits, y.resource = key ∧ y.id = id := by
  obtain ⟨checkpoint, -, hid⟩ := hg
  obtain ⟨y, hy, rfl⟩ := List.mem_map.mp (List.mem_filter.mp hid).1
  obtain ⟨hheld, hres⟩ := RuntimeState.mem_resourceCommits.mp hy
  exact ⟨y, hheld, hres, rfl⟩

theorem Verdicts.mem_givenUp {id : String} : (∃ scope, id ∈ vs.obsolete m versions acks scope) ↔
    ∃ key, vs.GivenUp m versions acks key id := by
  constructor
  · rintro ⟨scope, hid⟩
    obtain ⟨key, checkpoint, hv, -, hid⟩ := Verdicts.mem_obsolete.mp hid
    exact ⟨key, checkpoint, hv, hid⟩
  · rintro ⟨key, checkpoint, hv, hid⟩
    exact ⟨key.scopeId, Verdicts.mem_obsolete.mpr ⟨key, checkpoint, hv, rfl, hid⟩⟩

namespace Upkept

theorem fits (hu : Upkept rt versions before m acks vs h s) :
    ∀ key verdict, (key, verdict) ∈ vs → verdict.Fits rt versions m key := by
  cases hu with
  | off => simp
  | cut ht => exact ht.fits

theorem distinct (hu : Upkept rt versions before m acks vs h s) : (vs.map Prod.fst).Nodup := by
  cases hu with
  | off => simp
  | cut ht => exact ht.distinct

theorem own (hu : Upkept rt versions before m acks vs h s) (x : Commit) :
    x ∈ ownCommits h ↔ x ∈ vs.checkpoints := by
  cases hu with
  | off => exact Iff.rfl
  | cut ht => simp [ht.own, ownCommits]

theorem handed (hu : Upkept rt versions before m acks vs h s) (id : String) :
    id ∈ Rollforward.handed h ↔ ∃ key, vs.GivenUp m versions acks key id := by
  cases hu with
  | off => simp [Rollforward.handed, Verdicts.GivenUp]
  | cut ht => rw [ht.handed, Verdicts.mem_givenUp, Rollforward.handed, or_iff_right List.not_mem_nil]

theorem fits_checkpoint (hu : Upkept rt versions before m acks vs h s) {x : Commit}
    (hx : x ∈ vs.checkpoints) : (x.resource, Verdict.checkpoint x) ∈ vs ∧
      m.commits.get? x.id = none ∧ ∃ head, m.heads x.resource = [head] ∧ x.parents = [head] := by
  obtain ⟨key, hv⟩ := Verdicts.mem_checkpoints.mp hx
  obtain ⟨-, rfl, -, hnone, head, hhead, hp⟩ := hu.fits key _ hv
  exact ⟨hv, hnone, head, hhead, hp⟩

theorem mem (hu : Upkept rt versions before m acks vs h s)
    (hids : ∀ x ∈ vs.checkpoints, ∀ y ∈ vs.checkpoints, y.id = x.id → y = x) (x : Commit) :
    x ∈ s.commits ↔ (x ∈ m.commits ∨ x ∈ vs.checkpoints) ∧
      ∀ key, ¬ vs.GivenUp m versions acks key x.id := by
  cases hu with
  | off => simp [Verdicts.checkpoints, Verdicts.GivenUp]
  | cut ht =>
    obtain ⟨gone, hcommits, hgone⟩ := ht.commits
    have hnew : ∀ y ∈ vs.checkpoints, ∀ z ∈ m.commits, z.id = y.id → z = y := by
      intro y hy z hz e
      have hnone := (fits_checkpoint (@Upkept.cut _ _ _ before _ _ _ _ _ ht) hy).2.1
      rw [← e, KeyedMap.mem_def.mp hz] at hnone
      cases hnone
    rw [hcommits, KeyedMap.mem_eraseAll, hgone, Verdicts.mem_givenUp, not_exists,
      KeyedMap.mem_insertAll hnew hids]

end Upkept

end Verdicts

section Runs

variable [Crates] {S : Setting} {w w' : World} {c : String} {ok : World → Label → Prop}
variable {s : RuntimeState}

end Runs

section Scripts

open Sample

attribute [local instance] spelled

end Scripts

section Losses

open Sample

attribute [local instance] crates

end Losses

end Rollforward
