import Rollforward.Ancestry
import Rollforward.Upkeep

/-! What a call of `maintain` with nobody else moving may delete: nothing among the newest
versions, nothing pinned, and nothing of a resource whose checkpoint some client has not
acknowledged. -/

namespace Rollforward

open Std Lib

section Order

variable [Crates] {s : RuntimeState} {x y : Commit}

/-- Later by timestamp, and by id where the timestamps agree. -/
def Commit.Newer (y x : Commit) : Prop :=
  x.timestamp < y.timestamp ∨ (y.timestamp = x.timestamp ∧ x.id < y.id)

instance (y x : Commit) : Decidable (y.Newer x) := inferInstanceAs (Decidable (_ ∨ _))

/-- The versions of its resource that are newer than `x`. -/
def RuntimeState.newerThan (s : RuntimeState) (x : Commit) : List Commit :=
  (s.resourceCommits x.resource).filter fun y => y.Newer x

theorem newestFirst_total (a b : Commit) : newestFirst a b ∨ newestFirst b a := by
  unfold newestFirst
  rcases Int.lt_trichotomy a.timestamp b.timestamp with hlt | heq | hgt
  · exact Or.inr (Or.inl hlt)
  · rcases le_total a.id b.id with hle | hle
    · exact Or.inr (Or.inr ⟨heq.symm, hle⟩)
    · exact Or.inl (Or.inr ⟨heq, hle⟩)
  · exact Or.inl (Or.inl hgt)

theorem newestFirst_trans {a b d : Commit} (hab : newestFirst a b) (hbd : newestFirst b d) :
    newestFirst a d := by
  unfold newestFirst at *
  rcases hab with hab | ⟨hab, hid⟩
  · rcases hbd with hbd | ⟨hbd, -⟩
    · exact Or.inl (hbd.trans hab)
    · exact Or.inl (hbd ▸ hab)
  · rcases hbd with hbd | ⟨hbd, hid'⟩
    · exact Or.inl (hab ▸ hbd)
    · exact Or.inr ⟨hab.trans hbd, hid'.trans hid⟩

instance : Std.Total (newestFirst : Commit → Commit → Prop) := ⟨newestFirst_total⟩

instance : IsTrans Commit newestFirst := ⟨fun _ _ _ => newestFirst_trans⟩

theorem newer_of_newestFirst (h : newestFirst y x) (hne : y.id ≠ x.id) : y.Newer x := by
  rcases h with h | ⟨h, hid⟩
  · exact Or.inl h
  · exact Or.inr ⟨h, hid.lt_of_ne hne.symm⟩

theorem RuntimeState.resourceCommits_nodup (s : RuntimeState) (key : ResourceKey) :
    ((s.resourceCommits key).map Commit.id).Nodup :=
  s.values_nodup.sublist (List.filter_sublist.map _)

/-- What is not among the first `n` of the order has `n` newer versions. -/
theorem RuntimeState.mem_newest (hx : x ∈ s.resourceCommits x.resource) {n : Nat}
    (hn : (s.newerThan x).length < n) :
    x ∈ ((s.resourceCommits x.resource).insertionSort newestFirst).take n := by
  have hperm := List.perm_insertionSort newestFirst (s.resourceCommits x.resource)
  have hsorted := List.pairwise_insertionSort newestFirst (s.resourceCommits x.resource)
  have hids : ((s.resourceCommits x.resource).insertionSort newestFirst).Pairwise
      fun a b => a.id ≠ b.id :=
    List.pairwise_map.mp ((hperm.map Commit.id).nodup_iff.mpr (s.resourceCommits_nodup x.resource))
  rw [← List.mem_insertionSort newestFirst] at hx
  generalize (s.resourceCommits x.resource).insertionSort newestFirst = sorted at *
  rw [← List.take_append_drop n sorted, List.mem_append] at hx
  refine hx.resolve_right fun hdrop => ?_
  have hlength : (sorted.take n).length = n := by
    have hpos := List.length_pos_of_mem hdrop
    rw [List.length_drop] at hpos
    rw [List.length_take]
    omega
  -- all of the first `n` come before `x`
  have hsub : ∀ y ∈ sorted.take n, y ∈ s.newerThan x := by
    intro y hy
    rw [← List.take_append_drop n sorted, List.pairwise_append] at hsorted hids
    refine List.mem_filter.mpr ⟨hperm.mem_iff.mp (List.mem_of_mem_take hy), decide_eq_true ?_⟩
    exact newer_of_newestFirst (hsorted.2.2 y hy x hdrop) (hids.2.2 y hy x hdrop)
  have hnodup : (sorted.take n).Nodup :=
    (hids.imp fun hne e => hne (congrArg Commit.id e)).sublist (List.take_sublist n sorted)
  have hle := (List.subperm_of_subset hnodup hsub).length_le
  omega

end Order

section Stored

variable [Crates] {S : Setting} {w w' : World} {c : String} {s : RuntimeState}

/-- What the answers to a call that runs alone preserve, about the remote and the calls so far. -/
theorem World.Calls.traced {command : Command} (h : World.Calls S c command w w' s)
    {P : Remote → List SyncEvent → Prop} (hstart : P w.remote [])
    (hrespond : ∀ {v v₁ : World} {s q a r h}, P v.remote h → v.respond S c s q a = some (r, v₁) →
      P v₁.remote (⟨s, q, r⟩ :: h))
    (hw : w.Sound S) : P w'.remote (w'.clients c).trace := by
  obtain ⟨⟨w₁, hs₁, hrun⟩, -⟩ := h
  suffices hboth : w'.Sound S ∧ P w'.remote (w'.clients c).trace from hboth.2
  induction hrun with
  | refl =>
    refine ⟨hw.step hs₁, ?_⟩
    rw [World.start_cases hs₁, World.setClient_self]
    exact hstart
  | tail _ hstep ih =>
    obtain ⟨hv, hp⟩ := ih
    obtain ⟨l, halone, hs⟩ := hstep
    refine ⟨hv.step hs, ?_⟩
    cases l with
    | answer c' a =>
      obtain rfl : c' = c := halone
      obtain ⟨s', q, k, r, v₁, hprog, hr, rfl⟩ := World.answer_cases hs
      obtain ⟨hans, -⟩ := World.respond_fair (hv.relies c').files hv.inv.objects hr
      rw [World.resume, World.setClient_self]
      rw [← hans.trace] at hp
      exact @hrespond _ v₁ _ _ _ _ _ hp hr
    | start | edit | crash => exact halone.elim

/-- A stored commit goes only by being handed over. -/
theorem World.respond_stored {v v₁ : World} {q : Req} {a : Answer} {r : q.Resp}
    {h : List SyncEvent} (hr : v.respond S c s q a = some (r, v₁)) {x : Commit}
    (hx : x ∈ v.remote.commits) (hkept : x.id ∉ handed (⟨s, q, r⟩ :: h)) :
    x ∈ v₁.remote.commits := by
  cases World.respond_effect hr with
  | scan | load | save => exact hx
  | batch => exact mem_foldl_writeCommit_of_mem hx
  | compact =>
    rw [handed, List.mem_append, not_or] at hkept
    exact Remote.mem_commits_compactCatalog.mpr ⟨hx, hkept.2⟩
  | other _ same _ =>
    rw [same.commits]
    exact hx

theorem World.Calls.stored {command : Command} (h : World.Calls S c command w w' s)
    (hw : w.Sound S) {x : Commit} (hx : x ∈ w.remote.commits)
    (hkept : x.id ∉ handed (w'.clients c).trace) : x ∈ w'.remote.commits := by
  refine h.traced (P := fun remote h => x.id ∉ handed h → x ∈ remote.commits) (fun _ => hx)
    (fun hp hr hkept => World.respond_stored hr (hp fun hin => hkept ?_) hkept) hw hkept
  rw [handed_cons]
  exact List.mem_append_left _ hin

theorem World.published_step {l : Label} (hs : w.step S l = some w') {x : Commit}
    (hx : x ∈ w.published) : x ∈ w'.published := by
  rcases World.step_published hs with e | ⟨c, s, batch, k, -, -, e⟩
  · rwa [e]
  · rw [e]
    exact List.mem_append_left _ hx

/-- Any call but a write of acknowledgements. -/
def NoAck : Req → Prop
  | .writeAcknowledgements _ => False
  | _ => True

theorem World.respond_acks {v v₁ : World} {q : Req} {a : Answer} {r : q.Resp}
    (hr : v.respond S c s q a = some (r, v₁)) (hq : NoAck q) :
    v₁.remote.acknowledgements = v.remote.acknowledgements := by
  cases a with
  | fail error =>
    simp only [World.respond, Option.map_eq_some_iff, Prod.mk.injEq] at hr
    obtain ⟨_, -, -, rfl⟩ := hr
    rfl
  | serve =>
    cases q with
    | scanCatalog request =>
      simp only [World.respond] at hr
      split at hr <;> cases hr <;> rfl
    | loadCommits ids =>
      simp only [World.respond] at hr
      split at hr <;> cases hr <;> rfl
    | writeAcknowledgements => exact hq.elim
    | _ => cases hr <;> rfl
  | _ =>
    cases q <;> cases hr
    all_goals rfl

/-- The acknowledgements that are listed before any is written are those of the start. -/
theorem World.Calls.acks {command : Command} (h : World.Calls S c command w w' s)
    (hw : w.Sound S) {m : RuntimeState} {keys : List ResourceKey} {acks : List ResourceAck}
    {h₁ : List SyncEvent}
    (hlisted : ⟨m, .listAcknowledgements keys, .ok acks⟩ :: h₁ <:+ (w'.clients c).trace)
    (hfirst : ∀ e ∈ h₁, NoAck e.req) : acks = w.remote.listAcknowledgements keys := by
  refine (h.traced (P := fun remote h =>
    ((∀ e ∈ h, NoAck e.req) → remote.acknowledgements = w.remote.acknowledgements) ∧
      (⟨m, .listAcknowledgements keys, .ok acks⟩ :: h₁ <:+ h →
        acks = w.remote.listAcknowledgements keys)) ⟨fun _ => rfl, fun hs => ?_⟩ ?_ hw).2 hlisted
  · simp at hs
  · intro v v₁ s q a r h hp hr
    refine ⟨fun hall => ?_, fun hs => ?_⟩
    · rw [List.forall_mem_cons] at hall
      rw [World.respond_acks hr hall.1, hp.1 hall.2]
    · rcases List.suffix_cons_iff.mp hs with heq | hs
      · cases heq
        have hacks : acks = v.remote.listAcknowledgements keys := by
          cases a <;> cases hr
          rfl
        rw [hacks, Remote.listAcknowledgements, hp.1 hfirst, Remote.listAcknowledgements]
      · exact hp.2 hs

end Stored


section Gate

variable [Crates] {S : Setting} {w w' : World} {c : String} {s : RuntimeState}
variable {ok : World → Label → Prop}

/-- The remote holds `acks` instead of its acknowledgements. -/
def World.acknowledge (w : World) (acks : Map String ResourceAck) : World :=
  { w with remote := { w.remote with acknowledgements := acks } }

theorem World.Sound.acknowledge (h : w.Sound S) (acks : Map String ResourceAck) :
    (w.acknowledge acks).Sound S :=
  ⟨⟨h.inv.objects, h.inv.clients⟩, h.relies, h.created⟩

/-- `t` is the memory when `maintain` comes to `key`: what it held after the refresh, and the
checkpoints that it published for other resources before. -/
structure Turn (request : MaintenanceRequest) (m : RuntimeState) (own : List Commit)
    (key : ResourceKey) (t : RuntimeState) : Prop where
  commits : ∃ xs, (∀ x ∈ xs, x ∈ own) ∧ t.commits = m.commits.insertAll xs
  resource : t.resourceCommits key = m.resourceCommits key
  checkpoint : (∀ other ∈ m.remoteKeys request.scopes, other.encoded = key.encoded → other = key) →
    t.checkpoints.get? key.encoded = m.checkpoints.get? key.encoded

/-- What lets `c` delete versions of `key` when it comes to it in memory `t`. -/
structure Gate (c : String) (versions : Nat) (acks : Map String ResourceAck) (m t : RuntimeState)
    (key : ResourceKey) (checkpoint : String) : Prop where
  head : ∃ head, m.heads key = [head]
  settled : ∀ conflict ∈ m.conflicts, conflict.resource ≠ key
  long : versions < (m.resourceCommits key).length
  recorded : (t.checkpoints.get? key.encoded).map StoredCheckpoint.commitId = some checkpoint
  acknowledged : ∀ client, client = c ∨
      client ∉ m.retiredClients ∧ client ∈ (m.resourceCommits key).map Commit.author →
    ∃ (name : String) (ack : ResourceAck), acks[name]? = some ack ∧ ack.clientId = client ∧
      ack.resource = key ∧ ∃ head ∈ ack.observedHeads, Reaches t.parentsOf head checkpoint

/-- What `maintain`, with `m` in memory after its refresh, leaves of the remote. -/
structure Upheld (c : String) (request : MaintenanceRequest) (acks : Map String ResourceAck)
    (w w' : World) (m s : RuntimeState) : Prop where
  newest : ∀ x ∈ m.commits, x ∈ w.remote.commits →
    (m.newerThan x).length < request.historyRetentionVersions →
      x ∈ w'.remote.commits ∧ x ∈ s.commits
  pinned : ∀ x ∈ m.commits, x ∈ w.remote.commits →
    (∃ (name : String) (ack : ResourceAck), acks[name]? = some ack ∧ ack.resource = x.resource ∧
      x.id ∈ ack.pinnedCommits) → x ∈ w'.remote.commits ∧ x ∈ s.commits
  checkpoint : ∀ x ∈ m.commits, x ∈ w.remote.commits →
    (m.checkpoints.get? x.resource.encoded).map StoredCheckpoint.commitId = some x.id →
    (∀ other ∈ m.remoteKeys request.scopes, other.encoded = x.resource.encoded →
      other = x.resource) → x ∈ w'.remote.commits ∧ x ∈ s.commits
  deleted : ∀ x ∈ w.remote.commits, x ∉ w'.remote.commits →
    inScopes request.scopes x.resource.scopeId ∧ ∃ t checkpoint,
      Turn request m (ownCommits (w'.clients c).trace) x.resource t ∧
      Gate c request.historyRetentionVersions acks m t x.resource checkpoint ∧ x.id ≠ checkpoint
  chunks : ∀ x ∈ s.commits, ∀ hash ∈ x.change.chunkHashes, ∀ data,
    w.remote.reassemble [hash] = .ok data → w'.remote.reassemble [hash] = .ok data

theorem mem_listAcknowledgements {remote : Remote} {keys : List ResourceKey} {ack : ResourceAck} :
    ack ∈ remote.listAcknowledgements keys ↔
      (∃ name : String, remote.acknowledgements[name]? = some ack) ∧
        (keys.isEmpty = true ∨ ack.resource ∈ keys) := by
  rw [Remote.listAcknowledgements, List.mem_filter, Bool.or_eq_true, decide_eq_true_iff]
  refine and_congr ?_ Iff.rfl
  constructor
  · intro hin
    obtain ⟨⟨name, ack⟩, hm, rfl⟩ := List.mem_map.mp hin
    exact ⟨name, ExtTreeMap.mem_toList_iff_getElem?_eq_some.mp hm⟩
  · rintro ⟨name, hget⟩
    exact List.mem_map.mpr ⟨_, ExtTreeMap.mem_toList_iff_getElem?_eq_some.mpr hget, rfl⟩

/-- A resource whose history is cut came to its turn with the gate open. -/
theorem Ruling.opened {rt : SyncRuntime} {request : MaintenanceRequest} {m : RuntimeState}
    {acks : List ResourceAck} {known : Map String ResourceAck} {vs : Verdicts}
    {h : List SyncEvent} (hr : Ruling rt request [] m acks vs h)
    (ht : Truncated rt request.historyRetentionVersions [] m acks vs h s)
    (hacks : ∀ ack ∈ acks, ∃ name : String, known[name]? = some ack) {key : ResourceKey}
    {checkpoint : String} (hv : (key, Verdict.truncate checkpoint) ∈ vs) : ∃ t,
      Turn request m (ownCommits h) key t ∧
      Gate rt.clientId request.historyRetentionVersions known m t key checkpoint := by
  obtain ⟨vs₁, t, hbefore, hnew, hres, hb, hclear, -, hrecorded, hall⟩ := hr.ruled key _ hv
  obtain ⟨hlong, hhead⟩ := ht.fits key _ hv
  refine ⟨t, ⟨⟨Verdicts.checkpoints vs₁, fun x hx => ?_, hb.commits⟩, hres, fun hunshared => ?_⟩,
    hhead, fun conflict hconflict e => ?_, hlong, hrecorded, fun client hclient => ?_⟩
  · obtain ⟨other, ho⟩ := Verdicts.mem_checkpoints.mp hx
    exact (ht.own x).mpr (Or.inr (Verdicts.mem_checkpoints.mpr ⟨other, hbefore.subset ho⟩))
  · refine hb.checkpoints _ fun other ho e => hnew ?_
    have hkeys : other ∈ m.remoteKeys request.scopes :=
      hr.keys ▸ (hbefore.map Prod.fst).subset ho
    exact hunshared other hkeys e ▸ ho
  · rw [RuntimeState.conflicted, Bool.or_eq_false_iff, Bool.or_eq_false_iff, hb.conflicts,
      List.any_eq_false] at hclear
    exact hclear.1.2 conflict (KeyedMap.mem_values.mpr hconflict) (decide_eq_true e)
  · have hactive : client ∈ t.activeClients rt key := by
      rw [RuntimeState.activeClients, List.mem_append, List.mem_filter, hres, hb.retired,
        List.mem_singleton, decide_eq_true_iff, and_comm, or_comm]
      exact hclient
    obtain ⟨ack, hack, hmatch⟩ := List.any_eq_true.mp (List.all_eq_true.mp hall client hactive)
    simp only [Bool.and_eq_true, decide_eq_true_eq, List.any_eq_true] at hmatch
    obtain ⟨⟨hid, hresource⟩, head, hobserved, hreach⟩ := hmatch
    obtain ⟨name, hname⟩ := hacks ack hack
    exact ⟨name, ack, hname, hid, hresource, head, hobserved,
      RuntimeState.isDescendant_iff.mp hreach⟩

/-- With nobody else moving, `maintain` keeps the newest versions, the checkpoint and what is
pinned, with their chunks, and deletes versions of a resource of its scopes only when everybody
has come as far as the checkpoint. -/
theorem World.maintain_retains (hcol : Collisionless) (hcdc : FastcdcTiles)
    (hw : w.Reachable S ok) (acks : Map String ResourceAck) {request : MaintenanceRequest}
    (hversions : 1 ≤ request.historyRetentionVersions)
    (h : World.Calls S c (.maintain request) (w.acknowledge acks) w' s) :
    ∃ m h₁, Caught [] h₁ m ∧ h₁ <:+ (w'.clients c).trace ∧ Upheld c request acks w w' m s := by
  have hsound := hw.sound.acknowledge acks
  have hsound' : w'.Sound S := h.keeps (fun hv hs => hv.step hs) hsound
  obtain ⟨m, listed, vs, ht, hr⟩ := h.truncated hcol hsound hversions
  obtain ⟨h₁, hcaught, hlisted⟩ := hr.listed
  have hsuffix := (List.suffix_cons _ _).trans hlisted
  have hacks : ∀ ack, ack ∈ listed ↔ (∃ name : String, acks[name]? = some ack) ∧
      ((m.remoteKeys request.scopes).isEmpty = true ∨
        ack.resource ∈ m.remoteKeys request.scopes) := by
    intro ack
    rw [h.acks hsound hlisted ?_, mem_listAcknowledgements]
    · rfl
    · cases hcaught
      simp [NoAck]
  have hkeep : ∀ x ∈ m.commits, x ∈ w.remote.commits → x.id ∉ handed (w'.clients c).trace →
      x ∈ w'.remote.commits ∧ x ∈ s.commits :=
    fun x hx hstored hkept => ⟨h.stored hsound hstored hkept, ht.mem_commits hx hkept⟩
  refine ⟨m, h₁, hcaught, hsuffix, ⟨?_, ?_, ?_, ?_, ?_⟩⟩
  · intro x hx hstored hnew
    refine hkeep x hx hstored fun hin => ?_
    obtain ⟨checkpoint, -, hnot⟩ := (ht.mem_handed hx).mp hin
    refine hnot (List.mem_append_left _ (List.mem_append_left _ (List.mem_map_of_mem ?_)))
    exact RuntimeState.mem_newest (RuntimeState.mem_resourceCommits.mpr ⟨hx, rfl⟩) hnew
  · rintro x hx hstored ⟨name, ack, hname, hresource, hpin⟩
    refine hkeep x hx hstored fun hin => ?_
    obtain ⟨checkpoint, hv, hnot⟩ := (ht.mem_handed hx).mp hin
    have hkey : x.resource ∈ m.remoteKeys request.scopes := hr.keys ▸ List.mem_map_of_mem hv
    refine hnot (List.mem_append_right _ (List.mem_flatMap.mpr ⟨ack, ?_, hpin⟩))
    exact List.mem_filter.mpr ⟨(hacks ack).mpr ⟨⟨name, hname⟩, Or.inr (hresource ▸ hkey)⟩,
      decide_eq_true hresource⟩
  · intro x hx hstored hcheckpoint hunshared
    refine hkeep x hx hstored fun hin => ?_
    obtain ⟨checkpoint, hv, hnot⟩ := (ht.mem_handed hx).mp hin
    obtain ⟨t, hturn, hgate⟩ := hr.opened ht (fun ack hack => ((hacks ack).mp hack).1) hv
    refine hnot (List.mem_append_left _ (List.mem_append_right _ (List.mem_singleton.mpr ?_)))
    exact Option.some.inj (hcheckpoint.symm.trans (hturn.checkpoint hunshared ▸ hgate.recorded))
  · intro x hstored hgone
    have hin : x.id ∈ handed (w'.clients c).trace := by
      by_contra hkept
      exact hgone (h.stored hsound hstored hkept)
    have hx : x ∈ m.commits := by
      obtain ⟨scope, hscope⟩ := ((ht.handed _).mp hin).resolve_left List.not_mem_nil
      obtain ⟨key, checkpoint, -, -, hid⟩ := Verdicts.mem_obsolete.mp hscope
      obtain ⟨y, hy, e⟩ := List.mem_map.mp (List.mem_filter.mp hid).1
      have hy := (RuntimeState.mem_resourceCommits.mp hy).1
      have hpub : x ∈ w'.published :=
        h.keeps (fun hv hs => World.published_step hs hv) (hw.inv.objects x hstored)
      obtain rfl := hsound'.ids hcol x hpub y (hsound'.caught hcaught hsuffix y hy) e
      exact hy
    obtain ⟨checkpoint, hv, hnot⟩ := (ht.mem_handed hx).mp hin
    obtain ⟨t, hturn, hgate⟩ := hr.opened ht (fun ack hack => ((hacks ack).mp hack).1) hv
    have hkey : x.resource ∈ m.remoteKeys request.scopes := hr.keys ▸ List.mem_map_of_mem hv
    refine ⟨(mem_remoteKeys.mp hkey).1, t, checkpoint, hturn, hgate, fun e => hnot ?_⟩
    exact List.mem_append_left _ (List.mem_append_right _ (List.mem_singleton.mpr e))
  · intro x hx hash hh data hdata
    have hstart : (w.acknowledge acks).remote.Stocked :=
      ⟨(hw.stocked hcol.digest hcdc).packs, (hw.stocked hcol.digest hcdc).indexes⟩
    obtain ⟨hstocked, hspared⟩ := h.spares hcol.digest hcdc hsound hstart
    refine hstocked.reassemble_again hcol.digest hdata fun hash' hh' hl => hspared hash' ?_ hl
    rw [List.mem_singleton.mp hh']
    exact List.mem_flatMap.mpr ⟨x, KeyedMap.mem_values.mpr hx, hh⟩

end Gate

section Scripts

open Sample

attribute [local instance] spelled

/-- Two versions and an acknowledged checkpoint, of which the first version goes. -/
theorem World.maintain_retains_tidy : ∃ w w' s m,
    World.Calls {} "A" (.maintain ⟨[], 1⟩) w w' s ∧ handed (w'.clients "A").trace ≠ [] ∧
      Upheld "A" ⟨[], 1⟩ w.remote.acknowledgements w w' m s := by
  obtain ⟨w, w', s, hw, -, hcall, hp⟩ := exists_call {} (fun _ _ => True)
    (upload "A" "a" "1" "t1" ++ upload "A" "a" "2" "t2" ++ tidy "A") "A" (.maintain ⟨[], 1⟩)
    (fun _ w' => handed (w'.clients "A").trace ≠ []) (by decide +kernel)
  obtain ⟨m, h₁, -, -, hup⟩ := World.maintain_retains spelled_collisionless
    spelled_fastcdcTiles hw w.remote.acknowledgements (by decide) hcall
  exact ⟨w, w', s, m, hcall, of_decide_eq_true hp, hup⟩

end Scripts

end Rollforward
