import Rollforward.Alone
import Rollforward.Identity
import Rollforward.Maintained
import Rollforward.Spelled
import Rollforward.Storage.Content
import Rollforward.Storage.Recovery

/-! One call of `maintain` with nobody else moving: which versions it hands over to be
deleted, and what of the others can still be read. -/

namespace Rollforward

open Std Lib

section Stock

variable [Crates] {S : Setting} {w w₁ : World} {c : String} {remote : Remote}

/-- What an answer says about the packs and indexes, and what it does to them. -/
def Remote.Answers (remote : Remote) (e : SyncEvent) (remote' : Remote) : Prop :=
  match e with
  | ⟨_, .commitBatch batch, .ok _⟩ => remote' = remote.commitBatch batch
  | ⟨_, .deletePackObjects ids, .ok _⟩ => remote' = remote.deletePackObjects ids
  | ⟨_, .lookupChunks hashes, .ok locations⟩ =>
    remote' = remote ∧ locations = remote.lookupChunks hashes
  | ⟨_, .listPackIds, _⟩ => remote' = remote
  | _ => remote'.packs = remote.packs ∧ remote'.indexes = remote.indexes

theorem World.respond_answers {s : RuntimeState} {q : Req} {a : Answer} {r : q.Resp}
    (h : w.respond S c s q a = some (r, w₁)) : w.remote.Answers ⟨s, q, r⟩ w₁.remote := by
  cases a with
  | fail error =>
    simp only [World.respond, Option.map_eq_some_iff, Prod.mk.injEq] at h
    obtain ⟨_, hf, rfl, rfl⟩ := h
    cases q <;> cases hf <;> first | exact ⟨rfl, rfl⟩ | exact rfl
  | serve =>
    cases q with
    | scanCatalog request =>
      simp only [World.respond] at h
      split at h
      · cases h
        exact ⟨rfl, rfl⟩
      · cases h
        exact ⟨rfl, rfl⟩
    | loadCommits ids =>
      simp only [World.respond] at h
      split at h
      · cases h
        exact ⟨rfl, rfl⟩
      · cases h
        exact ⟨rfl, rfl⟩
    | _ => cases h <;> first | exact ⟨rfl, rfl⟩ | exact rfl
  | _ =>
    cases q <;> cases h
    all_goals exact ⟨rfl, rfl⟩

theorem Remote.Answers.listed {remote' : Remote} {s : RuntimeState} {q : Req} {r : q.Resp}
    (h : remote.Answers ⟨s, q, r⟩ remote') (hq : NoDeletion q) {hash : String}
    (hl : remote.Listed hash) : remote'.Listed hash := by
  have hsame : remote'.indexes = remote.indexes → remote'.Listed hash := by
    intro hi
    rw [Remote.Listed, hi]
    exact hl
  unfold Remote.Answers at h
  split at h
  · rw [h]
    exact Remote.listed_commitBatch.mpr (Or.inl hl)
  · next heq =>
    cases heq
    exact hq.elim
  · exact hsame (by rw [h.1])
  · exact hsame (by rw [h])
  · exact hsame h.2

/-- Answers of a remote whose stock is in order. -/
def Tended (remote : Remote) (e : SyncEvent) (remote' : Remote) : Prop :=
  remote.Answers e remote' ∧ remote.Stocked

/-- The chunks that are listed stay listed. -/
theorem Comp.Within.lists {x : Sync α} (hx : Comp.Within NoDeletion Anyhow x) {remote : Remote}
    {s : RuntimeState} {Q : Remote → RuntimeState → α → Prop}
    (hQ : ∀ remote' s a, (∀ hash, remote.Listed hash → remote'.Listed hash) → Q remote' s a) :
    Comp.wp Tended (fun _ _ _ => True) (fun _ _ _ => True) x Q remote s := by
  refine Comp.wp_mono (hx.wp (J := fun (remote' : Remote) (_ : RuntimeState) =>
    ∀ hash, remote.Listed hash → remote'.Listed hash) (fun _ _ _ hj _ => hj) (fun _ _ _ _ _ => trivial) ?_ fun _ hl => hl)
    (fun _ _ _ _ => trivial) fun remote' s a hj => hQ remote' s a hj
  intro remote₁ s₁ q r remote₂ hj hq ht hash hl
  exact ht.1.listed hq (hj hash hl)

/-- The collection of packs spares every listed chunk of a commit that is held. -/
theorem collectPacks_spares (report : V2MaintenanceReport) (remote : Remote) (s : RuntimeState) :
    Comp.wp Tended (fun _ _ _ => True) (fun _ _ _ => True) (collectPacks report)
      (fun remote' s' _ => s' = s ∧
        ∀ hash ∈ s.liveHashes, remote.Listed hash → remote'.Listed hash) remote s := by
  rw [collectPacks, Comp.wp_bind, Comp.wp_get, Comp.wp_bind]
  refine Comp.wp_request.mpr ⟨trivial, ?_⟩
  rintro r remote₁ ⟨hr, hstocked⟩
  refine ⟨fun locations hok => ?_, fun _ _ => trivial⟩
  obtain rfl : r = .ok locations := hok
  obtain ⟨rfl, rfl⟩ : remote₁ = remote ∧ locations = remote.lookupChunks s.liveHashes := hr
  rw [Comp.wp_bind]
  refine Comp.wp_request.mpr ⟨trivial, ?_⟩
  rintro r remote₂ ⟨hr, -⟩
  refine ⟨fun packs hok => ?_, fun _ _ => trivial⟩
  obtain rfl : remote₂ = remote₁ := hr
  dsimp only
  rw [Comp.wp_ite]
  refine ⟨fun _ => ⟨rfl, fun _ _ hl => hl⟩, fun _ => ?_⟩
  rw [Comp.wp_bind]
  refine Comp.wp_request.mpr ⟨trivial, ?_⟩
  rintro r remote₃ ⟨hr, -⟩
  refine ⟨fun _ hok => ⟨rfl, fun hash hh hl => ?_⟩, fun _ _ => trivial⟩
  obtain rfl : r = .ok () := hok
  replace hr : remote₃ = _ := hr
  -- the pack a lookup names is not a dead one
  obtain ⟨location, hloc, rfl⟩ := List.mem_map.mp ((Remote.mem_lookupChunks hh).mpr hl)
  obtain ⟨index, hi, entry, he, rfl⟩ := mem_lookupIn hloc
  obtain ⟨id, hi⟩ := Remote.mem_listing.mp hi
  obtain ⟨data, -, hsealed⟩ := hstocked.indexes id index hi
  refine ⟨id, index, ?_, List.mem_map_of_mem he⟩
  rw [hr, Remote.deletePackObjects, get?_foldl_erase, if_neg]
  · exact hi
  · intro hdead
    refine of_decide_eq_true (List.mem_filter.mp hdead).2 (List.mem_map.mpr ⟨_, hloc, ?_⟩)
    exact hsealed.packId

theorem maintain_spares (rt : SyncRuntime) (request : MaintenanceRequest) (remote : Remote)
    (s : RuntimeState) :
    Comp.wp Tended (fun _ _ _ => True) (fun _ _ _ => True) (Rollforward.maintain rt request)
      (fun remote' s' _ => ∀ hash ∈ s'.liveHashes, remote.Listed hash → remote'.Listed hash)
      remote s := by
  unfold maintain
  split
  · exact fun _ _ hl => hl
  rw [Comp.wp_bind]
  refine Comp.Within.lists (Tame.noDeletion (refreshRemote_tame [])) fun remote₁ s₁ _ h₁ => ?_
  rw [Comp.wp_bind, Comp.wp_get, Comp.wp_bind]
  refine Comp.Within.lists (.request (by exact trivial) _) fun remote₂ s₂ acks h₂ => ?_
  rw [Comp.wp_bind]
  refine Comp.Within.lists (.foldlM (fun survey key =>
    Tame.noDeletion (surveyKey_tame rt _ acks survey key)) _ _) fun remote₃ s₃ survey h₃ => ?_
  rw [Comp.wp_bind]
  refine Comp.Within.lists (.foldlM (fun report entry => .bind .get fun _ =>
    .bind (.request (by exact trivial) _) fun _ => .bind (.request (by exact trivial) _) fun _ =>
    .bind (.modify fun _ => trivial) fun _ => .pure _) _ _) fun remote₄ s₄ report h₄ => ?_
  rw [Comp.wp_bind]
  refine Comp.wp_imp (collectPacks_spares report remote₄ s₄) ?_
  rintro remote₅ s₅ report' ⟨rfl, h₅⟩
  rw [Comp.wp_bind]
  refine Comp.wp_request.mpr ⟨trivial, ?_⟩
  rintro r remote₆ ⟨hr, -⟩
  refine ⟨fun _ _ hash hh hl => ?_, fun _ _ => trivial⟩
  exact Remote.Answers.listed hr trivial (h₅ hash hh (h₄ hash (h₃ hash (h₂ hash (h₁ hash hl)))))

end Stock

section Histories

variable [Crates] {s t m : RuntimeState} {h : List SyncEvent} {x : Commit}

theorem Grown.same (hg : Grown [] s t) : t.commits = s.commits := by
  obtain ⟨xs, hxs, ht⟩ := hg.commits
  obtain rfl : xs = [] := List.eq_nil_iff_forall_not_mem.mpr fun x hx =>
    absurd (hxs x hx) List.not_mem_nil
  exact ht

theorem Chain.suffix {h₁ : List SyncEvent} (hc : Chain s h) (hs : h₁ <:+ h) : Chain s h₁ := by
  induction h with
  | nil =>
    rw [List.suffix_nil.mp hs]
    trivial
  | cons e h ih =>
    rcases List.suffix_cons_iff.mp hs with rfl | hs
    · exact hc
    · exact ih hc.2 hs

/-- The refresh that `maintain` starts with adds what it loads. -/
theorem Caught.commits (hm : Caught [] h m) (hc : Chain s h) :
    ∃ loaded, m.commits = s.commits.insertAll loaded ∧ loaded = loadedCommits h := by
  cases hm with
  | @mk s₁ s₂ ids commits delta =>
    obtain ⟨hload, hscan, -⟩ := hc
    refine ⟨commits, ?_, by simp [loadedCommits]⟩
    rw [RuntimeState.absorb, Grown.same hload]
    exact congrArg (KeyedMap.insertAll · commits) (Grown.same hscan)

theorem mem_loadedCommits_of_suffix {h₁ : List SyncEvent} (hs : h₁ <:+ h)
    (hx : x ∈ loadedCommits h₁) : x ∈ loadedCommits h := by
  induction h with
  | nil => rwa [List.suffix_nil.mp hs] at hx
  | cons e h ih =>
    rcases List.suffix_cons_iff.mp hs with rfl | hs
    · exact hx
    · unfold loadedCommits
      split
      · next heq => cases heq
      · next heq =>
        obtain ⟨-, rfl⟩ := List.cons.inj heq
        exact List.mem_append_right _ (ih hs)
      · next heq =>
        obtain ⟨-, rfl⟩ := List.cons.inj heq
        exact ih hs

end Histories

section Current

variable [Crates] {S : Setting} {w w' : World} {c : String} {ok : World → Label → Prop}
variable {s : RuntimeState}

theorem World.Calls.reachable {command : Command} (h : World.Calls S c command w w' s)
    (hw : w.Reachable S ok) : w'.Reachable S fun _ _ => True :=
  h.keeps (fun hv hs => hv.tail ⟨_, trivial, hs⟩) (hw.mono fun _ _ _ => trivial)

/-- What a step preserves whatever is acknowledged. -/
structure World.Sound (S : Setting) (w : World) : Prop where
  inv : w.Inv
  relies : w.Relies S
  created : ∀ x ∈ w.published, x.Created

theorem World.Sound.step (h : w.Sound S) {l : Label} (hs : w.step S l = some w') : w'.Sound S :=
  ⟨h.inv.step hs, h.relies.step h.inv hs, h.inv.created hs h.created⟩

theorem World.Reachable.sound (h : w.Reachable S ok) : w.Sound S := ⟨h.inv, h.relies, h.created⟩

theorem World.Sound.ids (hcol : Collisionless) (h : w.Sound S) :
    ∀ x ∈ w.published, ∀ y ∈ w.published, y.id = x.id → y = x :=
  fun x hx y hy e => (h.created y hy).ext hcol (h.created x hx) e

/-- What `maintain` holds after its refresh was published. -/
theorem World.Sound.caught (hw : w.Sound S) {m : RuntimeState} {h₁ : List SyncEvent}
    (hcaught : Caught [] h₁ m) (hsuffix : h₁ <:+ (w.clients c).trace) :
    ∀ x ∈ m.commits, x ∈ w.published := by
  have hinv := hw.inv.clients c
  obtain ⟨loaded, hm, rfl⟩ := hcaught.commits (hinv.chain.suffix hsuffix)
  intro x hx
  rw [hm] at hx
  rcases KeyedMap.mem_of_mem_insertAll hx with hx | hx
  · exact hinv.before x hx
  · exact hinv.loaded x (mem_loadedCommits_of_suffix hsuffix hx)

/-- The client is still in the call that it started. -/
theorem World.Calls.command {command : Command} (h : World.Calls S c command w w' s)
    (hw : w.Sound S) :
    (w'.clients c).command = some command ∧ (w'.clients c).before = w.memory c := by
  obtain ⟨⟨w₁, hstart, hrun⟩, -⟩ := h
  suffices hboth : w'.Sound S ∧ (w'.clients c).command = some command ∧
      (w'.clients c).before = w.memory c from hboth.2
  induction hrun with
  | refl =>
    refine ⟨hw.step hstart, ?_⟩
    rw [World.start_cases hstart, World.setClient_self]
    exact ⟨rfl, rfl⟩
  | tail _ hstep ih =>
    obtain ⟨hv, hcommand, hbefore⟩ := ih
    obtain ⟨l, halone, hs⟩ := hstep
    refine ⟨hv.step hs, ?_⟩
    cases l with
    | answer c' a =>
      obtain rfl : c' = c := halone
      obtain ⟨s', q, k, r, v₁, hp, hr, rfl⟩ := World.answer_cases hs
      obtain ⟨hans, -⟩ := World.respond_fair (hv.relies c').files hv.inv.objects hr
      rw [World.resume, World.setClient_self]
      exact ⟨hans.command.trans hcommand, hans.before.trans hbefore⟩
    | start | edit | crash => exact halone.elim

theorem World.Sound.sameIds (hcol : Collisionless) (hw : w.Sound S) :
    ∀ e ∈ (w.clients c).trace, Fair S w.published (w.clients c).versions e → SameIds e := by
  intro e he hfair
  have hmem := (hw.inv.clients c).events e he
  obtain ⟨t, q, r⟩ := e
  cases q with
  | commitBatch batch =>
    cases r with
    | error _ => trivial
    | ok _ => exact fun x hx y hy e => hw.ids hcol x (hfair x hx) y (hmem y hy) e
  | _ => trivial

/-- What a call of `maintain` that returned decided and did, whoever else moved. -/
theorem World.Sound.maintained (hcol : Collisionless) (hw : w.Sound S)
    {request : MaintenanceRequest} (hcommand : (w.clients c).command = some (.maintain request))
    (hdone : (w.clients c).prog = .done s (.ok ())) :
    request.historyRetentionVersions = 0 ∧ (w.clients c).trace = [] ∧ s = (w.clients c).before ∨
      ∃ m acks vs, Truncated ⟨c, S.policy c⟩ request.historyRetentionVersions [] m acks vs
        (w.clients c).trace s ∧ Ruling ⟨c, S.policy c⟩ request [] m acks vs (w.clients c).trace := by
  have hspec : ∀ s₀, (Command.run ⟨c, S.policy c⟩ (.maintain request) s₀).Meets
      (Prog.fairly SameIds) (fun _ _ _ => True) (fun h' s' r => r = .ok () →
        request.historyRetentionVersions = 0 ∧ h' = [] ∧ s' = s₀ ∨ ∃ m acks vs,
        Truncated ⟨c, S.policy c⟩ request.historyRetentionVersions [] m acks vs h' s' ∧
        Ruling ⟨c, S.policy c⟩ request [] m acks vs h') [] := by
    intro s₀
    have hmaintain := maintain_truncates (C := fun _ _ _ => True) (fun _ he => he)
      (fun _ _ _ _ => trivial) ⟨c, S.policy c⟩ request [] s₀ fun _ _ _ _ _ _ _ _ => trivial
    have hrun : Comp.wp (Prog.fairly SameIds) (fun _ _ _ => True) (fun _ _ _ => True)
        (Command.run ⟨c, S.policy c⟩ (.maintain request)) (fun h' s' _ =>
          request.historyRetentionVersions = 0 ∧ h' = [] ∧ s' = s₀ ∨ ∃ m acks vs,
          Truncated ⟨c, S.policy c⟩ request.historyRetentionVersions [] m acks vs h' s' ∧
          Ruling ⟨c, S.policy c⟩ request [] m acks vs h') [] s₀ := by
      rw [Command.run, Comp.wp_bind]
      exact Comp.wp_imp hmaintain fun _ _ _ ht => ht
    refine Prog.Meets.imp hrun (fun _ _ _ _ => trivial) ?_
    rintro h' s' (e | a) hr hok
    · cases hok
    · exact hr
  have hmeets := hw.relies.call hcommand (hspec _) (hw.sameIds hcol)
  rw [hdone] at hmeets
  exact hmeets rfl

theorem World.Calls.truncated (hcol : Collisionless) {request : MaintenanceRequest}
    (h : World.Calls S c (.maintain request) w w' s) (hw : w.Sound S)
    (hversions : 1 ≤ request.historyRetentionVersions) : ∃ m acks vs,
      Truncated ⟨c, S.policy c⟩ request.historyRetentionVersions [] m acks vs
        (w'.clients c).trace s ∧
      Ruling ⟨c, S.policy c⟩ request [] m acks vs (w'.clients c).trace := by
  rcases (h.keeps (fun hv hs => hv.step hs) hw).maintained hcol (h.command hw).1 h.returned with ⟨hzero, -⟩ | ht
  · omega
  · exact ht

/-- Which version of a resource is handed over: one that is not retained, of a resource
whose history is cut. -/
theorem Truncated.mem_handed {rt : SyncRuntime} {versions : Nat} {m : RuntimeState}
    {acks : List ResourceAck} {vs : Verdicts} {h : List SyncEvent}
    (ht : Truncated rt versions [] m acks vs h s) {x : Commit} (hx : x ∈ m.commits) :
    x.id ∈ Rollforward.handed h ↔ ∃ checkpoint, (x.resource, Verdict.truncate checkpoint) ∈ vs ∧
      x.id ∉ m.retained versions acks x.resource checkpoint := by
  rw [ht.handed]
  constructor
  · rintro (hnone | ⟨scope, hid⟩)
    · cases hnone
    · obtain ⟨key, checkpoint, hv, -, hid⟩ := Verdicts.mem_obsolete.mp hid
      rw [RuntimeState.obsolete, List.mem_filter, decide_eq_true_eq] at hid
      obtain ⟨y, hy, e⟩ := List.mem_map.mp hid.1
      obtain ⟨hheld, rfl⟩ := RuntimeState.mem_resourceCommits.mp hy
      obtain rfl := KeyedMap.eq_of_mem hheld hx e
      exact ⟨checkpoint, hv, hid.2⟩
  · rintro ⟨checkpoint, hv, hnot⟩
    refine Or.inr ⟨_, Verdicts.mem_obsolete.mpr ⟨_, checkpoint, hv, rfl, ?_⟩⟩
    rw [RuntimeState.obsolete, List.mem_filter, decide_eq_true_eq]
    exact ⟨List.mem_map_of_mem (RuntimeState.mem_resourceCommits.mpr ⟨hx, rfl⟩), hnot⟩

/-- A commit that is not handed over is still held. -/
theorem Truncated.mem_commits {rt : SyncRuntime} {versions : Nat} {m : RuntimeState}
    {acks : List ResourceAck} {vs : Verdicts} {h : List SyncEvent}
    (ht : Truncated rt versions [] m acks vs h s) {x : Commit} (hx : x ∈ m.commits)
    (hkept : x.id ∉ Rollforward.handed h) : x ∈ s.commits := by
  obtain ⟨gone, hcommits, hgone⟩ := ht.commits
  rw [hcommits, KeyedMap.mem_eraseAll]
  refine ⟨KeyedMap.mem_insertAll_of_new hx fun y hy e => ?_, fun hin => hkept ?_⟩
  · obtain ⟨key, hv⟩ := Verdicts.mem_checkpoints.mp hy
    obtain ⟨-, -, -, hnone, -⟩ := ht.fits key _ hv
    rw [e, KeyedMap.mem_def.mp hx] at hnone
    cases hnone
  · exact (ht.handed _).mpr (Or.inr ((hgone _).mp hin))

/-- A call of `maintain` leaves a chunk listed that a commit it still holds is made of. -/
theorem World.Calls.spares (hinj : Function.Injective (blake3 : Bytes → String))
    (hcdc : FastcdcTiles) {request : MaintenanceRequest}
    (h : World.Calls S c (.maintain request) w w' s) (hw : w.Sound S) (hst : w.remote.Stocked) :
    w'.remote.Stocked ∧ ∀ hash ∈ s.liveHashes, w.remote.Listed hash → w'.remote.Listed hash := by
  have hJ : ∀ {v v' : World} {l}, v.Sound S ∧ v.remote.Stocked → v.step S l = some v' →
      v'.Sound S ∧ v'.remote.Stocked :=
    fun hv hs => ⟨hv.1.step hs, hv.1.relies.stocked hinj hcdc hs hv.2⟩
  refine ⟨(h.keeps hJ ⟨hw, hst⟩).2, ?_⟩
  refine h.meets hJ ⟨hw, hst⟩ World.remote (fun _ _ _ => rfl) (T := Tended) (C := fun _ _ _ => True)
    (Q := fun remote' s' r => r = .ok () →
      ∀ hash ∈ s'.liveHashes, w.remote.Listed hash → remote'.Listed hash)
    (fun hv hr => ⟨World.respond_answers hr, hv.2⟩) ?_ rfl
  have hspares : Comp.wp Tended (fun _ _ _ => True) (fun _ _ _ => True)
      (Command.run ⟨c, S.policy c⟩ (.maintain request)) (fun remote' s' _ =>
        ∀ hash ∈ s'.liveHashes, w.remote.Listed hash → remote'.Listed hash)
      w.remote (w.memory c) := by
    rw [Command.run, Comp.wp_bind]
    exact maintain_spares ⟨c, S.policy c⟩ request w.remote (w.memory c)
  refine Prog.Meets.imp hspares (fun _ _ _ _ => trivial) ?_
  rintro remote' s' (e | a) hr hok
  · cases hok
  · exact hr

end Current

section Calls

open Sample

variable [Crates]

def returned (w : World) (c : String) : Bool :=
  match (w.clients c).prog with
  | .done _ (.ok _) => true
  | _ => false

variable (S : Setting) (ok : World → Label → Prop) [∀ w, DecidablePred (ok w)]

instance (c : String) (w : World) : DecidablePred fun l => w.Alone c l ∧ ok w l :=
  fun _ => instDecidableAnd

/-- A script, and then one call with nobody else moving. -/
def callAfter (lines : List Line) (c : String) (command : Command) (p : World → World → Bool) :
    Bool :=
  (play S ok lines 0 {}).any fun w => decide (ok w (.start c command)) &&
    (w.step S (.start c command)).any fun w₁ =>
      (answers S (fun w l => w.Alone c l ∧ ok w l) c 200 5000 w₁).any fun w₂ =>
        returned w₂ c && p w w₂

theorem exists_call (lines : List Line) (c : String) (command : Command) (p : World → World → Bool)
    (h : callAfter S ok lines c command p = true) : ∃ w w' s,
      w.Reachable S ok ∧ w'.Reachable S ok ∧ World.Calls S c command w w' s ∧ p w w' = true := by
  obtain ⟨w, hw, h⟩ := (Option.any_eq_true _ _).mp h
  rw [Bool.and_eq_true] at h
  obtain ⟨w₁, hw₁, hrun⟩ := (Option.any_eq_true _ _).mp h.2
  obtain ⟨w₂, hw₂, hend⟩ := (Option.any_eq_true _ _).mp hrun
  rw [Bool.and_eq_true] at hend
  obtain ⟨hdone, hp⟩ := hend
  have hreach := answers_reach hw₂
  have hboth : w₂.Reachable S ok := by
    refine Relation.ReflTransGen.trans (.tail (play_reach hw) ⟨_, of_decide_eq_true h.1, hw₁⟩) ?_
    exact Relation.ReflTransGen.mono (fun _ _ ⟨l, hl, hs⟩ => ⟨l, hl.2, hs⟩) _ _ hreach
  have halone : Relation.ReflTransGen (World.Next S (World.Alone c)) w₁ w₂ :=
    Relation.ReflTransGen.mono (fun _ _ ⟨l, hl, hs⟩ => ⟨l, hl.1, hs⟩) _ _ hreach
  unfold returned at hdone
  split at hdone
  · next s _ hprog => exact ⟨w, w₂, s, play_reach hw, hboth, ⟨⟨w₁, hw₁, halone⟩, hprog⟩, hp⟩
  · cases hdone

end Calls

section Scripts

open Sample

attribute [local instance] spelled

theorem spelled_fastcdcTiles : FastcdcTiles := by
  intro data
  have h : Tiles maxSize 0 (0 + data.length) (cuts maxSize data.length 0 data.length) :=
    cuts_tiles (by decide) data.length.le_refl
  rwa [Nat.zero_add] at h

end Scripts

section Losses

open Sample

attribute [local instance] crates

end Losses

end Rollforward
