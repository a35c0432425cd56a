import Rollforward.Catalog.Commands

/-! Every run of the clients is a run of the catalog protocol. -/

namespace Rollforward

open Std Lib

variable [Crates]

/-- The last answer completed a refresh. -/
def currentOf : List SyncEvent → Bool
  | ⟨_, .loadCommits _, .ok _⟩ :: _ => true
  | _ => false

/-- The event is of no consequence for the catalog. -/
structure Inert (e : SyncEvent) : Prop where
  settled : ∀ h, settled h e = e.memory
  current : ∀ h, currentOf (e :: h) = false
  own : ∀ h, ownCommits (e :: h) = ownCommits h
  loaded : ∀ h, loadedCommits (e :: h) = loadedCommits h
  floor : ∀ s₀ h, floorOf s₀ (e :: h) = floorOf s₀ h
  pending : ∀ h, pendingOf (e :: h) = none

theorem Inert.quiet {s : RuntimeState} {q : Req} (hq : Quiet q) (r : q.Resp) : Inert ⟨s, q, r⟩ := by
  cases q <;> first
    | exact hq.elim
    | exact ⟨fun _ => rfl, fun _ => rfl, fun _ => rfl, fun _ => rfl, fun _ _ => rfl, fun _ => rfl⟩

theorem Inert.failed {s : RuntimeState} {q : Req} {error : SyncError} {r : q.Resp}
    (hr : q.failure error = some r) : Inert ⟨s, q, r⟩ := by
  cases q <;> cases hr <;>
    exact ⟨fun _ => rfl, fun _ => rfl, fun _ => rfl, fun _ => rfl, fun _ _ => rfl, fun _ => rfl⟩

/-- The answer changed at most packs, acknowledgements and local files. -/
structure Undisturbed (c : String) (w w₁ : World) : Prop where
  commits : w₁.remote.commits = w.remote.commits
  segments : w₁.remote.segments = w.remote.segments
  snapshots : w₁.remote.snapshots = w.remote.snapshots
  published : w₁.published = w.published
  obsoleted : w₁.obsoleted = w.obsoleted
  others : ∀ c' ≠ c, w₁.clients c' = w.clients c'
  self : ∃ files versions, w₁.clients c = { w.clients c with files, versions }

theorem Undisturbed.refl (c : String) (w : World) : Undisturbed c w w :=
  ⟨rfl, rfl, rfl, rfl, rfl, fun _ _ => rfl, _, _, rfl⟩

/-- What an answered call did to the world. -/
inductive Effect (w : World) (c : String) (s : RuntimeState) : SyncEvent → World → Prop
  | scan {request delta} (answer : w.remote.scanCatalog request = .ok delta) :
      Effect w c s ⟨s, .scanCatalog request, .ok delta⟩
        (w.setClient c { w.clients c with asked := (request.scopes, w.published) })
  | load {ids commits} (answer : w.remote.loadCommits ids = .ok commits) :
      Effect w c s ⟨s, .loadCommits ids, .ok commits⟩
        (w.setClient c { w.clients c with
          seen := refreshSeen (w.clients c).asked (w.clients c).seen })
  | batch {batch} : Effect w c s ⟨s, .commitBatch batch, .ok ()⟩
      ({ w with
        remote := w.remote.commitBatch batch
        published := w.published ++ batch.commits }.setClient c
          { w.clients c with unsaved := true })
  | compact {compaction} : Effect w c s ⟨s, .compactCatalog compaction, .ok ()⟩
      { w with
        remote := w.remote.compactCatalog compaction
        obsoleted := w.obsoleted ++ compaction.obsoleteCommitIds }
  | save : Effect w c s ⟨s, .saveRuntimeState, .ok ()⟩
      (w.setClient c
        { w.clients c with store := s, savedSeen := (w.clients c).seen, unsaved := false })
  | other {e w₁} (inert : Inert e) (same : Undisturbed c w w₁) (memory : e.memory = s) :
      Effect w c s e w₁

theorem applyMutations_eq (client : Client) (versionToken : String) (tombstone : Bool)
    (mutations : List LocalMutation) :
    ∃ files versions, (client.applyMutations versionToken tombstone mutations).2 =
      { client with files, versions } := by
  induction mutations generalizing client with
  | nil => exact ⟨_, _, rfl⟩
  | cons mutation mutations ih =>
    rw [Client.applyMutations]
    split
    · exact ih client
    · obtain ⟨files, versions, he⟩ := ih (client.setFile mutation.key _)
      exact ⟨files, versions, he⟩

theorem World.respond_effect {S : Setting} {w w₁ : World} {c : String} {s : RuntimeState} {q : Req}
    {a : Answer} {r : q.Resp} (h : w.respond S c s q a = some (r, w₁)) :
    Effect w c s ⟨s, q, r⟩ w₁ := by
  cases a with
  | fail error =>
    simp only [World.respond, Option.map_eq_some_iff, Prod.mk.injEq] at h
    obtain ⟨r', hr, rfl, rfl⟩ := h
    exact .other (.failed hr) (.refl c _) rfl
  | serve =>
    cases q with
    | scanCatalog request =>
      simp only [World.respond] at h
      split at h
      · next delta hd =>
        cases h
        exact .scan hd
      · next error hd =>
        cases h
        exact .other (.failed (q := .scanCatalog request) rfl) (.refl c _) rfl
    | loadCommits ids =>
      simp only [World.respond] at h
      split at h
      · next commits hl =>
        cases h
        exact .load hl
      · next error hl =>
        cases h
        exact .other (.failed (q := .loadCommits ids) rfl) (.refl c _) rfl
    | commitBatch batch =>
      cases h
      exact .batch
    | compactCatalog compaction =>
      cases h
      exact .compact
    | saveRuntimeState =>
      cases h
      exact .save
    | writeAcknowledgements acks =>
      cases h
      exact .other (.quiet (by exact trivial) _) ⟨rfl, rfl, rfl, rfl, rfl, fun _ _ => rfl, _, _, rfl⟩ rfl
    | deletePackObjects ids =>
      cases h
      exact .other (.quiet (by exact trivial) _) ⟨rfl, rfl, rfl, rfl, rfl, fun _ _ => rfl, _, _, rfl⟩ rfl
    | _ =>
      cases h <;> exact .other (.quiet (by exact trivial) _) (.refl c _) rfl
  | token versionToken tombstone =>
    cases q with
    | applyMutations mutations =>
      cases h
      refine .other (.quiet (by exact trivial) _) ⟨rfl, rfl, rfl, rfl, rfl, ?_, ?_⟩ rfl
      · intro c' hne
        exact Function.update_of_ne hne ..
      · obtain ⟨files, versions, he⟩ :=
          applyMutations_eq (w.clients c) versionToken tombstone mutations
        exact ⟨files, versions, by rw [← he]; exact Function.update_self ..⟩
    | _ => cases h
  | _ =>
    cases q <;> cases h
    exact .other (.quiet (by exact trivial) _) (.refl c _) rfl

/-- What holds of each client in every run. -/
structure Client.Inv (published : List Commit) (c : String) (client : Client) : Prop where
  meets : client.prog.Meets record (Call c client.before)
    (fun h s _ => Tracks client.before h s) client.trace
  chain : Chain client.before client.trace
  own : ∀ x ∈ ownCommits client.trace, x ∈ published ∧ x.author = c
  loaded : ∀ x ∈ loadedCommits client.trace, x ∈ published
  events : ∀ e ∈ client.trace, ∀ x ∈ e.memory.commits, x ∈ published
  before : ∀ x ∈ client.before.commits, x ∈ published
  store : ∀ x ∈ client.store.commits, x ∈ published

structure World.Inv (w : World) : Prop where
  objects : ∀ x ∈ w.remote.commits, x ∈ w.published
  clients : ∀ c, (w.clients c).Inv w.published c

theorem tracks_of_meets {s₀ : RuntimeState} {me : String} {h : List SyncEvent}
    {p : Prog host RuntimeState (Except SyncError Unit)}
    (hp : p.Meets record (Call me s₀) (fun h s _ => Tracks s₀ h s) h) : Tracks s₀ h p.memory := by
  cases p with
  | done s r => exact hp
  | call s q k => exact hp.1.1

namespace Client.Inv

variable {published published' : List Commit} {c : String} {client client' : Client}

theorem tracks (h : client.Inv published c) :
    Tracks client.before client.trace client.memory := tracks_of_meets h.meets

theorem memory (h : client.Inv published c) : ∀ x ∈ client.memory.commits, x ∈ published := by
  intro x hx
  rcases h.tracks.mem hx with ⟨-, hx⟩ | ⟨e, he, hx⟩ | hx | hx
  · exact h.before x hx
  · exact h.events e he x hx
  · exact (h.own x hx).1
  · exact h.loaded x hx

theorem met (h : client.Inv published c) {id : String} (hid : Met client.before client.trace id) :
    ∃ x ∈ published, x.id = id := by
  have hget : ∀ {m : CommitMap}, (∀ x ∈ m, x ∈ published) → (m.get? id).isSome →
      ∃ x ∈ published, x.id = id := by
    intro m hm hsome
    obtain ⟨x, hx⟩ := Option.isSome_iff_exists.mp hsome
    exact ⟨x, hm x (KeyedMap.mem_of_get? hx), KeyedMap.key_of_get? hx⟩
  rcases hid with hid | ⟨e, he, hid⟩ | ⟨x, hx, e⟩ | ⟨x, hx, e⟩
  · exact hget h.before hid
  · exact hget (h.events e he) hid
  · exact ⟨x, (h.own x hx).1, e⟩
  · exact ⟨x, h.loaded x hx, e⟩

theorem mono (h : client.Inv published c) (hpub : ∀ x ∈ published, x ∈ published') :
    client.Inv published' c where
  meets := h.meets
  chain := h.chain
  own x hx := ⟨hpub x (h.own x hx).1, (h.own x hx).2⟩
  loaded x hx := hpub x (h.loaded x hx)
  events e he x hx := hpub x (h.events e he x hx)
  before x hx := hpub x (h.before x hx)
  store x hx := hpub x (h.store x hx)

/-- A client at rest. -/
theorem idle {s : RuntimeState} (hs : ∀ x ∈ s.commits, x ∈ published)
    (hstore : ∀ x ∈ client.store.commits, x ∈ published)
    (hprog : client.prog.Meets record (Call c s) (fun h s' _ => Tracks s h s') [])
    (hbefore : client.before = s) (htrace : client.trace = []) : client.Inv published c where
  meets := by rw [hbefore, htrace]; exact hprog
  chain := by rw [htrace]; exact trivial
  own := by rw [htrace]; simp [ownCommits]
  loaded := by rw [htrace]; simp [loadedCommits]
  events := by rw [htrace]; simp
  before := by rw [hbefore]; exact hs
  store := hstore

theorem start (h : client.Inv published c) (policy : Option TextMergePolicy) (command : Command) :
    (client.start ⟨c, policy⟩ command).Inv published c := by
  refine idle h.memory h.store ?_ rfl rfl
  refine Prog.Meets.imp (Command.run_tracks ⟨c, policy⟩ command client.memory)
    (fun _ _ _ hc => hc) ?_
  rintro h s (e | a) hr
  · exact hr
  · exact hr

theorem crash (h : client.Inv published c) : client.crash.Inv published c :=
  idle h.store h.store (Tracks.start _) rfl rfl

/-- A client whose call was answered. -/
theorem answer (h : client.Inv published c) {s : RuntimeState} {q : Req}
    {k : q.Resp → Prog host RuntimeState (Except SyncError Unit)}
    (hprog : client.prog = .call s q k) (r : q.Resp)
    (hprog' : client'.prog = k r) (htrace' : client'.trace = ⟨s, q, r⟩ :: client.trace)
    (hbefore' : client'.before = client.before)
    (hown : ∀ x ∈ ownCommits client'.trace, x ∈ published ∧ x.author = c)
    (hloaded : ∀ x ∈ loadedCommits client'.trace, x ∈ published)
    (hstore : ∀ x ∈ client'.store.commits, x ∈ published) : client'.Inv published c := by
  have hmem := h.memory
  rw [Client.memory, hprog] at hmem
  have hm := h.meets
  rw [hprog] at hm
  refine ⟨?_, ?_, hown, hloaded, ?_, hbefore' ▸ h.before, hstore⟩
  · rw [hprog', htrace', hbefore']
    exact hm.2 r _ rfl
  · rw [htrace', hbefore']
    exact ⟨hm.1.1.follows, h.chain⟩
  · rw [htrace']
    exact List.forall_mem_cons.mpr ⟨hmem, h.events⟩

end Client.Inv

theorem World.Inv.init : World.Inv {} where
  objects := by simp
  clients c := .idle (by simp) (by simp) (Tracks.start _) rfl rfl

section Step

variable {S : Setting} {w w' w₁ : World} {c : String}

@[simp] theorem World.setClient_self (w : World) (c : String) (client : Client) :
    (w.setClient c client).clients c = client := Function.update_self ..

theorem World.setClient_of_ne {c' : String} (w : World) (client : Client) (h : c' ≠ c) :
    (w.setClient c client).clients c' = w.clients c' := Function.update_of_ne h ..

/-- The client after an answer, `w₁` being the world the answer left. -/
def World.resume (w₁ : World) (c : String) (s : RuntimeState) (q : Req) (r : q.Resp)
    (p : Prog host RuntimeState (Except SyncError Unit)) : World :=
  w₁.setClient c { w₁.clients c with prog := p, trace := ⟨s, q, r⟩ :: (w₁.clients c).trace }

theorem World.answer_cases {a : Answer} (h : w.answer S c a = some w') :
    ∃ s q k r w₁, (w.clients c).prog = .call s q k ∧ w.respond S c s q a = some (r, w₁) ∧
      w' = w₁.resume c s q r (k r) := by
  rw [World.answer] at h
  split at h
  · cases h
  · next s q k hp =>
    obtain ⟨⟨r, w₁⟩, hr, rfl⟩ := Option.map_eq_some_iff.mp h
    exact ⟨s, q, k, r, w₁, hp, hr, rfl⟩

theorem mem_of_mem_foldl_writeCommit {commits : List Commit} {stored : CommitMap} {x : Commit}
    (h : x ∈ commits.foldl writeCommit stored) : x ∈ stored ∨ x ∈ commits := by
  induction commits generalizing stored with
  | nil => exact Or.inl h
  | cons commit commits ih =>
    rcases ih h with h | h
    · rw [writeCommit] at h
      split at h
      · exact Or.inl h
      · rcases KeyedMap.mem_insert.mp h with rfl | h
        · exact Or.inr List.mem_cons_self
        · exact Or.inl h.1
    · exact Or.inr (List.mem_cons_of_mem _ h)

theorem World.Inv.set (h : w.Inv) {client : Client} (hc : client.Inv w.published c) :
    (w.setClient c client).Inv where
  objects := h.objects
  clients := (Function.forall_update_iff _ fun c (client : Client) =>
    client.Inv w.published c).mpr ⟨hc, fun c _ => h.clients c⟩

theorem World.Inv.resume (h : w.Inv) {s : RuntimeState} {q : Req}
    {k : q.Resp → Prog host RuntimeState (Except SyncError Unit)}
    (hp : (w.clients c).prog = .call s q k) {r : q.Resp}
    (hobjects : ∀ x ∈ w₁.remote.commits, x ∈ w₁.published)
    (hpub : ∀ x ∈ w.published, x ∈ w₁.published)
    (hothers : ∀ c' ≠ c, w₁.clients c' = w.clients c')
    (htrace : (w₁.clients c).trace = (w.clients c).trace)
    (hbefore : (w₁.clients c).before = (w.clients c).before)
    (hown : ∀ x ∈ ownCommits (⟨s, q, r⟩ :: (w.clients c).trace), x ∈ w₁.published ∧ x.author = c)
    (hloaded : ∀ x ∈ loadedCommits (⟨s, q, r⟩ :: (w.clients c).trace), x ∈ w₁.published)
    (hstore : ∀ x ∈ (w₁.clients c).store.commits, x ∈ w₁.published) :
    (w₁.resume c s q r (k r)).Inv where
  objects := hobjects
  clients := by
    refine (Function.forall_update_iff _ fun c (client : Client) =>
      client.Inv w₁.published c).mpr ⟨?_, ?_⟩
    · rw [htrace]
      exact ((h.clients c).mono hpub).answer hp r rfl rfl hbefore hown hloaded hstore
    · intro c' hne
      rw [hothers c' hne]
      exact (h.clients c').mono hpub

theorem World.Inv.answer (h : w.Inv) {s : RuntimeState} {q : Req}
    {k : q.Resp → Prog host RuntimeState (Except SyncError Unit)}
    (hp : (w.clients c).prog = .call s q k) {r : q.Resp} (he : Effect w c s ⟨s, q, r⟩ w₁) :
    (w₁.resume c s q r (k r)).Inv := by
  have hc := h.clients c
  have hcall := hc.meets
  rw [hp] at hcall
  have hmem := hc.memory
  rw [Client.memory, hp] at hmem
  cases he with
  | scan answer =>
    refine h.resume hp h.objects (fun _ hx => hx) (fun _ hne => World.setClient_of_ne _ _ hne)
      (by simp) (by simp) hc.own hc.loaded ?_
    rw [World.setClient_self]
    exact hc.store
  | load answer =>
    refine h.resume hp h.objects (fun _ hx => hx) (fun _ hne => World.setClient_of_ne _ _ hne)
      (by simp) (by simp) hc.own ?_ ?_
    · intro x hx
      rcases List.mem_append.mp hx with hx | hx
      · exact h.objects x ((mem_loadCommits answer).1 x hx).1
      · exact hc.loaded x hx
    · rw [World.setClient_self]
      exact hc.store
  | @batch batch =>
    have hask : BatchAsk c _ _ _ batch.commits := hcall.1.2
    refine h.resume hp ?_ (fun _ hx => List.mem_append_left _ hx)
      (fun _ hne => World.setClient_of_ne _ _ hne) (by simp) (by simp) ?_ ?_ ?_
    · intro x hx
      exact List.mem_append.mpr ((mem_of_mem_foldl_writeCommit hx).imp_left (h.objects x))
    · intro x hx
      rcases List.mem_append.mp hx with hx | hx
      · obtain ⟨key, parents, counter, timestamp, change, rfl⟩ := hask.created x hx
        exact ⟨List.mem_append_right _ hx, rfl⟩
      · exact ⟨List.mem_append_left _ (hc.own x hx).1, (hc.own x hx).2⟩
    · exact fun x hx => List.mem_append_left _ (hc.loaded x hx)
    · intro x hx
      rw [World.setClient_self] at hx
      exact List.mem_append_left _ (hc.store x hx)
  | compact =>
    refine h.resume hp ?_ (fun _ hx => hx) (fun _ _ => rfl) rfl rfl hc.own hc.loaded hc.store
    exact fun x hx => h.objects x (Remote.mem_commits_compactCatalog.mp hx).1
  | save =>
    refine h.resume hp h.objects (fun _ hx => hx) (fun _ hne => World.setClient_of_ne _ _ hne)
      (by simp) (by simp) hc.own hc.loaded ?_
    rw [World.setClient_self]
    exact hmem
  | other inert same _ =>
    obtain ⟨files, versions, hself⟩ := same.self
    refine h.resume hp ?_ ?_ same.others (by rw [hself]) (by rw [hself]) ?_ ?_ ?_
    · rw [same.commits, same.published]
      exact h.objects
    · rw [same.published]
      exact fun _ hx => hx
    · rw [inert.own, same.published]
      exact hc.own
    · rw [inert.loaded, same.published]
      exact hc.loaded
    · rw [hself, same.published]
      exact hc.store

theorem World.Inv.step (h : w.Inv) {l : Label} (hs : w.step S l = some w') : w'.Inv := by
  cases l with
  | start c command =>
    rw [World.step] at hs
    split at hs
    · obtain rfl := Option.some.inj hs
      exact h.set ((h.clients c).start (S.policy c) command)
    · cases hs
  | answer c a =>
    obtain ⟨s, q, k, r, w₁, hp, hr, rfl⟩ := World.answer_cases hs
    exact h.answer hp (World.respond_effect hr)
  | edit c key file =>
    obtain rfl := Option.some.inj hs
    have hc := h.clients c
    exact h.set ⟨hc.meets, hc.chain, hc.own, hc.loaded, hc.events, hc.before, hc.store⟩
  | crash c =>
    obtain rfl := Option.some.inj hs
    exact h.set (h.clients c).crash

end Step

/-- A client as the protocol sees it. -/
def Client.member (client : Client) : Member where
  memory := client.memory
  saved := client.store
  floor := floorOf client.before client.trace
  pending := pendingOf client.trace
  asked := client.asked
  current := currentOf client.trace
  seen := client.seen
  savedSeen := client.savedSeen
  unsaved := client.unsaved

def World.net (w : World) : Net where
  remote := w.remote
  member c := (w.clients c).member
  published := w.published
  obsoleted := w.obsoleted

/-- The act of the protocol that a run may put a condition on. -/
def World.act (w : World) : Label → Act
  | .crash c => .crash c
  | .answer c .serve =>
    match (w.clients c).prog with
    | .call _ (.scanCatalog request) _ => .scan c request.scopes
    | .call _ (.compactCatalog compaction) _ =>
      .compact c compaction.snapshot.scopeId compaction.snapshot.generation
        compaction.obsoleteCommitIds
    | _ => .other
  | _ => .other

/-- Acts that no condition is put on. -/
def Act.Free : Act → Prop
  | .scan .. | .compact .. | .crash _ => False
  | _ => True

section Simulation

variable {S : Setting} {w w' w₁ : World} {c : String} {P : Net → Act → Prop}

theorem World.net_setClient (w : World) (c : String) (client : Client) :
    (w.setClient c client).net = w.net.set c client.member := by
  simp only [World.net, World.setClient, Net.set, Net.mk.injEq, true_and, and_true]
  exact Function.comp_update Client.member w.clients c client

theorem Net.set_set (n : Net) (c : String) (m m' : Member) :
    (n.set c m).set c m' = n.set c m' := by
  simp [Net.set]

theorem Net.set_self (n : Net) (c : String) : n.set c (n.member c) = n := by
  simp [Net.set]

@[simp] theorem Net.member_set (n : Net) (c : String) (m : Member) :
    (n.set c m).member c = m := Function.update_self ..

theorem Grown.mono {own own' : List Commit} {s t : RuntimeState} (h : Grown own s t)
    (hown : ∀ x ∈ own, x ∈ own') : Grown own' s t := by
  obtain ⟨xs, hxs, ht⟩ := h.commits
  exact ⟨⟨xs, fun x hx => hown x (hxs x hx), ht⟩, h.cursors, h.counter⟩

/-- A run of the protocol whose acts all satisfy `P`. -/
def Net.Run (P : Net → Act → Prop) : Net → Net → Prop :=
  Relation.ReflTransGen fun n n' => ∃ a, P n a ∧ Net.Move n a n'

/-- Local work on a refresh. -/
theorem Net.Run.work (hfree : ∀ n a, a.Free → P n a) {n n' : Net} {m : Member} {s : RuntimeState}
    (hrun : Net.Run P n (n'.set c m)) (hg : Grown [] m.memory s) :
    Net.Run P n (n'.set c { m with memory := s }) := by
  have hwork := Net.Move.work (n := n'.set c m) (c := c) (s := s) (by rw [Net.member_set]; exact hg)
  rw [Net.set_set, Net.member_set] at hwork
  exact hrun.tail ⟨.work c, hfree _ _ trivial, hwork⟩

/-- The end of every other answer: the scan is forgotten, the memory works on. -/
theorem Net.Run.finish (hfree : ∀ n a, a.Free → P n a) {n n' : Net} {m : Member} {s : RuntimeState}
    (hrun : Net.Run P n (n'.set c m))
    (hg : Grown (n'.published.filter fun x => x.author = c) m.memory s) :
    Net.Run P n (n'.set c { m with memory := s, pending := none, current := false }) := by
  have hdrop := Net.Move.drop (n := n'.set c m) (c := c)
  rw [Net.set_set, Net.member_set] at hdrop
  have hrecord := Net.Move.record (n := n'.set c { m with pending := none, current := false })
    (c := c) (s := s) (by rw [Net.member_set]) (by rw [Net.member_set])
    (by rw [Net.member_set]; exact hg)
  rw [Net.set_set, Net.member_set] at hrecord
  exact (hrun.tail ⟨.drop c, hfree _ _ trivial, hdrop⟩).tail
    ⟨.record c, hfree _ _ trivial, hrecord⟩

/-- Batches as the protocol wants them, provided that digests are free of colons. -/
theorem BatchAsk.publishable (hex : ∀ data, ':' ∉ (blake3 data).toList) {s₀ s : RuntimeState}
    {h : List SyncEvent} {batch : List Commit} {m : Member} (ha : BatchAsk c s₀ h s batch)
    (hfloor : m.floor = floorOf s₀ h) (hmem : m.memory = s) : Publishable c m batch where
  signed x hx := by
    obtain ⟨key, parents, counter, timestamp, change, rfl⟩ := ha.created x hx
    exact ⟨_, hex _, rfl⟩
  author x hx := by
    obtain ⟨key, parents, counter, timestamp, change, rfl⟩ := ha.created x hx
    rfl
  counter := by rw [hfloor, hmem]; exact ha.counter
  ascending := ha.ascending
  parents := by rw [hmem]; exact ha.parents

section Answer

variable {s : RuntimeState} {q : Req} {k : q.Resp → Prog host RuntimeState (Except SyncError Unit)}

theorem World.net_resume (w₁ : World) (r : q.Resp) :
    (w₁.resume c s q r (k r)).net = w₁.net.set c
      { (w₁.clients c).member with
        memory := (k r).memory
        floor := floorOf (w₁.clients c).before (⟨s, q, r⟩ :: (w₁.clients c).trace)
        pending := pendingOf (⟨s, q, r⟩ :: (w₁.clients c).trace)
        current := currentOf (⟨s, q, r⟩ :: (w₁.clients c).trace) } :=
  World.net_setClient ..

/-- The local work after an answer. -/
theorem World.Inv.grown {r : q.Resp} (h : (w₁.resume c s q r (k r)).Inv) :
    Grown (recordable (⟨s, q, r⟩ :: (w₁.clients c).trace)) (settled (w₁.clients c).trace ⟨s, q, r⟩)
      (k r).memory := by
  have htracks := (h.clients c).tracks
  rw [World.resume, World.setClient_self] at htracks
  exact htracks.follows

theorem World.Inv.recordable {r : q.Resp} (h : (w₁.resume c s q r (k r)).Inv) :
    ∀ x ∈ recordable (⟨s, q, r⟩ :: (w₁.clients c).trace),
      x ∈ w₁.net.published.filter fun x => x.author = c := by
  have hown := (h.clients c).own
  rw [World.resume, World.setClient_self] at hown
  intro x hx
  obtain ⟨hp, ha⟩ := hown x (mem_ownCommits_of_recordable hx)
  exact List.mem_filter.mpr ⟨hp, decide_eq_true ha⟩

theorem World.act_scan {a : Answer} {request : CatalogScanRequest} {delta : CatalogDelta}
    {k : Except SyncError CatalogDelta → Prog host RuntimeState (Except SyncError Unit)}
    (hp : (w.clients c).prog = .call s (.scanCatalog request) k)
    (hr : w.respond S c s (.scanCatalog request) a = some (.ok delta, w₁)) :
    w.act (.answer c a) = .scan c request.scopes := by
  cases a with
  | serve => rw [World.act, hp]
  | fail error => cases hr
  | _ => cases hr

theorem World.act_compact {a : Answer} {compaction : CatalogCompaction}
    {k : Except SyncError Unit → Prog host RuntimeState (Except SyncError Unit)}
    (hp : (w.clients c).prog = .call s (.compactCatalog compaction) k)
    (hr : w.respond S c s (.compactCatalog compaction) a = some (.ok (), w₁)) :
    w.act (.answer c a) = .compact c compaction.snapshot.scopeId compaction.snapshot.generation
      compaction.obsoleteCommitIds := by
  cases a with
  | serve => rw [World.act, hp]
  | fail error => cases hr
  | _ => cases hr

theorem World.Inv.simulates_answer (hex : ∀ data, ':' ∉ (blake3 data).toList) (h : w.Inv)
    (hfree : ∀ n a, a.Free → P n a) {a : Answer} (hP : P w.net (w.act (.answer c a)))
    (hp : (w.clients c).prog = .call s q k) {r : q.Resp} (hr : w.respond S c s q a = some (r, w₁)) :
    Net.Run P w.net (w₁.resume c s q r (k r)).net := by
  have hinv := h.answer hp (World.respond_effect hr)
  have hg := hinv.grown
  have hgrown := hg.mono hinv.recordable
  have hmem : (w.net.member c).memory = s := by
    rw [show (w.net.member c).memory = (w.clients c).memory from rfl, Client.memory, hp]
    rfl
  have hcall := (h.clients c).meets
  rw [hp] at hcall
  have hask : Ask c _ _ s q := hcall.1.2
  rw [World.net_resume]
  cases World.respond_effect hr with
  | @scan request delta answer =>
    rw [World.act_scan hp hr] at hP
    rw [World.setClient_self, World.net_setClient, Net.set_set]
    have hanswer : w.net.remote.scanCatalog ⟨request.scopes, (w.net.member c).memory.cursors⟩ =
        .ok delta := by
      rw [hmem, ← show request.cursors = s.cursors from hask]
      exact answer
    have hscan : Net.Move w.net (.scan c request.scopes) _ := .scan hanswer
    have hrun := Net.Run.work hfree (.single ⟨_, hP, hscan⟩) (s := (k (.ok delta)).memory)
      (by rw [hmem]; exact hg)
    exact hrun
  | @load ids commits answer =>
    rw [World.setClient_self, World.net_setClient, Net.set_set]
    rw [World.setClient_self] at hg
    obtain ⟨delta, hpend, rfl⟩ := hask
    have habsorb : Net.Move w.net (.absorb c) _ := .absorb hpend (hmem.symm ▸ answer)
    simp only [settled, hpend] at hg
    have hrun := Net.Run.work hfree (.single ⟨.absorb c, hfree _ _ trivial, habsorb⟩)
      (s := (k (.ok commits)).memory) (by rw [hmem]; exact hg)
    exact hrun
  | @batch batch =>
    rw [World.setClient_self, World.net_setClient, Net.set_set]
    rw [World.setClient_self, World.net_setClient] at hgrown
    have hpublish : Net.Move w.net (.publish c batch) _ :=
      .publish (BatchAsk.publishable hex hask rfl hmem)
    have hrun := Net.Run.finish hfree (.single ⟨.publish c batch, hfree _ _ trivial, hpublish⟩)
      (hmem.symm ▸ hgrown)
    rw [hmem] at hrun
    exact hrun
  | @compact compaction =>
    rw [World.act_compact hp hr] at hP
    obtain ⟨⟨scope, generation, hcomp⟩, hmet⟩ := hask
    have hcompact : Net.Move w.net (.compact c scope generation compaction.obsoleteCommitIds) _ :=
      .compact fun id hid => (h.clients c).met (hmet id hid)
    have hact : P w.net (.compact c scope generation compaction.obsoleteCommitIds) := by
      rw [hcomp] at hP
      exact hP
    have hrun := Net.Run.finish hfree (.single ⟨_, hact, hcompact⟩) (s := (k (.ok ())).memory)
      (by rw [hmem]; exact hgrown)
    rw [hmem, ← hcomp] at hrun
    exact hrun
  | save =>
    rw [World.setClient_self, World.net_setClient, Net.set_set]
    rw [World.setClient_self, World.net_setClient] at hgrown
    have hsave : Net.Move w.net (.save c) _ := .save
    have hrun := Net.Run.finish hfree (.single ⟨.save c, hfree _ _ trivial, hsave⟩)
      (hmem.symm ▸ hgrown)
    rw [hmem] at hrun
    exact hrun
  | other inert same _ =>
    obtain ⟨files, versions, hself⟩ := same.self
    have hother : Net.Move w.net .other _ := .other same.commits same.segments same.snapshots
    have hmember : (w₁.clients c).member = w.net.member c := by rw [hself]; rfl
    have hnet : w₁.net = { w.net with remote := w₁.remote } := by
      simp only [World.net, same.published, same.obsoleted, Net.mk.injEq, true_and, and_true]
      funext c'
      by_cases hc : c' = c
      · rw [hc]; exact hmember
      · rw [same.others c' hc]
    rw [← Net.set_self { w.net with remote := w₁.remote } c] at hother
    have hrun := Net.Run.finish hfree (.single ⟨.other, hfree _ _ trivial, hother⟩)
      (s := (k r).memory) (by
        rw [inert.settled, show w₁.net.published = w.net.published from same.published] at hgrown
        exact hmem.symm ▸ hgrown)
    rw [hmember, hnet, inert.pending, inert.floor, inert.current, hself]
    exact hrun

end Answer

theorem World.Inv.simulates (hex : ∀ data, ':' ∉ (blake3 data).toList) (h : w.Inv)
    (hfree : ∀ n a, a.Free → P n a) {l : Label} (hP : P w.net (w.act l))
    (hs : w.step S l = some w') : Net.Run P w.net w'.net := by
  cases l with
  | start c command =>
    rw [World.step] at hs
    split at hs
    · next s r hp =>
      obtain rfl := Option.some.inj hs
      rw [World.net_setClient]
      have hstart : Net.Move w.net (.start c) _ := .start
      refine Net.Run.finish hfree (.single ⟨.start c, hfree _ _ trivial, hstart⟩) ?_
      have := ((h.clients c).start (S.policy c) command).tracks
      exact Grown.mono this.follows (by simp)
    · cases hs
  | answer c a =>
    obtain ⟨s, q, k, r, w₁, hp, hr, rfl⟩ := World.answer_cases hs
    exact h.simulates_answer hex hfree hP hp hr
  | edit c key file =>
    obtain rfl := Option.some.inj hs
    rw [World.net_setClient]
    have : (((w.clients c).setFile key file).member) = w.net.member c := rfl
    rw [this, Net.set_self]
    exact .refl
  | crash c =>
    obtain rfl := Option.some.inj hs
    rw [World.net_setClient]
    exact .single ⟨.crash c, hP, .crash⟩

theorem World.Inv.trans {ok : World → Label → Prop} (h : w.Inv)
    (hrun : Relation.ReflTransGen (World.Next S ok) w w') : w'.Inv := by
  induction hrun with
  | refl => exact h
  | tail _ hstep ih =>
    obtain ⟨l, -, hs⟩ := hstep
    exact ih.step hs

/-- The run of the protocol that a run of the clients is. -/
theorem World.Inv.run (hex : ∀ data, ':' ∉ (blake3 data).toList) (h : w.Inv)
    (hfree : ∀ n a, a.Free → P n a) {ok : World → Label → Prop}
    (hok : ∀ w l, ok w l → P w.net (w.act l))
    (hrun : Relation.ReflTransGen (World.Next S ok) w w') : Net.Run P w.net w'.net := by
  induction hrun with
  | refl => exact .refl
  | tail hv hstep ih =>
    obtain ⟨l, hl, hs⟩ := hstep
    exact ih.trans ((h.trans hv).simulates hex hfree (hok _ _ hl) hs)

theorem World.Reachable.inv {ok : World → Label → Prop} (h : w.Reachable S ok) : w.Inv :=
  World.Inv.init.trans h

theorem World.Reachable.run (hex : ∀ data, ':' ∉ (blake3 data).toList)
    (hfree : ∀ n a, a.Free → P n a) {ok : World → Label → Prop}
    (hok : ∀ w l, ok w l → P w.net (w.act l)) (h : w.Reachable S ok) : Net.Run P {} w.net :=
  World.Inv.init.run hex hfree hok h

theorem Net.Run.published {n n' : Net} (h : Net.Run P n n') :
    ∀ x ∈ n.published, x ∈ n'.published := by
  induction h with
  | refl => exact fun _ hx => hx
  | tail _ hstep ih =>
    obtain ⟨a, -, hm⟩ := hstep
    intro x hx
    cases hm with
    | publish => exact List.mem_append_left _ (ih x hx)
    | _ => exact ih x hx

theorem Net.Run.counted {n n' : Net} (hn : n.Counted) (hP : ∀ n a, P n a → n.Survives a)
    (h : Net.Run P n n') : n'.Counted := by
  induction h with
  | refl => exact hn
  | tail _ hstep ih =>
    obtain ⟨a, ha, hm⟩ := hstep
    exact ih.move (hP _ _ ha) hm

theorem Net.Run.valid {n n' : Net} (hn : n.Valid)
    (hP : ∀ n a, P n a → n.Survives a ∧ n.Compacts a) (h : Net.Run P n n') : n'.Valid := by
  induction h with
  | refl => exact hn
  | tail _ hstep ih =>
    obtain ⟨a, ha, hm⟩ := hstep
    exact ih.move (hP _ _ ha).1 (hP _ _ ha).2 hm

end Simulation

end Rollforward
