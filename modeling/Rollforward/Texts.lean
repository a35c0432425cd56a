import Rollforward.Upkeep

/-! What `maintain` does to text.  Whether a resource is text it takes from the recorded kinds,
or else from the commit whose id comes last; a resource that it takes for binary is given binary
checkpoints, and its deltas are reclaimed. -/

namespace Rollforward

open Std Lib

section Kinds

variable [Crates] {s m : RuntimeState} {key : ResourceKey} {request : MaintenanceRequest}

/-- Wherever there are text versions, `maintain` passes the resource over: it is short, in
conflict, or recognised as text. -/
def RuntimeState.Discerns (s : RuntimeState) (request : MaintenanceRequest) : Prop :=
  ∀ key ∈ s.remoteKeys request.scopes, (∃ x ∈ s.resourceCommits key, x.change.isText = true) →
    (s.resourceCommits key).length ≤ request.historyRetentionVersions ∨
      s.conflicted key = true ∨ s.resourceKind key = .text

instance (s : RuntimeState) (request : MaintenanceRequest) : Decidable (s.Discerns request) :=
  inferInstanceAs (Decidable (∀ key ∈ s.remoteKeys request.scopes, _))

theorem Books.conflicted {vs : Verdicts} (hb : Books m vs s)
    (hres : s.resourceCommits key = m.resourceCommits key) :
    s.conflicted key = m.conflicted key := by
  rw [RuntimeState.conflicted, RuntimeState.conflicted, heads_of_resourceCommits hres, hb.conflicts,
    hb.activeRun]

theorem Books.resourceKind {vs : Verdicts} (hb : Books m vs s)
    (hres : s.resourceCommits key = m.resourceCommits key) :
    s.resourceKind key = m.resourceKind key := by
  rw [RuntimeState.resourceKind, RuntimeState.resourceKind, hb.kinds, hres]

/-- What `maintain` takes for a long binary history without conflict holds no text. -/
theorem RuntimeState.Discerns.binary (hd : m.Discerns request) {vs : Verdicts} (hb : Books m vs s)
    (hres : s.resourceCommits key = m.resourceCommits key)
    (hkey : key ∈ m.remoteKeys request.scopes)
    (hlong : request.historyRetentionVersions < (m.resourceCommits key).length)
    (hclear : s.conflicted key = false) (hkind : s.resourceKind key ≠ .text) :
    ∀ x ∈ m.resourceCommits key, x.change.isText = false := by
  intro x hx
  by_contra htext
  rw [Bool.not_eq_false] at htext
  rcases hd key hkey ⟨x, hx, htext⟩ with hshort | hconflicted | htext
  · omega
  · rw [hb.conflicted hres, hconflicted] at hclear
    cases hclear
  · exact hkind (hb.resourceKind hres ▸ htext)

end Kinds

section Checkpoints

variable [Crates] {F : SyncEvent → Prop} {h : List SyncEvent} {s : RuntimeState}

/-- No binary snapshot goes over a text version. -/
def KeepsKind (s : RuntimeState) : Req → Prop
  | .commitBatch batch => ∀ x ∈ batch.commits, x.change.snapshot?.isSome = true →
    ∀ y ∈ s.commits, y.id ∈ x.parents → y.change.isText = false
  | _ => True

theorem NoBatch.keepsKind {q : Req} (hq : NoBatch q) : KeepsKind s q := by
  cases q <;> first | exact trivial | exact hq.elim

theorem Comp.Within.keepsKind {x : Sync α} (hx : Comp.Within NoBatch Anyhow x) :
    Comp.wp (Prog.fairly F) (fun _ => KeepsKind) (fun _ _ _ => True) x (fun _ _ _ => True) h s :=
  Comp.wp_imp (traced_of_within (f := fun _ => ()) hx (fun _ _ _ _ => rfl)
    (fun _ _ _ hq => hq.keepsKind) h s) fun _ _ _ _ => trivial

theorem Silent.keepsKind {x : Sync α} (hx : Silent x) :
    Comp.wp (Prog.fairly F) (fun _ => KeepsKind) (fun _ _ _ => True) x
      (fun _ t _ => t.commits = s.commits) h s :=
  Comp.wp_mono (Comp.Within.frame hx (fun _ _ _ hq => hq.noBatch.keepsKind) h s)
    (fun _ _ _ _ => trivial) fun _ _ _ hf => hf.1.commits

theorem publishCommit_keepsKind (rt : SyncRuntime) (key : ResourceKey) (parents : List String)
    (counter : Nat) (change : ResourceChange) (batch : CommitBatch)
    (hparents : change.snapshot?.isSome = true → ∀ y ∈ s.commits, y.id ∈ parents →
      y.change.isText = false) :
    Comp.wp (Prog.fairly F) (fun _ => KeepsKind) (fun _ _ _ => True)
      (publishCommit rt key parents counter change batch) (fun _ _ _ => True) h s := by
  rw [publishCommit, Comp.wp_bind]
  refine Comp.wp_request.mpr ⟨trivial, ?_⟩
  rintro now _ ⟨rfl, -⟩
  refine ⟨fun now _ => ?_, fun _ _ => trivial⟩
  dsimp only
  rw [Comp.wp_bind]
  refine Comp.wp_request.mpr ⟨?_, fun _ _ _ => ⟨fun _ _ => trivial, fun _ _ => trivial⟩⟩
  intro x hx hsome y hy hin
  obtain rfl := List.mem_singleton.mp hx
  exact hparents hsome y hy (mem_sortDedup.mp hin)

theorem publishCheckpoint_keepsKind (rt : SyncRuntime) {key : ResourceKey} {head : String}
    (hhead : ∀ y ∈ s.commits, y.id = head → y.change.isText = false) :
    Comp.wp (Prog.fairly F) (fun _ => KeepsKind) (fun _ _ _ => True)
      (publishCheckpoint rt key head) (fun _ _ _ => True) h s := by
  refine Comp.wp_bind.mpr (Comp.wp_get.mpr ?_)
  split
  · trivial
  split
  · rw [publishDelete, Comp.wp_bind]
    refine Comp.wp_imp nextCounter_prepares.silent.keepsKind fun _ _ counter _ => ?_
    exact publishCommit_keepsKind _ _ _ _ _ _ fun hsome => by cases hsome
  · rw [Comp.wp_bind]
    refine Comp.wp_imp (contentForRemote_reads key (some head)).silent.keepsKind ?_
    intro _ _ content hs₁
    rw [publishBytes, Comp.wp_bind]
    refine Comp.wp_imp nextCounter_prepares.silent.keepsKind fun _ _ counter hs₂ => ?_
    rw [Comp.wp_bind]
    refine Comp.wp_imp (prepareChange_reads key .binary content).silent.keepsKind ?_
    intro _ _ prepared hs₃
    refine publishCommit_keepsKind _ _ _ _ _ _ fun _ y hy hin =>
      hhead y ?_ (List.mem_singleton.mp hin)
    rwa [hs₃, hs₂, hs₁] at hy

/-- A turn of the survey over a resource without text, if it gets as far as a checkpoint. -/
theorem surveyKey_keepsKind (rt : SyncRuntime) {versions : Nat} (acks : List ResourceAck)
    (survey : Survey) {key : ResourceKey}
    (hbinary : versions < (s.resourceCommits key).length → s.conflicted key = false →
      s.resourceKind key ≠ .text → ∀ x ∈ s.resourceCommits key, x.change.isText = false) :
    Comp.wp (Prog.fairly F) (fun _ => KeepsKind) (fun _ _ _ => True)
      (surveyKey rt versions acks survey key) (fun _ _ _ => True) h s := by
  refine Comp.wp_bind.mpr (Comp.wp_get.mpr ?_)
  split
  · trivial
  next hlength =>
  split
  · trivial
  next hclear =>
  have hclear : s.conflicted key = false ∧ s.resourceKind key ≠ .text := by simpa using hclear
  split
  · rw [startCheckpoint, Comp.wp_bind, Comp.wp_bind]
    refine Comp.wp_imp (publishCheckpoint_keepsKind rt fun y hy e => ?_) fun _ _ commit _ => ?_
    · have hin : y.id ∈ s.heads key := by
        rw [e, heads_of_not_conflicted hclear.1]
        exact List.mem_singleton_self _
      obtain ⟨⟨x, hx, hresource, hid⟩, -⟩ := RuntimeState.mem_heads.mp hin
      obtain rfl := KeyedMap.eq_of_mem hx hy hid
      exact hbinary (Nat.not_le.mp hlength) hclear.1 hclear.2 x
        (RuntimeState.mem_resourceCommits.mpr ⟨hx, hresource⟩)
    · rw [Comp.wp_bind, Comp.wp_modify]
      refine Comp.wp_request.mpr ⟨trivial, fun _ _ _ => ⟨fun _ _ => trivial, fun _ _ => trivial⟩⟩
  split
  · trivial
  dsimp only
  split
  · trivial
  · trivial

/-- The kinds were told apart when the acknowledgements were listed. -/
def Discerned (request : MaintenanceRequest) : SyncEvent → Prop
  | ⟨m, .listAcknowledgements _, _⟩ => m.Discerns request
  | _ => True

theorem maintain_keepsKind (hF : ∀ e, F e → SameIds e) {request : MaintenanceRequest}
    (hdiscern : ∀ e, F e → Discerned request e) (rt : SyncRuntime) :
    Comp.wp (Prog.fairly F) (fun _ => KeepsKind) (fun _ _ _ => True)
      (Rollforward.maintain rt request) (fun _ _ _ => True) h s := by
  unfold maintain
  split
  · trivial
  rw [Comp.wp_bind]
  refine Comp.wp_imp (Comp.Within.keepsKind (refreshRemote_noBatch [])) fun h₁ m _ _ => ?_
  rw [Comp.wp_bind, Comp.wp_get, Comp.wp_bind]
  refine Comp.wp_request.mpr ⟨trivial, ?_⟩
  rintro r _ ⟨rfl, hfair⟩
  refine ⟨fun acks hr => ?_, fun _ _ => trivial⟩
  have hd : m.Discerns request := hdiscern _ hfair
  rw [Comp.wp_bind]
  have hinit : ∀ h₂, Surveyed rt request.historyRetentionVersions acks h₂ m [] h₂ m
      { report := { resources := (m.remoteKeys request.scopes).length } } :=
    fun h₂ => ⟨by simp, rfl, rfl, by simp [Verdicts.obsolete], by simp [Verdicts.checkpoints]⟩
  refine Comp.wp_imp (survey_surveyed hF (remoteKeys_nodup m request.scopes) (hinit _)
    fun hkey _ hres hb => surveyKey_keepsKind rt acks _ fun hlong hclear hkind => ?_) ?_
  · rw [hres] at hlong ⊢
    exact hd.binary hb hres hkey hlong hclear hkind
  · intro h₂ s₂ survey _
    have hcompact : Comp.Within NoBatch Anyhow
        (survey.obsoleteByScope.toList.foldlM (compactScope rt) survey.report) :=
      .foldlM (fun report entry => compactScope_noBatch rt report entry) _ _
    refine Comp.Within.keepsKind (.bind hcompact fun report =>
      .bind (Silent.noBatch (collectPacks_silent report)) fun _ =>
      .bind (.request (by exact trivial) _) fun _ => .pure _)

end Checkpoints

section Worlds

variable [Crates] {S : Setting} {w w' : World} {c : String} {request : MaintenanceRequest}

/-- Nobody has the acknowledgements listed in a `maintain` that cannot tell the kinds apart. -/
def World.Discerning (w : World) : Label → Prop
  | .answer c _ =>
    match (w.clients c).command, (w.clients c).prog with
    | some (.maintain request), .call s (.listAcknowledgements _) _ => s.Discerns request
    | _, _ => True
  | _ => True

instance (w : World) : DecidablePred w.Discerning := fun l =>
  decidable_of_iff ((match l with
    | .answer c _ =>
      match (w.clients c).command, (w.clients c).prog with
      | some (.maintain request), .call s (.listAcknowledgements _) _ => decide (s.Discerns request)
      | _, _ => true
    | _ => true) = true) <| by
    unfold World.Discerning
    split
    · split <;> simp
    · simp

theorem World.Discerning.event {s : RuntimeState} {q : Req} {a : Answer}
    {k : q.Resp → Prog host RuntimeState (Except SyncError Unit)}
    (hok : w.Discerning (.answer c a)) (hcommand : (w.clients c).command = some (.maintain request))
    (hp : (w.clients c).prog = .call s q k) (r : q.Resp) : Discerned request ⟨s, q, r⟩ := by
  cases q with
  | listAcknowledgements keys =>
    have hd : s.Discerns request := by simpa only [World.Discerning, hcommand, hp] using hok
    exact hd
  | _ => trivial

/-- What a client listed in its `maintain`, it could tell apart. -/
def Client.Discerned (client : Client) : Prop :=
  ∀ request, client.command = some (.maintain request) →
    ∀ e ∈ client.trace, Rollforward.Discerned request e

theorem World.Reachable.discerned (hw : w.Reachable S World.Discerning) :
    ∀ c, (w.clients c).Discerned := by
  induction hw with
  | refl =>
    intro c request hcommand
    cases hcommand
  | @tail v v' hv hstep ih =>
    have hset : ∀ {c : String} {client : Client}, client.Discerned →
        ∀ c', ((v.setClient c client).clients c').Discerned := fun hclient =>
      (Function.forall_update_iff _ fun _ (client : Client) => client.Discerned).mpr
        ⟨hclient, fun c' _ => ih c'⟩
    obtain ⟨l, hok, hs⟩ := hstep
    cases l with
    | start c command =>
      rw [World.start_cases hs]
      exact hset fun _ _ e he => absurd he List.not_mem_nil
    | answer c a =>
      obtain ⟨s, q, k, r, v₁, hp, hr, rfl⟩ := World.answer_cases hs
      obtain ⟨hans, -⟩ := World.respond_fair ((World.Reachable.relies hv) c).files
        (World.Reachable.inv hv).objects hr
      refine (Function.forall_update_iff _ fun _ (client : Client) => client.Discerned).mpr
        ⟨fun request hcommand => ?_, fun c' hne => ?_⟩
      · rw [hans.command] at hcommand
        rw [hans.trace, List.forall_mem_cons]
        exact ⟨hok.event hcommand hp r, ih c request hcommand⟩
      · rw [hans.others c' hne]
        exact ih c'
    | edit c key file =>
      obtain rfl := Option.some.inj hs
      exact hset (ih c)
    | crash c =>
      obtain rfl := Option.some.inj hs
      exact hset fun request hcommand => by cases hcommand

/-- The ids that a compaction gives up are those of versions without text. -/
def GivesUp (request : MaintenanceRequest) (h : List SyncEvent) : Req → Prop
  | .compactCatalog compaction => (∀ e ∈ h, Discerned request e) →
    ∀ id ∈ compaction.obsoleteCommitIds, ∃ m h₁, Caught [] h₁ m ∧ h₁ <:+ h ∧
      ∃ y ∈ m.commits, y.id = id ∧ y.change.isText = false
  | _ => True

theorem maintain_givesUp (rt : SyncRuntime) (s : RuntimeState) :
    Comp.wp (Prog.fairly SameIds) (fun h _ => GivesUp request h) (fun _ _ _ => True)
      (Rollforward.maintain rt request) (fun _ _ _ => True) [] s := by
  refine Comp.wp_imp (maintain_truncates (fun _ he => he) ?_ rt request [] s ?_)
    fun _ _ _ _ => trivial
  · intro h s q hq
    cases q <;> first | exact trivial | exact hq.elim
  · intro m acks vs h s compaction ht hr hall id hid
    obtain ⟨h₁, hcaught, hlisted⟩ := hr.listed
    have hd : m.Discerns request := hall _ (hlisted.subset List.mem_cons_self)
    rw [ht.obsolete] at hid
    obtain ⟨key, checkpoint, hv, -, hid⟩ := Verdicts.mem_obsolete.mp hid
    obtain ⟨y, hy, rfl⟩ := List.mem_map.mp (List.mem_filter.mp hid).1
    obtain ⟨vs₁, s₁, -, -, hres, hb, hclear, hkind, -⟩ := hr.ruled key _ hv
    have hkey : key ∈ m.remoteKeys request.scopes := hr.keys ▸ List.mem_map_of_mem hv
    refine ⟨m, h₁, hcaught, (List.suffix_cons _ _).trans hlisted, y,
      (RuntimeState.mem_resourceCommits.mp hy).1, rfl, ?_⟩
    exact hd.binary hb hres hkey (ht.fits key _ hv).1 hclear hkind y hy

/-- As long as the kinds are told apart, `maintain` gives up no text version and puts no binary
checkpoint over one. -/
theorem World.maintain_keeps_text (hcol : Collisionless) (hw : w.Reachable S World.Discerning)
    (hcommand : (w.clients c).command = some (.maintain request)) :
    (∀ s compaction k, (w.clients c).prog = .call s (.compactCatalog compaction) k →
      ∀ x ∈ w.published, x.id ∈ compaction.obsoleteCommitIds → x.change.isText = false) ∧
    (∀ s batch k, (w.clients c).prog = .call s (.commitBatch batch) k →
      ∀ x ∈ batch.commits, x.change.snapshot?.isSome = true →
        ∀ y ∈ w.published, y.id ∈ x.parents → y.change.isText = false) := by
  have hdiscerned := hw.discerned c request hcommand
  have hrun : ∀ {T : List SyncEvent → SyncEvent → List SyncEvent → Prop}
      {C : List SyncEvent → RuntimeState → Req → Prop} {s : RuntimeState},
      Comp.wp T C (fun _ _ _ => True) (Rollforward.maintain ⟨c, S.policy c⟩ request)
        (fun _ _ _ => True) [] s →
      (Command.run ⟨c, S.policy c⟩ (.maintain request) s).Meets T C (fun _ _ _ => True) [] := by
    intro T C s hwp
    have hunit : Comp.wp T C (fun _ _ _ => True) (Command.run ⟨c, S.policy c⟩ (.maintain request))
        (fun _ _ _ => True) [] s := by
      rw [Command.run, Comp.wp_bind]
      exact Comp.wp_imp hwp fun _ _ _ _ => trivial
    exact Prog.Meets.imp hunit (fun _ _ _ hc => hc) fun _ _ _ _ => trivial
  constructor
  · intro s compaction k hp x hx hid
    have hmeets := hw.relies.call hcommand (hrun (maintain_givesUp ⟨c, S.policy c⟩ _))
      (hw.sound.sameIds hcol)
    rw [hp] at hmeets
    obtain ⟨m, h₁, hcaught, hsuffix, y, hy, e, htext⟩ := hmeets.1 hdiscerned x.id hid
    rw [← hw.ids hcol x hx y (hw.sound.caught hcaught hsuffix y hy) e]
    exact htext
  · intro s batch k hp x hx hsome y hy hin
    have hmeets := hw.relies.call (F := fun e => SameIds e ∧ Discerned request e) hcommand
      (hrun (maintain_keepsKind (fun _ he => he.1) (fun _ he => he.2) ⟨c, S.policy c⟩))
      fun e he hfair => ⟨hw.sound.sameIds hcol e he hfair, hdiscerned e he⟩
    rw [hp] at hmeets
    -- a parent is a head that the client holds
    obtain ⟨files, existing, hmade⟩ := hw.relies.publishes hp
    have hmem : (w.clients c).memory = s := by rw [Client.memory, hp]; rfl
    have hhead := hin
    rw [(hmade.commits x hx).parents, mem_sortDedup] at hhead
    obtain ⟨⟨z, hz, -, e⟩, -⟩ := RuntimeState.mem_heads.mp hhead
    obtain rfl := hw.ids hcol y hy z ((hw.inv.clients c).memory z (hmem ▸ hz)) e
    exact hmeets.1 x hx hsome z hz hin

end Worlds

section Players

open Sample

variable [Crates]

/-- The compaction that a client in `maintain` asks for. -/
def compactionOf (w : World) (client : String) : Option CatalogCompaction :=
  match (w.clients client).command, (w.clients client).prog with
  | some (.maintain _), .call _ (.compactCatalog compaction) _ => some compaction
  | _, _ => none

theorem call_of_compactionOf {w : World} {client : String} {compaction : CatalogCompaction}
    (h : compactionOf w client = some compaction) : ∃ request s k,
      (w.clients client).command = some (.maintain request) ∧
      (w.clients client).prog = .call s (.compactCatalog compaction) k := by
  unfold compactionOf at h
  split at h
  · next request s _ k hcommand hp =>
    obtain rfl := Option.some.inj h
    exact ⟨request, s, k, hcommand, hp⟩
  · cases h

end Players

section Scripts

open Sample

attribute [local instance] spelled

/-- `a` is binary and `b` a text. -/
def mixed : Setting := { kindOf := fun key => if key.resourceId = "b" then .text else .binary }

/-- The history of the binary resource is cut beside a text. -/
theorem World.maintain_keeps_text_beside : ∃ w s compaction k,
    World.Reachable mixed World.Discerning w ∧
      (w.clients "A").prog = .call s (.compactCatalog compaction) k ∧
      compaction.obsoleteCommitIds ≠ [] ∧ (∃ x ∈ w.published, x.change.isText = true) ∧
      ∀ x ∈ w.published, x.id ∈ compaction.obsoleteCommitIds → x.change.isText = false := by
  obtain ⟨w, hw, hp⟩ := exists_reachable mixed World.Discerning
    (upload "A" "a" "1" "t1" ++ upload "A" "b" "2" "t2" ++ upload "A" "b" "3" "t3" ++
      upload "A" "a" "4" "t4" ++ tidy "A" ++
      [.step (.start "A" (.maintain ⟨[], 1⟩)), .answers "A" 4])
    (fun w => (compactionOf w "A").any fun compaction => compaction.obsoleteCommitIds ≠ [] ∧
      ∃ x ∈ w.published, x.change.isText = true) (by decide +kernel)
  obtain ⟨compaction, hc, hp⟩ := (Option.any_eq_true _ _).mp hp
  obtain ⟨hgives, htext⟩ := of_decide_eq_true hp
  obtain ⟨request, s, k, hcommand, hcall⟩ := call_of_compactionOf hc
  exact ⟨w, s, compaction, k, hw, hcall, hgives, htext,
    (World.maintain_keeps_text spelled_collisionless hw hcommand).1 s compaction k hcall⟩

end Scripts

section Losses

open Sample

attribute [local instance] crates

/-- `C` knows no kinds, and the last commit by id is a deletion of `B`: the text of `A` is given
up, or a binary checkpoint is put over it. -/
theorem World.maintain_mistakes_text :
    (∃ w request s compaction k, World.Reachable texts (fun _ _ => True) w ∧
      (w.clients "C").command = some (.maintain request) ∧
      (w.clients "C").prog = .call s (.compactCatalog compaction) k ∧
      ∃ x ∈ w.published, x.id ∈ compaction.obsoleteCommitIds ∧ x.change.isText = true) ∧
    (∃ w s batch k, World.Reachable texts (fun _ _ => True) w ∧
      (w.clients "C").prog = .call s (.commitBatch batch) k ∧
      ∃ x ∈ batch.commits, x.change.snapshot?.isSome = true ∧
        ∃ y ∈ w.published, y.id ∈ x.parents ∧ y.change.isText = true) := by
  constructor
  · obtain ⟨w, hw, hp⟩ := exists_reachable texts (fun _ _ => True)
      (upload "A" "a" "1" "t1" ++ upload "A" "a" "2" "t2" ++ sync "B" ++
        [.step (.edit "B" (key "a") none)] ++ sync "B" ++ sync "A" ++ tidy "C" ++ sync "A" ++
        sync "B" ++ [.step (.start "C" (.maintain ⟨[], 1⟩)), .answers "C" 4])
      (fun w => (compactionOf w "C").any fun compaction => ∃ x ∈ w.published,
        x.id ∈ compaction.obsoleteCommitIds ∧ x.change.isText = true) (by decide +kernel)
    obtain ⟨compaction, hc, hp⟩ := (Option.any_eq_true _ _).mp hp
    obtain ⟨request, s, k, hcommand, hcall⟩ := call_of_compactionOf hc
    exact ⟨w, request, s, compaction, k, hw, hcommand, hcall, of_decide_eq_true hp⟩
  · obtain ⟨w, hw, hp⟩ := exists_reachable texts (fun _ _ => True)
      (upload "A" "a" "1" "t1" ++ sync "B" ++ [.step (.edit "B" (key "a") none)] ++ sync "B" ++
        sync "A" ++ upload "A" "a" "3" "t3" ++
        [.step (.start "C" (.maintain ⟨[], 1⟩)), .answers "C" 5])
      (fun w => (batchOf w "C").any fun batch => ∃ x ∈ batch.commits,
        x.change.snapshot?.isSome = true ∧ ∃ y ∈ w.published, y.id ∈ x.parents ∧
          y.change.isText = true) (by decide +kernel)
    obtain ⟨batch, hb, hp⟩ := (Option.any_eq_true _ _).mp hp
    obtain ⟨s, k, hcall⟩ := call_of_batchOf hb
    exact ⟨w, s, batch, k, hw, hcall, of_decide_eq_true hp⟩

end Losses

end Rollforward
