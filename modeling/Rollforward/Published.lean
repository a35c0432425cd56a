import Rollforward.Rounds

/-! What the commands publish, against an environment that keeps to `Fair`. -/

namespace Rollforward

open Std Lib

variable [Crates]

section Made

variable {S : Setting} {published : List Commit} {versions : List (ResourceKey × File)}

/-- What every published commit is: it stands on all the heads, only text resources get
text, and a binary version is the snapshot of one of the `files`. -/
structure Made (S : Setting) (s : RuntimeState) (files : List Bytes) (x : Commit) : Prop where
  parents : x.parents = sortDedup (s.heads x.resource)
  text : x.change.isText = true → S.kindOf x.resource = .text ∨
    ∃ y ∈ s.commits, y.resource = x.resource ∧ y.change.isText = true
  binary : x.change.snapshot?.isSome → ∃ data ∈ files, x.change = binarySnapshot data

/-- What every published batch is. -/
structure MadeBatch (S : Setting) (h : List SyncEvent) (s : RuntimeState) (files : List Bytes)
    (existing : List ChunkLocation) (batch : CommitBatch) : Prop where
  commits : ∀ x ∈ batch.commits, Made S s files x
  distinct : (batch.commits.map Commit.resource).Nodup
  looked : Looked h files existing
  packs : batch.packs = (packBatch (newChunks (chunksOf files) existing)).packs
  indexes : batch.indexes = (packBatch (newChunks (chunksOf files) existing)).indexes

def Publishes (S : Setting) (h : List SyncEvent) (s : RuntimeState) : Req → Prop
  | .commitBatch batch => ∃ files existing, MadeBatch S h s files existing batch
  | _ => True

theorem NoBatch.publishes {q : Req} (hq : NoBatch q) {h : List SyncEvent} {s : RuntimeState} :
    Publishes S h s q := by
  cases q <;> first | exact trivial | exact hq.elim

theorem Round.Publishes.made {round : Round} {h : List SyncEvent} {s : RuntimeState}
    {batch : CommitBatch} (hp : round.Publishes S versions h s batch) :
    MadeBatch S h s round.files round.existing batch := by
  refine ⟨fun x hx => ?_, hp.order.nodup hp.keys, hp.looked, hp.packs, hp.indexes⟩
  obtain ⟨operation, hop, hup, hu⟩ := hp.uploaded x hx
  refine ⟨by rw [hu.parents, hu.resource], ?_, ?_⟩ <;> have hchange := hu.change
  · intro ht
    cases operation with
    | publishDelete key =>
      rw [show x.change = .delete from hchange] at ht
      cases ht
    | upload key localState =>
      obtain ⟨content, hc, -, hbin, -⟩ := hchange
      obtain ⟨-, hkind, -⟩ := hp.contents key content hc
      rw [hu.resource]
      cases hk : content.kind with
      | text => exact Or.inl (hkind.symm.trans hk)
      | binary =>
        rw [(hbin hk).2] at ht
        cases ht
    | _ => cases hup
  · intro hb
    cases operation with
    | publishDelete key =>
      rw [show x.change = .delete from hchange] at hb
      cases hb
    | upload key localState =>
      obtain ⟨content, hc, -, hbin, htext⟩ := hchange
      cases hk : content.kind with
      | binary => exact ⟨content.data, hbin hk⟩
      | text =>
        obtain ⟨client, doc, text, -, -, e⟩ := htext hk
        rw [e] at hb
        cases hb
    | _ => cases hup

variable {h : List SyncEvent} {s : RuntimeState}

/-- `x` keeps to what may be published, whatever it is answered. -/
def Honest (S : Setting) (published : List Commit) (versions : List (ResourceKey × File))
    (x : Sync α) (h : List SyncEvent) (s : RuntimeState) : Prop :=
  Comp.wp (Prog.fairly (Fair S published versions)) (Publishes S) (fun _ _ _ => True) x
    (fun _ _ _ => True) h s

theorem Comp.Within.honest {K : Req → Prop} {R : RuntimeState → RuntimeState → Prop}
    [IsPreorder RuntimeState R] {x : Sync α} (hx : Comp.Within K R x) (hK : ∀ q, K q → NoBatch q)
    (h : List SyncEvent) (s : RuntimeState) :
    Comp.wp (Prog.fairly (Fair S published versions)) (Publishes S) (fun _ _ _ => True) x
      (fun h' s' _ => R s s' ∧ h <:+ h') h s :=
  Comp.wp_mono (hx.frame (fun _ _ q hq => (hK q hq).publishes) h s) (fun _ _ _ _ => trivial)
    fun _ _ _ hr => hr

theorem Silent.honest {x : Sync α} (hx : Silent x) (h : List SyncEvent) (s : RuntimeState) :
    Comp.wp (Prog.fairly (Fair S published versions)) (Publishes S) (fun _ _ _ => True) x
      (fun h' s' _ => SameCatalog s s' ∧ h <:+ h') h s :=
  Comp.Within.honest hx (fun _ hq => hq.noBatch) h s

theorem Honest.bind {x : Sync α} {f : α → Sync β} (hx : Honest S published versions x h s)
    (hf : ∀ a h s, Honest S published versions (f a) h s) :
    Honest S published versions (x >>= f) h s :=
  Comp.wp_bind.mpr (Comp.wp_imp hx fun h s a _ => hf a h s)

theorem Silent.honest_bind {x : Sync α} {f : α → Sync β} (hx : Silent x)
    (hf : ∀ a h' s', SameCatalog s s' → Honest S published versions (f a) h' s') :
    Honest S published versions (x >>= f) h s :=
  Comp.wp_bind.mpr (Comp.wp_imp (hx.honest h s) fun h' s' a hs => hf a h' s' hs.1)

theorem Silent.honest_rest {x : Sync α} (hx : Silent x) : Honest S published versions x h s :=
  Comp.wp_imp (hx.honest h s) fun _ _ _ _ => trivial

theorem publishCommit_honest (rt : SyncRuntime) {key : ResourceKey} {parents : List String}
    (counter : Nat) {change : ResourceChange} {batch : CommitBatch} (files : List Bytes)
    (existing : List ChunkLocation) (hparents : parents = s.heads key)
    (htext : change.isText = true → S.kindOf key = .text ∨
      ∃ y ∈ s.commits, y.resource = key ∧ y.change.isText = true)
    (hbinary : change.snapshot?.isSome → ∃ data ∈ files, change = binarySnapshot data)
    (hlooked : Looked h files existing)
    (hpacks : batch.packs = (packBatch (newChunks (chunksOf files) existing)).packs)
    (hindexes : batch.indexes = (packBatch (newChunks (chunksOf files) existing)).indexes) :
    Honest S published versions (publishCommit rt key parents counter change batch) h s := by
  rw [Honest, publishCommit, Comp.wp_bind]
  refine Comp.wp_request.mpr ⟨trivial, ?_⟩
  rintro now _ ⟨rfl, -⟩
  refine ⟨fun now _ => ?_, fun _ _ => trivial⟩
  dsimp only
  rw [Comp.wp_bind]
  refine Comp.wp_request.mpr ⟨⟨files, existing, ?_⟩, fun r h' _ => ⟨fun _ _ => trivial,
    fun _ _ => trivial⟩⟩
  refine ⟨fun x hx => ?_, by simp, ?_, hpacks, hindexes⟩
  · rw [List.mem_singleton.mp hx]
    exact ⟨by rw [hparents]; rfl, htext, hbinary⟩
  · exact hlooked.imp_right fun ⟨s', he⟩ => ⟨s', List.mem_cons_of_mem _ he⟩

theorem publishBytes_honest (rt : SyncRuntime) {key : ResourceKey} {kind : ResourceKind}
    (data : Bytes) {parents : List String} (hparents : parents = s.heads key)
    (htext : kind = .text → S.kindOf key = .text ∨
      ∃ y ∈ s.commits, y.resource = key ∧ y.change.isText = true) :
    Honest S published versions (publishBytes rt key kind data parents) h s := by
  rw [Honest, publishBytes, Comp.wp_bind]
  refine Comp.wp_imp (nextCounter_prepares.silent.honest h s) ?_
  rintro h₁ s₁ counter ⟨hs, -⟩
  have hparents₁ : parents = s₁.heads key := by
    rw [hparents, RuntimeState.heads_of_commits hs.commits]
  rw [Comp.wp_bind]
  cases kind with
  | binary =>
    simp only [prepareChange, Comp.wp_bind]
    refine Comp.wp_request.mpr ⟨trivial, ?_⟩
    rintro r _ ⟨rfl, -⟩
    refine ⟨fun existing hr => ?_, fun _ _ => trivial⟩
    obtain rfl : r = .ok existing := hr
    refine publishCommit_honest rt counter [data] existing hparents₁ (by intro ht; cases ht)
      (fun _ => ⟨data, List.mem_singleton_self _, rfl⟩) (Or.inr ⟨s₁, ?_⟩)
      (by rw [chunksOf, List.flatMap_singleton]) (by rw [chunksOf, List.flatMap_singleton])
    rw [chunksOf, List.flatMap_singleton]
    exact List.mem_cons_self
  | text =>
    simp only [prepareChange, Comp.wp_bind, Comp.wp_get]
    refine Comp.wp_ofExcept.mpr ⟨fun doc _ => ?_, fun _ _ => trivial⟩
    refine Comp.wp_ofExcept.mpr ⟨fun text _ => ?_, fun _ _ => trivial⟩
    refine Comp.wp_request.mpr ⟨trivial, ?_⟩
    rintro client _ ⟨rfl, -⟩
    refine ⟨fun client _ => ?_, fun _ _ => trivial⟩
    refine publishCommit_honest rt counter [] [] hparents₁ (fun _ => ?_)
      (by intro hb; cases hb) (Or.inl rfl) rfl rfl
    rw [hs.commits]
    exact htext rfl

theorem publishDelete_honest (rt : SyncRuntime) {key : ResourceKey} {parents : List String}
    (hparents : parents = s.heads key) :
    Honest S published versions (publishDelete rt key parents) h s := by
  rw [Honest, publishDelete, Comp.wp_bind]
  refine Comp.wp_imp (nextCounter_prepares.silent.honest h s) ?_
  rintro h₁ s₁ counter ⟨hs, -⟩
  refine publishCommit_honest rt counter [] [] ?_
    (by intro ht; cases ht) (by intro hb; cases hb) (Or.inl rfl) rfl rfl
  rw [hparents, RuntimeState.heads_of_commits hs.commits]

end Made

section Commands

variable {S : Setting} {published : List Commit} {versions : List (ResourceKey × File)}
variable {h : List SyncEvent} {s : RuntimeState}

theorem reconcile_honest (rt : SyncRuntime) (request : SyncRequest) :
    Honest S published versions (Rollforward.reconcile rt request) h s :=
  reconcile_publishes (fun _ _ _ hq => hq.publishes)
    (fun round _ _ _ hp => ⟨round.files, round.existing, hp.made⟩) rt request h s

theorem commitDelete_honest (rt : SyncRuntime) {key : ResourceKey} (current : ReplicaState)
    {parents : List String} (refusal : Refusal) (hparents : parents = s.heads key) :
    Honest S published versions (commitDelete rt key current parents refusal) h s := by
  refine (removeLocal_silent key current refusal).honest_bind fun _ h₁ s₁ hs => ?_
  refine Honest.bind (publishDelete_honest rt ?_) fun _ _ _ => trivial
  rw [hparents, RuntimeState.heads_of_commits hs.commits]

theorem commitContent_honest (rt : SyncRuntime) {key : ResourceKey} (head : String)
    {change : ResourceChange} (current : ReplicaState) {parents : List String} (refusal : Refusal)
    (hparents : parents = s.heads key) (htext : change.isText = true →
      ∃ y ∈ s.commits, y.resource = key ∧ y.change.isText = true) :
    Honest S published versions (commitContent rt key head change current parents refusal) h s := by
  refine (contentForRemote_reads key (some head)).silent.honest_bind fun data h₁ s₁ hs₁ => ?_
  refine (applyMutation_silent _ _ _).honest_bind fun result h₂ s₂ hs₂ => ?_
  have hs := hs₁.trans hs₂
  refine Honest.bind (publishBytes_honest rt data ?_ fun hk => Or.inr ?_) fun _ _ _ => trivial
  · rw [hparents, RuntimeState.heads_of_commits hs.commits]
  · rw [hs.commits]
    apply htext
    cases ht : change.isText
    · simp [ht] at hk
    · rfl

theorem commitVersion_honest (rt : SyncRuntime) {key : ResourceKey} {selected : Commit}
    (current : ReplicaState) {parents : List String} (delete write : Refusal)
    (hparents : parents = s.heads key) (hmem : selected ∈ s.commits)
    (hkey : selected.resource = key) :
    Honest S published versions (commitVersion rt key selected current parents delete write) h s := by
  unfold commitVersion
  split
  · exact commitDelete_honest rt current delete hparents
  · exact commitContent_honest rt _ current write hparents fun ht => ⟨selected, hmem, hkey, ht⟩

theorem readOne_kind (key : ResourceKey) (h : List SyncEvent) (s : RuntimeState) :
    Comp.wp (Prog.fairly (Fair S published versions)) (Publishes S) (fun _ _ _ => True)
      (readOne key) (fun _ s' content => s' = s ∧ content.kind = S.kindOf key) h s := by
  rw [readOne, Comp.wp_bind]
  refine Comp.wp_request.mpr ⟨trivial, ?_⟩
  rintro r _ ⟨rfl, hfair⟩
  refine ⟨fun contents hr => ?_, fun _ _ => trivial⟩
  obtain rfl : r = .ok contents := hr
  obtain ⟨files, -, rfl⟩ := hfair
  split
  · next content rest hread =>
    refine ⟨rfl, ?_⟩
    have hmem : content ∈ S.read files [key] := hread ▸ List.mem_cons_self
    obtain ⟨key', hkey', hc⟩ := List.mem_filterMap.mp hmem
    obtain ⟨file, -, hdata⟩ := Option.bind_eq_some_iff.mp hc
    obtain ⟨data, -, rfl⟩ := Option.map_eq_some_iff.mp hdata
    rw [List.mem_singleton.mp hkey']
  · trivial

theorem choosePrimary_honest (rt : SyncRuntime) (record : ConflictRecord) (current : ReplicaState)
    {heads : List String} (primary : VersionChoice) (hheads : heads = s.heads record.resource)
    (hrecord : record.remoteHeads = heads) :
    Honest S published versions (choosePrimary rt record current heads primary) h s := by
  cases primary with
  | ours =>
    refine Comp.wp_bind.mpr (Comp.wp_imp (readOne_kind record.resource h s) ?_)
    rintro h₁ _ content ⟨rfl, hkind⟩
    exact Honest.bind (publishBytes_honest rt _ hheads fun hk => Or.inl (hkind ▸ hk))
      fun _ _ _ => trivial
  | delete => exact commitDelete_honest rt current resolveDelete hheads
  | remote commitId =>
    simp only [choosePrimary]
    split
    · trivial
    · next hmem =>
      refine Comp.wp_bind.mpr (Comp.wp_get.mpr ?_)
      split
      · trivial
      · next selected hsel =>
        have hmem : commitId ∈ s.heads record.resource := by
          rw [← hheads, ← hrecord]
          exact not_not.mp hmem
        obtain ⟨⟨x, hx, hr, rfl⟩, -⟩ := RuntimeState.mem_heads.mp hmem
        obtain rfl : x = selected := by
          rw [KeyedMap.mem_def.mp hx] at hsel
          exact Option.some.inj hsel
        exact commitVersion_honest rt current _ _ hheads hx hr

theorem resolve_honest (rt : SyncRuntime) (request : ResolveConflictRequest) :
    Honest S published versions (Rollforward.resolve rt request) h s := by
  refine Comp.wp_bind.mpr (Comp.wp_get.mpr ?_)
  split
  · trivial
  next record _ =>
  dsimp only
  split
  · exact (staleConflict_silent _).honest_rest
  next hheads =>
  refine (currentState_reads _).silent.honest_bind fun current h₁ s₁ hs₁ => ?_
  split
  · exact (staleConflict_silent _).honest_rest
  have hcopies : Silent (request.preserved.foldlM
      (fun _ preserved => preserveCopy record.resource preserved) ()) :=
    .foldlM (fun _ preserved => preserveCopy_silent _ preserved) _ _
  refine hcopies.honest_bind fun _ h₂ s₂ hs₂ => ?_
  have hs := hs₁.trans hs₂
  refine Honest.bind (choosePrimary_honest rt record current request.primary
    (RuntimeState.heads_of_commits hs.commits _).symm (not_not.mp hheads).symm) fun _ h₃ s₃ => ?_
  exact Honest.bind (x := Comp.modify _) trivial fun _ _ _ =>
    Silent.honest_bind (.request (by exact trivial) _) fun _ _ _ _ => reconcile_honest rt _

theorem rollback_honest (rt : SyncRuntime) (request : RollbackRequest) :
    Honest S published versions (Rollforward.rollback rt request) h s := by
  refine Comp.wp_bind.mpr (Comp.wp_get.mpr ?_)
  dsimp only
  split
  · trivial
  next selected hsel =>
  obtain ⟨hget, hkey⟩ := Option.filter_eq_some_iff.mp hsel
  refine (currentState_reads _).silent.honest_bind fun current h₁ s₁ hs => ?_
  refine Honest.bind (commitVersion_honest rt current _ _
    (RuntimeState.heads_of_commits hs.commits _).symm ?_ (of_decide_eq_true hkey))
    fun _ h₂ s₂ => ?_
  · rw [hs.commits]
    exact KeyedMap.mem_of_get? hget
  · exact Silent.honest_bind (.request (by exact trivial) _) fun _ _ _ _ => reconcile_honest rt _

theorem heads_of_not_conflicted {key : ResourceKey} (hc : s.conflicted key = false) :
    s.heads key = [(s.heads key).headD ""] := by
  simp only [RuntimeState.conflicted, Bool.or_eq_false_iff, decide_eq_false_iff_not,
    not_not] at hc
  obtain ⟨head, hhead⟩ := List.length_eq_one_iff.mp hc.1.1
  rw [hhead]
  rfl

theorem publishCheckpoint_honest (rt : SyncRuntime) {key : ResourceKey} {head : String}
    (hhead : s.heads key = [head]) :
    Honest S published versions (publishCheckpoint rt key head) h s := by
  refine Comp.wp_bind.mpr (Comp.wp_get.mpr ?_)
  split
  · trivial
  · split
    · exact publishDelete_honest rt hhead.symm
    · refine (contentForRemote_reads key (some head)).silent.honest_bind fun content h₁ s₁ hs => ?_
      refine publishBytes_honest rt content ?_ (by intro hk; cases hk)
      rw [RuntimeState.heads_of_commits hs.commits, hhead]

theorem surveyKey_honest (rt : SyncRuntime) (versions' : Nat) (acks : List ResourceAck)
    (survey : Survey) (key : ResourceKey) :
    Honest S published versions (surveyKey rt versions' acks survey key) h s := by
  refine Comp.wp_bind.mpr (Comp.wp_get.mpr ?_)
  split
  · trivial
  split
  · trivial
  next hclear =>
  have hc : s.conflicted key = false := by
    cases hc : s.conflicted key
    · rfl
    · simp [hc] at hclear
  split
  · refine Honest.bind (Honest.bind (publishCheckpoint_honest rt (heads_of_not_conflicted hc))
      fun commit _ _ => ?_) fun _ _ _ => trivial
    exact Honest.bind (x := Comp.modify _) trivial fun _ _ _ =>
      Silent.honest_rest (.request (by exact trivial) _)
  split
  · trivial
  dsimp only
  split
  · trivial
  · trivial

theorem foldlM_honest {f : γ → β → Sync γ}
    (hf : ∀ a x h s, Honest S published versions (f a x) h s) (xs : List β) (a : γ) :
    Honest S published versions (xs.foldlM f a) h s := by
  induction xs generalizing a h s with
  | nil => trivial
  | cons x xs ih =>
    rw [List.foldlM_cons]
    exact Honest.bind (hf a x h s) fun a _ _ => ih a

theorem maintain_honest (rt : SyncRuntime) (request : MaintenanceRequest) :
    Honest S published versions (Rollforward.maintain rt request) h s := by
  unfold maintain
  split
  · trivial
  have hrefresh : Honest S published versions (refreshRemote []) h s :=
    Comp.wp_imp (Comp.Within.honest (refreshRemote_noBatch []) (fun _ hq => hq) h s)
      fun _ _ _ _ => trivial
  refine Honest.bind hrefresh fun _ h₁ s₁ => Comp.wp_bind.mpr (Comp.wp_get.mpr ?_)
  refine Silent.honest_bind (.request (by exact trivial) _) fun acks h₂ s₂ _ => ?_
  refine Honest.bind (foldlM_honest (fun survey key h s =>
    surveyKey_honest rt _ acks survey key) _ _) fun survey h₃ s₃ => ?_
  refine Honest.bind (foldlM_honest (fun report entry h s => ?_) _ _) fun report h₄ s₄ => ?_
  · refine Comp.wp_bind.mpr (Comp.wp_get.mpr ?_)
    refine Silent.honest_bind (.request (by exact trivial) _) fun _ _ _ _ => ?_
    refine Honest.bind (x := Sync.compactCatalog _) ?_ fun _ _ _ => trivial
    exact Comp.wp_request.mpr ⟨trivial, fun _ _ _ => ⟨fun _ _ => trivial, fun _ _ => trivial⟩⟩
  · exact Silent.honest_rest (.bind (collectPacks_silent report) fun _ =>
      .bind (.request (by exact trivial) _) fun _ => .pure _)

/-- Every command publishes only what may be published. -/
theorem Command.run_honest (rt : SyncRuntime) (command : Command) (s : RuntimeState) :
    Honest S published versions (command.run rt) [] s := by
  cases command with
  | reconcile request => exact Honest.bind (reconcile_honest rt request) fun _ _ _ => trivial
  | resolve request => exact Honest.bind (resolve_honest rt request) fun _ _ _ => trivial
  | rollback request => exact Honest.bind (rollback_honest rt request) fun _ _ _ => trivial
  | maintain request => exact Honest.bind (maintain_honest rt request) fun _ _ _ => trivial
  | retireClient clientId =>
    exact Silent.honest_rest (.bind (.modify fun _ => ⟨rfl, rfl, le_rfl⟩) fun _ =>
      .request (by exact trivial) _)

end Commands

section Worlds

variable {S : Setting} {w : World} {c : String}

/-- Whatever a client is about to publish may be published. -/
theorem World.Relies.publishes (h : w.Relies S) {s : RuntimeState} {q : Req}
    {k : q.Resp → Prog host RuntimeState (Except SyncError Unit)}
    (hp : (w.clients c).prog = .call s q k) : Publishes S (w.clients c).trace s q := by
  obtain ⟨command, hcommand⟩ := h.calling hp
  have hcall := h.call hcommand (Command.run_honest ⟨c, S.policy c⟩ command _)
    fun _ _ hfair => hfair
  rw [hp] at hcall
  exact hcall.1

/-- So might what it published. -/
theorem World.Relies.published (h : w.Relies S) {e : SyncEvent} {h₀ : List SyncEvent}
    (he : e :: h₀ <:+ (w.clients c).trace) : Publishes S h₀ e.memory e.req := by
  obtain ⟨command, hcommand⟩ := h.command (he.subset List.mem_cons_self)
  exact h.past hcommand (Command.run_honest ⟨c, S.policy c⟩ command _) (fun _ _ hfair => hfair) he

end Worlds

end Rollforward
