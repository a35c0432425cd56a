import Rollforward.Identity
import Rollforward.Retention

/-! The checkpoints that a client waits for, over any number of its calls of `maintain`. -/

namespace Rollforward

open Std Lib

section Events

variable [Crates] {rt : SyncRuntime} {key : ResourceKey} {x : Commit} {e : SyncEvent}
variable {h h₀ : List SyncEvent}

/-- A compaction of the scope went through. -/
def Compacts (scope : String) : SyncEvent → Prop
  | ⟨_, .compactCatalog compaction, .ok _⟩ => compaction.snapshot.scopeId = scope
  | _ => False

/-- The acknowledgements were listed, and everybody has come as far as the checkpoint. -/
def Clears (rt : SyncRuntime) (key : ResourceKey) (checkpoint : String) : SyncEvent → Prop
  | ⟨s, .listAcknowledgements _, .ok acks⟩ => s.allAcknowledged rt acks key checkpoint = true
  | _ => False

instance (scope : String) (e : SyncEvent) : Decidable (Compacts scope e) := by
  unfold Compacts
  split <;> infer_instance

instance (rt : SyncRuntime) (key : ResourceKey) (checkpoint : String) (e : SyncEvent) :
    Decidable (Clears rt key checkpoint e) := by
  unfold Clears
  split <;> infer_instance

/-- The commits of the resource that a call published. -/
def issued (key : ResourceKey) : SyncEvent → List Commit
  | ⟨_, .commitBatch batch, .ok _⟩ => batch.commits.filter fun x => x.resource = key
  | _ => []

/-- The commits of the resource that were published and still wait for acknowledgements. -/
def waiting (rt : SyncRuntime) (key : ResourceKey) : List SyncEvent → List Commit
  | [] => []
  | e :: h => issued key e ++ (waiting rt key h).filter fun x => ¬ Clears rt key x.id e

/-- Nothing of the resource is published while one of its checkpoints waits. -/
def PublishesOnce (rt : SyncRuntime) (key : ResourceKey) (h : List SyncEvent) : Prop :=
  ∀ e h₀, e :: h₀ <:+ h → issued key e ≠ [] → waiting rt key h₀ = []

/-- The scope of the resource is compacted only when none of its checkpoints waits. -/
def CompactsAfter (rt : SyncRuntime) (key : ResourceKey) (h : List SyncEvent) : Prop :=
  ∀ e h₀, e :: h₀ <:+ h → Compacts key.scopeId e → waiting rt key h₀ = []

/-- `x` waits, and its scope was not compacted since it was published. -/
inductive Pends (rt : SyncRuntime) (key : ResourceKey) (x : Commit) : List SyncEvent → Prop
  | published {s : RuntimeState} {batch : CommitBatch} {h : List SyncEvent} : x ∈ batch.commits →
      x.resource = key → Pends rt key x (⟨s, .commitBatch batch, .ok ()⟩ :: h)
  | still {e : SyncEvent} {h : List SyncEvent} : Pends rt key x h → ¬ Clears rt key x.id e →
      ¬ Compacts key.scopeId e → Pends rt key x (e :: h)

theorem mem_issued {key : ResourceKey} {x : Commit} {e : SyncEvent} : x ∈ issued key e ↔
    ∃ s batch, e = ⟨s, .commitBatch batch, .ok ()⟩ ∧ x ∈ batch.commits ∧ x.resource = key := by
  constructor
  · intro hx
    unfold issued at hx
    split at hx
    · simp only [List.mem_filter, decide_eq_true_eq] at hx
      exact ⟨_, _, rfl, hx⟩
    · cases hx
  · rintro ⟨s, batch, rfl, hx⟩
    simpa [issued] using hx

theorem pends_of_waiting (hx : x ∈ waiting rt key h) (hcompacts : CompactsAfter rt key h) :
    Pends rt key x h := by
  induction h with
  | nil => cases hx
  | cons e h ih =>
    rcases List.mem_append.mp hx with hx | hx
    · obtain ⟨s, batch, rfl, hx, hkey⟩ := mem_issued.mp hx
      exact .published hx hkey
    · obtain ⟨hx, hclear⟩ := List.mem_filter.mp hx
      refine .still (ih hx fun e h₀ he => hcompacts e h₀ ?_) (by simpa using hclear) fun hcompact => ?_
      · exact he.trans (List.suffix_cons _ _)
      · rw [hcompacts _ _ List.suffix_rfl hcompact] at hx
        cases hx

theorem Pends.resource (hx : Pends rt key x h) : x.resource = key := by
  induction hx with
  | published _ hkey => exact hkey
  | still _ _ _ ih => exact ih

/-- A batch went out. -/
def Sends : SyncEvent → Prop
  | ⟨_, .commitBatch _, .ok _⟩ => True
  | _ => False

theorem Pends.of_cons (hx : Pends rt key x (e :: h)) (he : ¬ Sends e) :
    Pends rt key x h ∧ ¬ Clears rt key x.id e ∧ ¬ Compacts key.scopeId e := by
  cases hx with
  | published => exact absurd trivial he
  | still hx hclear hcompact => exact ⟨hx, hclear, hcompact⟩

/-- What `maintain` is to keep to at its calls: one checkpoint of the resource after the other. -/
def OneByOne (rt : SyncRuntime) (key : ResourceKey) (h : List SyncEvent) (_ : RuntimeState) :
    Req → Prop
  | .commitBatch batch => ∀ y ∈ batch.commits, y.resource = key → ∀ x, ¬ Pends rt key x h
  | _ => True

theorem NoBatch.oneByOne {q : Req} (hq : NoBatch q) {s : RuntimeState} :
    OneByOne rt key h s q := by
  cases q <;> first | exact trivial | exact hq.elim

theorem NoBatch.sends {q : Req} (hq : NoBatch q) {s : RuntimeState} {r : q.Resp} :
    ¬ Sends ⟨s, q, r⟩ := by
  cases q <;> first | exact id | exact hq.elim

end Events

section Memory

variable [Crates] {S : Setting} {pub : List Commit} {rt : SyncRuntime} {versions : Nat}
variable {key : ResourceKey} {h : List SyncEvent} {s t m : RuntimeState} {x : Commit}
variable {acks : List ResourceAck}

/-- What is published tells commits apart, keeps a resource to itself, and shares the name of
`key` with nothing else. -/
structure Apart (pub : List Commit) (key : ResourceKey) : Prop where
  ids : ∀ x ∈ pub, ∀ y ∈ pub, y.id = x.id → y = x
  kin : Kin pub
  names : ∀ x ∈ pub, x.resource.encoded = key.encoded → x.resource = key

/-- A checkpoint that pends is remembered, and the history of its resource is long. -/
structure Held (pub : List Commit) (rt : SyncRuntime) (versions : Nat) (key : ResourceKey)
    (h : List SyncEvent) (s : RuntimeState) : Prop where
  commits : ∀ x ∈ s.commits, x ∈ pub
  pending : ∀ x, Pends rt key x h → x ∈ pub ∧ (⟨key, x.id⟩ : StoredCheckpoint) ∈ s.checkpoints ∧
    versions < (s.resourceCommits key).length

/-- Equal for the checkpoint of the resource. -/
structure Alike (key : ResourceKey) (s t : RuntimeState) : Prop where
  commits : t.commits = s.commits
  checkpoint : t.checkpoints.get? key.encoded = s.checkpoints.get? key.encoded
  retired : t.retiredClients = s.retiredClients

instance (key : ResourceKey) : IsPreorder RuntimeState (Alike key) where
  refl _ := ⟨rfl, rfl, rfl⟩
  trans _ _ _ hst htu := ⟨htu.commits.trans hst.commits, htu.checkpoint.trans hst.checkpoint,
    htu.retired.trans hst.retired⟩

theorem Alike.resourceCommits (hst : Alike key s t) (other : ResourceKey) :
    t.resourceCommits other = s.resourceCommits other := by
  rw [RuntimeState.resourceCommits, hst.commits, ← RuntimeState.resourceCommits]

/-- An invariant that only a batch can break, or a memory that differs. -/
structure Lasting (key : ResourceKey) (J : List SyncEvent → RuntimeState → Prop) : Prop where
  call : ∀ {h s} {q : Req} {r : q.Resp}, J h s → ¬ Sends ⟨s, q, r⟩ → J (⟨s, q, r⟩ :: h) s
  same : ∀ {h s t}, J h s → Alike key s t → J h t

theorem held_lasting : Lasting key (Held pub rt versions key) where
  call hs hq := ⟨hs.commits, fun x hx => hs.pending x (hx.of_cons hq).1⟩
  same hs hst := by
    refine ⟨hst.commits ▸ hs.commits, fun x hx => ?_⟩
    obtain ⟨hpub, hcheckpoint, hlong⟩ := hs.pending x hx
    refine ⟨hpub, ?_, hst.resourceCommits key ▸ hlong⟩
    rw [KeyedMap.mem_def] at hcheckpoint ⊢
    exact hst.checkpoint.trans hcheckpoint

theorem Lasting.and {J J' : List SyncEvent → RuntimeState → Prop} (hJ : Lasting key J)
    (hJ' : Lasting key J') : Lasting key fun h s => J h s ∧ J' h s where
  call hs hq := ⟨hJ.call hs.1 hq, hJ'.call hs.2 hq⟩
  same hs hst := ⟨hJ.same hs.1 hst, hJ'.same hs.2 hst⟩

/-- An answer that some version of the environment gives. -/
def Told (S : Setting) (pub : List Commit) (e : SyncEvent) : Prop :=
  ∃ versions, Fair S pub versions e

theorem Lasting.wp {J : List SyncEvent → RuntimeState → Prop} (hJ : Lasting key J) {x : Sync α}
    (hx : Comp.Within NoBatch (Alike key) x) (hs : J h s) :
    Comp.wp (Prog.fairly (Told S pub)) (OneByOne rt key) (fun h s _ => J h s) x
      (fun h s _ => J h s) h s := by
  refine Comp.Within.wp (J := J) (C := OneByOne rt key) hx (fun _ _ _ => hJ.same)
    (fun _ _ _ _ hq => hq.oneByOne) ?_ hs
  rintro h s q r _ hs hq ⟨rfl, -⟩
  exact hJ.call hs hq.sends

/-- More is known of the resource than before. -/
theorem resourceCommits_le (hst : ∀ x ∈ s.commits, x.resource = key → x ∈ t.commits) :
    (s.resourceCommits key).length ≤ (t.resourceCommits key).length := by
  have hnodup : (s.resourceCommits key).Nodup := (s.resourceCommits_nodup key).of_map
  refine (List.subperm_of_subset hnodup fun x hx => ?_).length_le
  obtain ⟨hx, hkey⟩ := RuntimeState.mem_resourceCommits.mp hx
  exact RuntimeState.mem_resourceCommits.mpr ⟨hst x hx hkey, hkey⟩

theorem Held.grow (hs : Held pub rt versions key h s) (hcommits : ∀ x ∈ t.commits, x ∈ pub)
    (hst : ∀ x ∈ s.commits, x.resource = key → x ∈ t.commits)
    (hcheckpoint : ∀ id, (⟨key, id⟩ : StoredCheckpoint) ∈ s.checkpoints →
      (⟨key, id⟩ : StoredCheckpoint) ∈ t.checkpoints) : Held pub rt versions key h t := by
  refine ⟨hcommits, fun x hx => ?_⟩
  obtain ⟨hpub, hstored, hlong⟩ := hs.pending x hx
  exact ⟨hpub, hcheckpoint _ hstored, hlong.trans_le (resourceCommits_le hst)⟩

theorem Held.idle (hcommits : ∀ x ∈ t.commits, x ∈ pub) (hidle : ∀ x, ¬ Pends rt key x h) :
    Held pub rt versions key h t :=
  ⟨hcommits, fun x hx => absurd hx (hidle x)⟩

/-- The acknowledgements that were listed leave every pending checkpoint waiting, and `key` is
as it was then. -/
structure Unsettled (rt : SyncRuntime) (acks : List ResourceAck) (m : RuntimeState)
    (key : ResourceKey) (h : List SyncEvent) (s : RuntimeState) : Prop where
  waits : ∀ x, Pends rt key x h → m.allAcknowledged rt acks key x.id = false
  resource : s.resourceCommits key = m.resourceCommits key
  retired : s.retiredClients = m.retiredClients

theorem unsettled_lasting : Lasting key (Unsettled rt acks m key) where
  call hs hq := ⟨fun x hx => hs.waits x (hx.of_cons hq).1, hs.resource, hs.retired⟩
  same hs hst := ⟨hs.waits, (hst.resourceCommits key).trans hs.resource,
    hst.retired.trans hs.retired⟩

/-- A way down to a commit of the resource goes through commits of the resource. -/
theorem reaches_of_resourceCommits (hkin : Kin pub) (hs : ∀ y ∈ s.commits, y ∈ pub) (hx : x ∈ pub)
    (hst : s.resourceCommits x.resource = t.resourceCommits x.resource) {head : String}
    (hreach : Reaches s.parentsOf head x.id) : Reaches t.parentsOf head x.id := by
  have hstep : ∀ {z : Commit} {id : String}, z ∈ pub → z.resource = x.resource →
      z.id ∈ s.parentsOf id → ∃ y ∈ pub, y.id = id ∧ y.resource = x.resource ∧
        z.id ∈ t.parentsOf id := by
    intro z id hz hres hedge
    obtain ⟨y, hy, rfl, hparent⟩ := mem_parentsOf.mp hedge
    have hyres : y.resource = x.resource := (hkin z hz y (hs y hy) hparent).symm.trans hres
    have hyt : y ∈ t.resourceCommits x.resource :=
      hst ▸ RuntimeState.mem_resourceCommits.mpr ⟨hy, hyres⟩
    refine ⟨y, hs y hy, rfl, hyres, mem_parentsOf.mpr ⟨y, ?_, rfl, hparent⟩⟩
    exact (RuntimeState.mem_resourceCommits.mp hyt).1
  suffices hall : Reaches t.parentsOf head x.id ∧ ∃ y ∈ pub, y.id = head ∧ y.resource = x.resource
    from hall.1
  induction hreach using Relation.ReflTransGen.head_induction_on with
  | refl => exact ⟨.refl, x, hx, rfl, rfl⟩
  | head hedge _ ih =>
    obtain ⟨hrest, z, hz, rfl, hres⟩ := ih
    obtain ⟨y, hy, rfl, hyres, hparent⟩ := hstep hz hres hedge
    exact ⟨.head hparent hrest, y, hy, rfl, hyres⟩

theorem allAcknowledged_of_resourceCommits (hkin : Kin pub) (hs : ∀ y ∈ s.commits, y ∈ pub)
    (hx : x ∈ pub) (hst : s.resourceCommits x.resource = t.resourceCommits x.resource)
    (hretired : s.retiredClients = t.retiredClients)
    (hall : s.allAcknowledged rt acks x.resource x.id = true) :
    t.allAcknowledged rt acks x.resource x.id = true := by
  rw [RuntimeState.allAcknowledged, RuntimeState.activeClients, hst, hretired,
    ← RuntimeState.activeClients] at hall
  rw [RuntimeState.allAcknowledged]
  refine List.all_eq_true.mpr fun client hclient => ?_
  obtain ⟨ack, hack, hmatch⟩ := List.any_eq_true.mp (List.all_eq_true.mp hall client hclient)
  refine List.any_eq_true.mpr ⟨ack, hack, ?_⟩
  rw [Bool.and_eq_true] at hmatch ⊢
  refine ⟨hmatch.1, ?_⟩
  obtain ⟨head, hhead, hreach⟩ := List.any_eq_true.mp hmatch.2
  refine List.any_eq_true.mpr ⟨head, hhead, ?_⟩
  rw [RuntimeState.isDescendant_iff] at hreach ⊢
  exact reaches_of_resourceCommits hkin hs hx hst hreach

end Memory

section Programs

variable [Crates] {S : Setting} {pub : List Commit} {rt : SyncRuntime} {versions : Nat}
variable {key other : ResourceKey} {h : List SyncEvent} {s m : RuntimeState}
variable {acks : List ResourceAck} {J K : List SyncEvent → RuntimeState → Prop}

theorem Reads.alike {x : Sync α} (hx : Reads x) : Comp.Within NoBatch (Alike key) x :=
  hx.mono (fun _ hq => hq.quiet.noBatch) fun s _ e => e ▸ refl_of (Alike key) s

theorem nextCounter_alike : Comp.Within NoBatch (Alike key) nextCounter :=
  .bind (.modify fun _ => ⟨rfl, rfl, rfl⟩) fun _ => .bind .get fun _ => .pure _

/-- `z` has just been published, in a memory where `J` held, and is recorded. -/
inductive Published (pub : List Commit) (J : List SyncEvent → RuntimeState → Prop)
    (other : ResourceKey) : List SyncEvent → RuntimeState → Commit → Prop
  | mk {h : List SyncEvent} {s : RuntimeState} {batch : CommitBatch} {z : Commit} : J h s →
      batch.commits = [z] → z ∈ pub → z.resource = other →
      Published pub J other (⟨s, .commitBatch batch, .ok ()⟩ :: h)
        { s with commits := s.commits.insert z } z

section Publishing

variable (hJ : Lasting key J) (hidle : ∀ h s, J h s → other = key → ∀ x, ¬ Pends rt key x h)

include hJ hidle

theorem publishCommit_published (hs : J h s) (parents : List String) (counter : Nat)
    (change : ResourceChange) (batch : CommitBatch) :
    Comp.wp (Prog.fairly (Told S pub)) (OneByOne rt key) (fun h s _ => J h s)
      (publishCommit rt other parents counter change batch) (Published pub J other) h s := by
  rw [publishCommit, Comp.wp_bind]
  refine Comp.wp_request.mpr ⟨trivial, ?_⟩
  rintro now _ ⟨rfl, -⟩
  refine ⟨fun timestamp _ => ?_, fun _ he => by cases he⟩
  have hnow := hJ.call (q := .nowMillis) (r := now) hs id
  rw [Comp.wp_bind]
  refine Comp.wp_request.mpr ⟨?_, ?_⟩
  · intro y hy hkey
    obtain rfl := List.mem_singleton.mp hy
    exact hidle _ _ hnow hkey
  rintro r _ ⟨rfl, files, hfair⟩
  refine ⟨fun _ hr => ?_, fun error hr => ?_⟩
  · obtain rfl : r = .ok () := hr
    exact .mk hnow rfl (hfair _ (List.mem_singleton_self _)) rfl
  · obtain rfl : r = .error error := hr
    exact hJ.call hnow id

theorem publishCheckpoint_published (hs : J h s) (head : String) :
    Comp.wp (Prog.fairly (Told S pub)) (OneByOne rt key) (fun h s _ => J h s)
      (publishCheckpoint rt other head) (Published pub J other) h s := by
  refine Comp.wp_bind.mpr (Comp.wp_get.mpr ?_)
  split
  · exact hs
  split
  · rw [publishDelete, Comp.wp_bind]
    refine Comp.wp_imp (hJ.wp nextCounter_alike hs) fun h s counter hs => ?_
    exact publishCommit_published hJ hidle hs _ _ _ _
  · rw [Comp.wp_bind]
    refine Comp.wp_imp (hJ.wp (contentForRemote_reads _ _).alike hs) fun h s content hs => ?_
    rw [publishBytes, Comp.wp_bind]
    refine Comp.wp_imp (hJ.wp nextCounter_alike hs) fun h s counter hs => ?_
    rw [Comp.wp_bind]
    refine Comp.wp_imp (hJ.wp (prepareChange_reads _ _ _).alike hs) fun h s change hs => ?_
    exact publishCommit_published hJ hidle hs _ _ _ _

/-- The checkpoint is recorded as soon as it is published. -/
theorem startCheckpoint_lasts (hK : Lasting key K) (hfail : ∀ h s, J h s → K h s)
    (hrecord : ∀ {h s batch z}, J h s → batch.commits = [z] → z ∈ pub → z.resource = other →
      K (⟨s, .commitBatch batch, .ok ()⟩ :: h) { s with
        commits := s.commits.insert z
        checkpoints := s.checkpoints.insert ⟨other, z.id⟩ }) (hs : J h s) (head : String) :
    Comp.wp (Prog.fairly (Told S pub)) (OneByOne rt key) (fun h s _ => K h s)
      (startCheckpoint rt other head) (fun h s _ => K h s) h s := by
  rw [startCheckpoint, Comp.wp_bind]
  refine Comp.wp_mono (publishCheckpoint_published hJ hidle hs head) (fun h s _ => hfail h s) ?_
  rintro _ _ _ ⟨hs, hbatch, hpub, hother⟩
  rw [Comp.wp_bind, Comp.wp_modify]
  exact hK.wp (.request (by exact trivial) _) (hrecord hs hbatch hpub hother)

end Publishing

/-- The ids given up in a scope are those of commits of the scope. -/
def Survey.Scoped (pub : List Commit) (survey : Survey) : Prop :=
  ∀ scope, ∀ id ∈ survey.obsoleteByScope[scope]?.getD [],
    ∃ y ∈ pub, y.id = id ∧ y.resource.scopeId = scope

/-- The survey is about to come to the keys of `rest`. -/
structure Coming (pub : List Commit) (rt : SyncRuntime) (versions : Nat) (key : ResourceKey)
    (acks : List ResourceAck) (m : RuntimeState) (rest : List ResourceKey) (h : List SyncEvent)
    (s : RuntimeState) : Prop where
  held : Held pub rt versions key h s
  unsettled : key ∈ rest → Unsettled rt acks m key h s

theorem coming_lasting {rest : List ResourceKey} :
    Lasting key (Coming pub rt versions key acks m rest) where
  call hs hq := ⟨held_lasting.call hs.held hq,
    fun hkey => unsettled_lasting.call (hs.unsettled hkey) hq⟩
  same hs hst := ⟨held_lasting.same hs.held hst,
    fun hkey => unsettled_lasting.same (hs.unsettled hkey) hst⟩

theorem Survey.Scoped.add {survey : Survey} (hsurvey : survey.Scoped pub)
    (hs : ∀ x ∈ s.commits, x ∈ pub) (checkpoint : String) :
    (survey.add other.scopeId (s.obsolete versions acks other checkpoint)).Scoped pub := by
  intro scope id hid
  rw [Survey.add, Map.get?_insert] at hid
  split at hid
  · next hscope =>
    rw [Option.getD_some, List.mem_append] at hid
    subst hscope
    rcases hid with hid | hid
    · exact hsurvey _ id hid
    · obtain ⟨y, hmem, rfl⟩ := List.mem_map.mp (List.mem_filter.mp hid).1
      obtain ⟨hy, rfl⟩ := RuntimeState.mem_resourceCommits.mp hmem
      exact ⟨y, hs y hy, rfl, rfl⟩
  · exact hsurvey scope id hid

section Survey

variable {rest : List ResourceKey} {survey : Survey}

theorem Coming.next (hs : Coming pub rt versions key acks m (other :: rest) h s) :
    Coming pub rt versions key acks m rest h s :=
  ⟨hs.held, fun hkey => hs.unsettled (List.mem_cons_of_mem _ hkey)⟩

theorem insert_published (hapart : Apart pub key) (hs : ∀ x ∈ s.commits, x ∈ pub) {z : Commit}
    (hz : z ∈ pub) : (∀ x ∈ s.commits.insert z, x ∈ pub) ∧ ∀ x ∈ s.commits, x ∈ s.commits.insert z := by
  refine ⟨fun x hx => ?_, fun x hx => ?_⟩
  · rcases KeyedMap.mem_insert.mp hx with rfl | hx
    · exact hz
    · exact hs x hx.1
  · by_cases hid : x.id = z.id
    · exact KeyedMap.mem_insert.mpr (Or.inl (hapart.ids z hz x (hs x hx) hid))
    · exact KeyedMap.mem_insert.mpr (Or.inr ⟨hx, hid⟩)

/-- A checkpoint of the resource itself. -/
theorem Held.start (hapart : Apart pub key) (hs : Held pub rt versions key h s)
    (hidle : ∀ x, ¬ Pends rt key x h) (hlong : versions < (s.resourceCommits key).length)
    {batch : CommitBatch} {z : Commit} (hbatch : batch.commits = [z]) (hz : z ∈ pub) :
    Held pub rt versions key (⟨s, .commitBatch batch, .ok ()⟩ :: h) { s with
      commits := s.commits.insert z
      checkpoints := s.checkpoints.insert ⟨key, z.id⟩ } := by
  obtain ⟨hpub, hgrow⟩ := insert_published hapart hs.commits hz
  refine ⟨hpub, fun x hx => ?_⟩
  cases hx with
  | published hx hkey =>
    rw [hbatch, List.mem_singleton] at hx
    subst hx
    refine ⟨hz, KeyedMap.mem_insert.mpr (Or.inl rfl), hlong.trans_le ?_⟩
    exact resourceCommits_le fun y hy _ => hgrow y hy
  | still hx => exact absurd hx (hidle x)

/-- A checkpoint of another resource. -/
theorem Coming.start (hapart : Apart pub key)
    (hs : Coming pub rt versions key acks m rest h s) (hother : other ≠ key)
    {batch : CommitBatch} {z : Commit} (hbatch : batch.commits = [z]) (hz : z ∈ pub)
    (hres : z.resource = other) :
    Coming pub rt versions key acks m rest (⟨s, .commitBatch batch, .ok ()⟩ :: h) { s with
      commits := s.commits.insert z
      checkpoints := s.checkpoints.insert ⟨other, z.id⟩ } := by
  obtain ⟨hpub, hgrow⟩ := insert_published hapart hs.held.commits hz
  have hencoded : other.encoded ≠ key.encoded := fun e => hother (hres ▸ hapart.names z hz (hres ▸ e))
  have hpends : ∀ x, Pends rt key x (⟨s, .commitBatch batch, .ok ()⟩ :: h) → Pends rt key x h := by
    intro x hx
    cases hx with
    | published hx hkey =>
      rw [hbatch, List.mem_singleton] at hx
      exact absurd (hres.symm.trans (hx ▸ hkey)) hother
    | still hx => exact hx
  refine ⟨⟨hpub, fun x hx => ?_⟩, fun hkey => ?_⟩
  · have hgrown : Held pub rt versions key h { s with
        commits := s.commits.insert z
        checkpoints := s.checkpoints.insert ⟨other, z.id⟩ } := by
      refine hs.held.grow hpub (fun y hy _ => hgrow y hy) fun id hid => ?_
      exact KeyedMap.mem_insert.mpr (Or.inr ⟨hid, hencoded.symm⟩)
    exact hgrown.pending x (hpends x hx)
  · have hunsettled := hs.unsettled hkey
    refine ⟨fun x hx => hunsettled.waits x (hpends x hx), ?_, hunsettled.retired⟩
    rw [← hunsettled.resource]
    refine resourceCommits_congr fun x hx => ⟨fun hmem => ?_, hgrow x⟩
    rcases KeyedMap.mem_insert.mp hmem with rfl | hmem
    · exact absurd (hres.symm.trans hx) hother
    · exact hmem.1

/-- The turn of one resource: `key` starts over only when none of its checkpoints pends. -/
theorem surveyKey_coming (hapart : Apart pub key)
    (hs : Coming pub rt versions key acks m (other :: rest) h s) (hnew : other ∉ rest)
    (hother : other.encoded = key.encoded → other = key) (hsurvey : survey.Scoped pub) :
    Comp.wp (Prog.fairly (Told S pub)) (OneByOne rt key)
      (fun h s _ => Held pub rt versions key h s) (surveyKey rt versions acks survey other)
      (fun h s survey' => Coming pub rt versions key acks m rest h s ∧ survey'.Scoped pub) h s := by
  -- nothing of the resource pends, or its checkpoint is another's
  have hdrop : (other = key → ∀ x, ¬ Pends rt key x h) →
      Coming pub rt versions key acks m rest h (s.dropCheckpoint other) := by
    intro hidle
    by_cases hkey : other = key
    · exact ⟨.idle hs.held.commits (hidle hkey), fun hin => absurd (hkey ▸ hin) hnew⟩
    · refine coming_lasting.same hs.next ⟨rfl, ?_, rfl⟩
      rw [RuntimeState.dropCheckpoint, KeyedMap.get?_erase, if_neg fun e => hkey (hother e)]
  refine Comp.wp_bind.mpr (Comp.wp_get.mpr ?_)
  split
  · next hshort =>
    refine ⟨hdrop fun hkey x hx => ?_, hsurvey⟩
    have hlong := (hs.held.pending x hx).2.2
    rw [← hkey] at hlong
    omega
  next hlong =>
  split
  · exact ⟨hs.next, hsurvey⟩
  split
  · next hnone =>
    have hidle : other = key → ∀ x, ¬ Pends rt key x h := by
      intro hkey x hx
      obtain ⟨-, hstored, -⟩ := hs.held.pending x hx
      rw [KeyedMap.mem_def, ← hkey, hnone] at hstored
      cases hstored
    rw [Comp.wp_bind]
    by_cases hkey : other = key
    · subst hkey
      have hfree : Lasting other fun h s => Held pub rt versions other h s ∧
          (∀ x, ¬ Pends rt other x h) ∧ versions < (s.resourceCommits other).length :=
        held_lasting.and ⟨fun hs hq => ⟨fun x hx => hs.1 x (hx.of_cons hq).1, hs.2⟩,
          fun hs hst => ⟨hs.1, hst.resourceCommits other ▸ hs.2⟩⟩
      refine Comp.wp_imp (startCheckpoint_lasts hfree (fun _ _ hs _ => hs.2.1) held_lasting
        (fun _ _ hs => hs.1) (fun hs hbatch hz _ => hs.1.start hapart hs.2.1 hs.2.2 hbatch hz)
        ⟨hs.held, hidle rfl, Nat.not_le.mp hlong⟩ _) fun h s _ hs => ?_
      exact ⟨⟨hs, fun hin => absurd hin hnew⟩, hsurvey⟩
    · refine Comp.wp_mono (startCheckpoint_lasts coming_lasting (fun _ _ _ e => absurd e hkey)
        coming_lasting (fun _ _ hs => hs)
        (fun hs hbatch hz hres => hs.start hapart hkey hbatch hz hres) hs.next _)
        (fun _ _ _ hs => hs.held) fun h s _ hs => ?_
      exact ⟨hs, hsurvey⟩
  · next checkpoint hstored =>
    split
    · exact ⟨hs.next, hsurvey⟩
    next hall =>
    rw [Bool.not_eq_true, Bool.not_eq_false'] at hall
    have hidle : other = key → ∀ x, ¬ Pends rt key x h := by
      intro hkey x hx
      subst hkey
      obtain ⟨hpub, hmem, -⟩ := hs.held.pending x hx
      rw [KeyedMap.mem_def, hstored] at hmem
      obtain rfl := Option.some.inj hmem
      have hunsettled := hs.unsettled List.mem_cons_self
      have hwaits := hunsettled.waits x hx
      have hres := hx.resource
      subst hres
      rw [allAcknowledged_of_resourceCommits hapart.kin hs.held.commits hpub hunsettled.resource
        hunsettled.retired hall] at hwaits
      cases hwaits
    dsimp only
    split
    · exact ⟨hdrop hidle, hsurvey⟩
    · exact ⟨hs.next, hsurvey.add hs.held.commits _⟩

end Survey

/-- A compaction ends the wait in its scope, and forgets nothing of the others. -/
theorem compactScope_held (hapart : Apart pub key) (hs : Held pub rt versions key h s)
    (report : V2MaintenanceReport) {entry : String × List String}
    (hentry : ∀ id ∈ entry.2, ∃ y ∈ pub, y.id = id ∧ y.resource.scopeId = entry.1) :
    Comp.wp (Prog.fairly (Told S pub)) (OneByOne rt key)
      (fun h s _ => Held pub rt versions key h s) (compactScope rt report entry)
      (fun h s _ => Held pub rt versions key h s) h s := by
  refine Comp.wp_bind.mpr (Comp.wp_get.mpr ?_)
  rw [Comp.wp_bind]
  refine Comp.wp_imp (held_lasting.wp (.request (by exact trivial) _) hs) fun h s now hs => ?_
  rw [Comp.wp_bind]
  refine Comp.wp_request.mpr ⟨trivial, ?_⟩
  rintro r _ ⟨rfl, -⟩
  refine ⟨fun _ hr => ?_, fun error hr => held_lasting.call hs id⟩
  obtain rfl : r = .ok () := hr
  have hcalled : ∀ compaction, Held pub rt versions key
      (⟨s, .compactCatalog compaction, .ok ()⟩ :: h) s := fun compaction => held_lasting.call hs id
  have hcommits : ∀ x ∈ s.commits.eraseAll entry.2, x ∈ pub :=
    fun x hx => hs.commits x (KeyedMap.mem_eraseAll.mp hx).1
  rw [Comp.wp_bind, Comp.wp_modify]
  by_cases hscope : entry.1 = key.scopeId
  · refine Held.idle hcommits fun x hx => ?_
    exact (hx.of_cons id).2.2 hscope
  · refine (hcalled _).grow hcommits (fun x hx hkey => ?_) fun id hid => ?_
    · refine KeyedMap.mem_eraseAll.mpr ⟨hx, fun hgone => ?_⟩
      obtain ⟨y, hy, hid, hyscope⟩ := hentry _ hgone
      obtain rfl := hapart.ids x (hs.commits x hx) y hy hid
      exact hscope (hyscope.symm.trans (congrArg ResourceKey.scopeId hkey))
    · exact KeyedMap.mem_retain.mpr ⟨hid, decide_eq_true (Ne.symm hscope)⟩

theorem collectPacks_alike (report : V2MaintenanceReport) :
    Comp.Within NoBatch (Alike key) (collectPacks report) := by
  refine .bind .get fun state => .bind (.request (by exact trivial) _) fun locations =>
    .bind (.request (by exact trivial) _) fun packs => ?_
  dsimp only
  split
  · exact .pure _
  · exact .bind (.request (by exact trivial) _) fun _ => .pure _

theorem refreshRemote_held (hapart : Apart pub key) (hs : Held pub rt versions key h s)
    (scopes : List String) :
    Comp.wp (Prog.fairly (Told S pub)) (OneByOne rt key)
      (fun h s _ => Held pub rt versions key h s) (refreshRemote scopes)
      (fun h s _ => Held pub rt versions key h s) h s := by
  refine Comp.wp_bind.mpr (Comp.wp_get.mpr ?_)
  rw [Comp.wp_bind]
  refine Comp.wp_imp (held_lasting.wp (.request (by exact trivial) _) hs) fun h s delta hs => ?_
  rw [Comp.wp_bind, Comp.wp_modify, Comp.wp_bind, Comp.wp_get, Comp.wp_bind]
  have hcounted : Held pub rt versions key h (s.countEvents delta) :=
    held_lasting.same hs ⟨rfl, rfl, rfl⟩
  refine Comp.wp_request.mpr ⟨trivial, ?_⟩
  rintro r _ ⟨rfl, files, hfair⟩
  refine ⟨fun commits hr => ?_, fun error hr => held_lasting.call hcounted id⟩
  obtain rfl : r = .ok commits := hr
  have hpub : ∀ x ∈ (s.countEvents delta).commits.insertAll commits, x ∈ pub := by
    intro x hx
    exact (KeyedMap.mem_of_mem_insertAll hx).elim (hs.commits x) (hfair.1 x)
  have hcalled : ∀ ids, Held pub rt versions key
      (⟨s.countEvents delta, .loadCommits ids, .ok commits⟩ :: h) (s.countEvents delta) :=
    fun ids => held_lasting.call hcounted id
  refine (hcalled _).grow hpub (fun x hx _ => ?_) fun _ hid => hid
  refine (KeyedMap.mem_insertAll ?_ ?_).mpr (Or.inl hx)
  · exact fun y hy x hx hid => hapart.ids y (hfair.1 y hy) x (hs.commits x hx) hid
  · exact fun y hy x hx hid => hapart.ids y (hfair.1 y hy) x (hfair.1 x hx) hid

/-- Whatever a call of `maintain` is answered, it publishes no commit over a checkpoint that
pends. -/
theorem maintain_held (hapart : Apart pub key) (hs : Held pub rt versions key h s)
    (scopes : List String) :
    Comp.wp (Prog.fairly (Told S pub)) (OneByOne rt key)
      (fun h s _ => Held pub rt versions key h s) (maintain rt ⟨scopes, versions⟩)
      (fun h s _ => Held pub rt versions key h s) h s := by
  unfold maintain
  split
  · exact hs
  rw [Comp.wp_bind]
  refine Comp.wp_imp (refreshRemote_held hapart hs []) fun h m _ hm => ?_
  rw [Comp.wp_bind, Comp.wp_get, Comp.wp_bind]
  refine Comp.wp_request.mpr ⟨trivial, ?_⟩
  rintro r _ ⟨rfl, -⟩
  refine ⟨fun acks hr => ?_, fun error hr => held_lasting.call hm id⟩
  obtain rfl : r = .ok acks := hr
  have hinit : Coming pub rt versions key acks m (m.remoteKeys scopes)
      (⟨m, .listAcknowledgements (m.remoteKeys scopes), .ok acks⟩ :: h) m := by
    refine ⟨held_lasting.call hm id, fun _ => ⟨fun x hx => ?_, rfl, rfl⟩⟩
    exact Bool.eq_false_iff.mpr (hx.of_cons id).2.1
  have hnames : ∀ other ∈ m.remoteKeys scopes, other.encoded = key.encoded → other = key := by
    intro other hother
    obtain ⟨-, x, hx, rfl⟩ := mem_remoteKeys.mp hother
    exact hapart.names x (hm.commits x hx)
  rw [Comp.wp_bind]
  refine Comp.wp_imp (Comp.wp_foldlM (fun rest h s survey =>
    (Coming pub rt versions key acks m rest h s ∧ survey.Scoped pub) ∧ rest <:+ m.remoteKeys scopes)
    ?_ ⟨⟨hinit, ?_⟩, List.suffix_rfl⟩) ?_
  · rintro other rest h s survey ⟨⟨hs, hsurvey⟩, hrest⟩
    have hnodup := (remoteKeys_nodup m scopes).sublist hrest.sublist
    have hother := hnames other (hrest.subset List.mem_cons_self)
    refine Comp.wp_imp (surveyKey_coming hapart hs (List.nodup_cons.mp hnodup).1 hother hsurvey)
      fun h s survey hs => ?_
    exact ⟨hs, (List.suffix_cons _ _).trans hrest⟩
  · intro scope id hid
    cases hid
  rintro h s survey ⟨⟨hs, hsurvey⟩, -⟩
  rw [Comp.wp_bind]
  refine Comp.wp_imp (Comp.wp_foldlM (fun rest h s (_ : V2MaintenanceReport) =>
    Held pub rt versions key h s ∧ rest <:+ survey.obsoleteByScope.toList) ?_
    ⟨hs.held, List.suffix_rfl⟩) ?_
  · rintro entry rest h s report ⟨hs, hrest⟩
    have hentry : survey.obsoleteByScope[entry.1]? = some entry.2 :=
      ExtTreeMap.mem_toList_iff_getElem?_eq_some.mp (hrest.subset List.mem_cons_self)
    refine Comp.wp_imp (compactScope_held hapart hs report fun id hid => ?_) fun h s _ hs => ?_
    · exact hsurvey entry.1 id (by rwa [hentry])
    · exact ⟨hs, (List.suffix_cons _ _).trans hrest⟩
  rintro h s report ⟨hs, -⟩
  rw [Comp.wp_bind]
  refine Comp.wp_imp (held_lasting.wp (collectPacks_alike report) hs) fun h s report hs => ?_
  exact held_lasting.wp (.bind (.request (by exact trivial) _) fun _ => .pure _) hs

end Programs

section Worlds

variable [Crates] {S : Setting} {ok : World → Label → Prop} {w₀ w w' : World} {c : String}
variable {versions : Nat} {h : List SyncEvent} {pub : List Commit} {key : ResourceKey}

/-- The client that a step is one of. -/
def Label.client : Label → String
  | .start c _ | .answer c _ | .edit c _ _ | .crash c => c

/-- Since `w₀`, where `c` was at rest, it has run nothing but `maintain` with this retention; `h`
are the calls that it has made, whatever the others did. -/
inductive World.Tended (S : Setting) (c : String) (versions : Nat) (w₀ : World) :
    List SyncEvent → World → Prop
  | rest {s : RuntimeState} {r : Except SyncError Unit} : (w₀.clients c).prog = .done s r →
      Tended S c versions w₀ [] w₀
  | start {h : List SyncEvent} {w w' : World} {scopes : List String} :
      Tended S c versions w₀ h w → w.step S (.start c (.maintain ⟨scopes, versions⟩)) = some w' →
      Tended S c versions w₀ h w'
  | answer {h : List SyncEvent} {w w' : World} {a : Answer} {e : SyncEvent} :
      Tended S c versions w₀ h w → w.step S (.answer c a) = some w' →
      (w'.clients c).trace = e :: (w.clients c).trace → Tended S c versions w₀ (e :: h) w'
  | other {h : List SyncEvent} {w w' : World} {l : Label} :
      Tended S c versions w₀ h w → w.step S l = some w' → l.client ≠ c →
      Tended S c versions w₀ h w'

theorem World.Tended.reachable (ht : World.Tended S c versions w₀ h w) (hw : w₀.Reachable S ok) :
    w.Reachable S fun _ _ => True := by
  induction ht with
  | rest => exact hw.mono fun _ _ _ => trivial
  | start _ hs ih => exact ih.tail ⟨_, trivial, hs⟩
  | answer _ hs _ ih => exact ih.tail ⟨_, trivial, hs⟩
  | other _ hs _ ih => exact ih.tail ⟨_, trivial, hs⟩

/-- A step of another client is none of this one. -/
theorem World.step_client {l : Label} (hs : w.step S l = some w') (hw : w.Reachable S ok)
    (hne : l.client ≠ c) : w'.clients c = w.clients c := by
  have hset : ∀ {v : World} {c' : String} {client : Client}, c' ≠ c →
      (v.setClient c' client).clients c = v.clients c :=
    fun hne => Function.update_of_ne (Ne.symm hne) _ _
  cases l with
  | start c' command =>
    rw [World.start_cases hs]
    exact hset hne
  | answer c' a =>
    obtain ⟨s, q, k, r, v, hp, hr, rfl⟩ := World.answer_cases hs
    obtain ⟨hans, -⟩ := World.respond_fair (hw.relies c').files hw.inv.objects hr
    exact (hset hne).trans (hans.others c (Ne.symm hne))
  | edit c' key file | crash c' =>
    obtain rfl := Option.some.inj hs
    exact hset hne

/-- The calls made so far, and those still to come, go one by one. -/
structure World.Once (S : Setting) (pub : List Commit) (c : String) (versions : Nat)
    (key : ResourceKey) (h : List SyncEvent) (w : World) : Prop where
  past : ∀ e h₀, e :: h₀ <:+ h → OneByOne ⟨c, S.policy c⟩ key h₀ e.memory e.req
  meets : (w.clients c).prog.Meets (Prog.fairly (Told S pub)) (OneByOne ⟨c, S.policy c⟩ key)
    (fun h s _ => Held pub ⟨c, S.policy c⟩ versions key h s) h

theorem World.Tended.once (ht : World.Tended S c versions w₀ h w) (hw : w₀.Reachable S ok)
    (hpub : ∀ x ∈ w.published, x ∈ pub) (hapart : Apart pub key) :
    World.Once S pub c versions key h w := by
  induction ht with
  | @rest s r hp =>
    refine ⟨fun e h₀ he => ?_, ?_⟩
    · simp at he
    · have hmemory := (hw.inv.clients c).memory
      rw [Client.memory, hp] at hmemory
      rw [hp]
      refine .idle (fun x hx => hpub x (hmemory x hx)) fun x hx => ?_
      cases hx
  | @start h v v' scopes hv hs ih =>
    obtain ⟨hpast, hmeets⟩ := ih fun x hx => hpub x (World.published_step hs hx)
    refine ⟨hpast, ?_⟩
    rw [World.start_cases hs, World.setClient_self, Client.start, Client.memory]
    rw [World.step] at hs
    split at hs
    · next s r hp =>
      rw [hp] at hmeets ⊢
      have hrun : Comp.wp (Prog.fairly (Told S pub)) (OneByOne ⟨c, S.policy c⟩ key)
          (fun h s _ => Held pub ⟨c, S.policy c⟩ versions key h s)
          (Command.run ⟨c, S.policy c⟩ (.maintain ⟨scopes, versions⟩))
          (fun h s _ => Held pub ⟨c, S.policy c⟩ versions key h s) h s := by
        rw [Command.run, Comp.wp_bind]
        exact Comp.wp_imp (maintain_held hapart hmeets scopes) fun _ _ _ hs => hs
      refine Prog.Meets.imp hrun (fun _ _ _ hcall => hcall) ?_
      rintro h s (error | a) hs
      · exact hs
      · exact hs
    · cases hs
  | @answer h v v' a e hv hs htrace ih =>
    obtain ⟨hpast, hmeets⟩ := ih fun x hx => hpub x (World.published_step hs hx)
    have hreach := World.Tended.reachable hv hw
    obtain ⟨s, q, k, r, v₁, hp, hr, rfl⟩ := World.answer_cases hs
    obtain ⟨hans, hfair⟩ := World.respond_fair (hreach.relies c).files hreach.inv.objects hr
    rw [World.resume, World.setClient_self, hans.trace] at htrace
    obtain ⟨rfl, -⟩ := List.cons.inj htrace
    rw [hp] at hmeets
    refine ⟨fun e h₀ he => ?_, ?_⟩
    · rcases List.suffix_cons_iff.mp he with heq | he
      · obtain ⟨rfl, rfl⟩ := List.cons.inj heq
        exact hmeets.1
      · exact hpast e h₀ he
    · rw [World.resume, World.setClient_self]
      exact hmeets.2 r _ ⟨rfl, _, hfair.mono hpub fun _ hv => hv⟩
  | @other h v v' l hv hs hne ih =>
    obtain ⟨hpast, hmeets⟩ := ih fun x hx => hpub x (World.published_step hs hx)
    refine ⟨hpast, ?_⟩
    rw [World.step_client hs (World.Tended.reachable hv hw) hne]
    exact hmeets

/-- While a checkpoint of a resource waits for acknowledgements, its client publishes nothing more
for the resource, in any number of calls of `maintain` that compact its scope only when none
waits, if no other resource shares its encoded name. -/
theorem World.checkpoint_published_once (hcol : Collisionless) (hw : w₀.Reachable S ok)
    (ht : World.Tended S c versions w₀ h w)
    (hnames : ∀ x ∈ w.published, x.resource.encoded = key.encoded → x.resource = key)
    (hcompacts : CompactsAfter ⟨c, S.policy c⟩ key h) : PublishesOnce ⟨c, S.policy c⟩ key h := by
  have hreach := ht.reachable hw
  have hids := hreach.ids hcol
  have hkin := (hreach.grounded_again hcol).kin hids
  have honce := ht.once hw (fun _ hx => hx) ⟨hids, hkin, hnames⟩
  intro e h₀ he hissued
  obtain ⟨y, hy⟩ := List.exists_mem_of_ne_nil _ hissued
  obtain ⟨s, batch, rfl, hy, hkey⟩ := mem_issued.mp hy
  refine List.eq_nil_iff_forall_not_mem.mpr fun x hx => ?_
  refine honce.past _ _ he y hy hkey x (pends_of_waiting hx fun e h₁ he₁ => ?_)
  exact hcompacts e h₁ (he₁.trans ((List.suffix_cons _ _).trans he))

end Worlds

section Players

open Sample

variable [Crates] {S : Setting} {c : String} {versions : Nat} {w₀ w w' : World}
variable {h' : List SyncEvent} {ok : World → Label → Prop}

/-- So many calls of `maintain`, one after the other. -/
def tending (S : Setting) (c : String) (versions : Nat) (w₀ : World) :
    Nat → Option (List SyncEvent × World)
  | 0 =>
    match (w₀.clients c).prog with
    | .done _ _ => some ([], w₀)
    | .call .. => none
  | n + 1 => do
    let (h, w) ← tending S c versions w₀ n
    let w ← w.step S (.start c (.maintain ⟨[], versions⟩))
    let w ← answers S (fun _ _ => True) c 40 (9000 + n * 100) w
    return ((w.clients c).trace ++ h, w)

theorem World.Tended.answers {h₀ : List SyncEvent} {calls clock : Nat}
    (ht : World.Tended S c versions w₀ ((w.clients c).trace ++ h₀) w) (hw : w₀.Reachable S ok)
    (ha : Sample.answers S (fun _ _ => True) c calls clock w = some w') :
    World.Tended S c versions w₀ ((w'.clients c).trace ++ h₀) w' := by
  induction calls generalizing clock w with
  | zero =>
    cases ha
    exact ht
  | succ calls ih =>
    rw [Sample.answers] at ha
    split at ha
    · cases ha
      exact ht
    · next q _ _ =>
      obtain ⟨v, hgo, ha⟩ := Option.bind_eq_some_iff.mp ha
      rw [go, if_pos trivial] at hgo
      refine ih ?_ ha
      have hreach := ht.reachable hw
      obtain ⟨s, q, k, r, v₁, hp, hr, rfl⟩ := World.answer_cases hgo
      obtain ⟨hans, -⟩ := World.respond_fair (hreach.relies c).files hreach.inv.objects hr
      have htrace : ((v₁.resume c s q r (k r)).clients c).trace =
          ⟨s, q, r⟩ :: (w.clients c).trace := by
        rw [World.resume, World.setClient_self, hans.trace]
      rw [htrace]
      exact ht.answer hgo htrace

theorem tended_of_tending {calls : Nat} (hw : w₀.Reachable S ok)
    (h : tending S c versions w₀ calls = some (h', w)) : World.Tended S c versions w₀ h' w := by
  induction calls generalizing h' w with
  | zero =>
    rw [tending] at h
    split at h
    · next hp =>
      cases h
      exact .rest hp
    · cases h
  | succ calls ih =>
    obtain ⟨⟨h₀, v⟩, hv, h⟩ := Option.bind_eq_some_iff.mp h
    obtain ⟨v₁, hs, h⟩ := Option.bind_eq_some_iff.mp h
    obtain ⟨v₂, ha, h⟩ := Option.bind_eq_some_iff.mp h
    cases h
    have ht := (ih hv).start hs
    rw [World.start_cases hs] at ha ht
    refine World.Tended.answers (w := v.setClient c _) ?_ hw ha
    rw [World.setClient_self]
    exact ht

/-- Some commit of the resource is published while another one waits. -/
def repeats (rt : SyncRuntime) (key : ResourceKey) : List SyncEvent → Bool
  | [] => false
  | e :: h => !(issued key e).isEmpty && !(waiting rt key h).isEmpty || repeats rt key h

theorem not_publishesOnce_of_repeats {rt : SyncRuntime} {key : ResourceKey}
    (h : repeats rt key h' = true) : ¬ PublishesOnce rt key h' := by
  intro honce
  induction h' with
  | nil => cases h
  | cons e h' ih =>
    rcases Bool.or_eq_true_iff.mp h with hboth | hlater
    · simp only [Bool.and_eq_true, Bool.not_eq_true', List.isEmpty_eq_false_iff] at hboth
      exact hboth.2 (honce e h' List.suffix_rfl hboth.1)
    · exact ih hlater fun e h₀ he => honce e h₀ (he.trans (List.suffix_cons _ _))

theorem exists_tended (S : Setting) (lines : List Line) (c : String) (versions calls : Nat)
    (p : List SyncEvent × World → Bool) (h : ((play S (fun _ _ => True) lines 0 {}).any fun w₀ =>
      (tending S c versions w₀ calls).any p) = true) : ∃ w₀ h w,
    World.Reachable S (fun _ _ => True) w₀ ∧ World.Tended S c versions w₀ h w ∧ p (h, w) = true := by
  obtain ⟨w₀, hw₀, h⟩ := (Option.any_eq_true _ _).mp h
  obtain ⟨⟨h', w⟩, hw, hp⟩ := (Option.any_eq_true _ _).mp h
  exact ⟨w₀, h', w, play_reach hw₀, tended_of_tending (play_reach hw₀) hw, hp⟩

end Players

section Scripts

open Sample

attribute [local instance] spelled

/-- `B` has made a version of `g` over one of `A`. -/
def shared : List Line :=
  upload "A" "g" "1" "t1" ++ sync "B" ++ upload "B" "g" "2" "t2" ++ sync "A"

/-- As long as `B` does not acknowledge it, the checkpoint of `A` stays the only one. -/
theorem World.checkpoint_published_once_waiting : ∃ (w₀ : World) (h : List SyncEvent) (w : World),
    World.Reachable {} (fun _ _ => True) w₀ ∧ World.Tended {} "A" 1 w₀ h w ∧
    waiting ⟨"A", none⟩ (key "g") h ≠ [] ∧ PublishesOnce ⟨"A", none⟩ (key "g") h := by
  obtain ⟨w₀, h, w, hw₀, ht, hp⟩ := exists_tended {} shared "A" 1 3
    (fun (h, w) => waiting ⟨"A", none⟩ (key "g") h ≠ [] ∧ (∀ e ∈ h, ¬ Rollforward.Compacts "s" e) ∧
      ∀ x ∈ w.published, x.resource.encoded = (key "g").encoded → x.resource = key "g")
    (by decide +kernel)
  obtain ⟨hwaits, hcompacts, hnames⟩ := of_decide_eq_true hp
  refine ⟨w₀, h, w, hw₀, ht, hwaits, World.checkpoint_published_once spelled_collisionless hw₀ ht
    hnames fun e h₀ he hcompact => ?_⟩
  exact absurd hcompact (hcompacts e (he.subset List.mem_cons_self))

/-- `A` has also two versions of `f`, which is its own. -/
def twoFiles : List Line := upload "A" "f" "1" "t3" ++ upload "A" "f" "2" "t4" ++ shared

/-- The compaction for `f` makes `A` forget that it waits for `g`, and publish again. -/
theorem World.checkpoint_published_twice : ∃ (w₀ : World) (h : List SyncEvent) (w : World),
    World.Reachable {} (fun _ _ => True) w₀ ∧ World.Tended {} "A" 1 w₀ h w ∧
    (∀ x ∈ w.published, x.resource.encoded = (key "g").encoded → x.resource = key "g") ∧
    ¬ PublishesOnce ⟨"A", none⟩ (key "g") h := by
  obtain ⟨w₀, h, w, hw₀, ht, hp⟩ := exists_tended {} twoFiles "A" 1 3
    (fun (h, w) => repeats ⟨"A", none⟩ (key "g") h = true ∧
      ∀ x ∈ w.published, x.resource.encoded = (key "g").encoded → x.resource = key "g")
    (by decide +kernel)
  obtain ⟨hrepeats, hnames⟩ := of_decide_eq_true hp
  exact ⟨w₀, h, w, hw₀, ht, hnames, not_publishesOnce_of_repeats hrepeats⟩

end Scripts

end Rollforward
