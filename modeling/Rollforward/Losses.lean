import Rollforward.Safekeeping

/-! Every command leaves the baselines of a binary resource warranted, and `reconcile` overwrites
or deletes nothing of it that is not published, whatever is edited in between. -/

namespace Rollforward

open Std Lib

section Publishing

variable [Crates] {S : Setting} {key : ResourceKey} {scene : Scene} {s : RuntimeState}
variable {G : Scene → Req → Prop} {change : ResourceChange}

/-- A commit of the resource with the change is out. -/
def Scene.HasCommit (scene : Scene) (resource : ResourceKey) (change : ResourceChange)
    (x : Commit) : Prop :=
  x ∈ scene.published ∧ x.resource = resource ∧ x.change = change

theorem Scene.HasCommit.holds {x : Commit} {data : Bytes}
    (h : scene.HasCommit key (binarySnapshot data) x) : scene.Holds key (blake3 data) :=
  ⟨x, h.1, h.2.1, data.length, by rw [h.2.2]; rfl⟩

/-- Nothing but the resource's own baseline and commits bears on the resource. -/
theorem Leaves.minds {x : Sync α} (hx : Leaves x) (hG : ∀ scene q, G scene q)
    (hj : scene.Warranted key s) :
    Minds S (fun scene t => scene.Warranted key t) G x (fun _ _ _ => True) scene s := by
  refine (Comp.Within.minds hx warranted_lasts (fun scene q _ => hG scene q) ?_ hj).imp
    fun _ _ _ _ _ => trivial
  exact fun _ _ _ hj hs => hj.of_same (by rw [hs.1])

theorem nextCounter_minds (hj : scene.Vouches key s) :
    Minds S (fun scene t => scene.Vouches key t) G nextCounter (fun _ _ _ => True) scene s :=
  ⟨hj.of_same rfl rfl, trivial⟩

variable (hG : ∀ scene q, G scene q)
include hG

theorem Aside.minds {x : Sync α} (hx : Aside x) (hj : scene.Vouches key s) :
    Minds S (fun scene t => scene.Vouches key t) G x (fun _ t _ => s = t) scene s :=
  Comp.Within.minds hx vouches_withstands.lasts (fun scene q _ => hG scene q)
    (fun _ _ _ hj he => he ▸ hj) hj

theorem publishCommit_minds (hlawful : scene.Lawful S) (hj : scene.Vouches key s)
    (rt : SyncRuntime) (resource : ResourceKey) (parents : List String) (counter : Nat)
    (change : ResourceChange) (batch : CommitBatch) :
    Minds S (fun scene t => scene.Vouches key t) G
      (publishCommit rt resource parents counter change batch)
      (fun later _ x => later.HasCommit resource change x) scene s := by
  have hJ : Withstands key fun scene t => scene.Vouches key t := vouches_withstands
  rw [publishCommit]
  refine Minds.bind hlawful (Q := fun _ _ _ => True)
    (Minds.request hJ.lasts hj (hG _ _) fun _ _ _ _ _ => trivial) ?_
  intro scene₁ s₁ timestamp h₁ hj₁ _
  refine Minds.bind h₁.lawful (Q := fun later _ _ =>
    Commit.create resource parents rt.clientId counter timestamp change ∈ later.published)
    (Minds.request hJ.lasts hj₁ (hG _ _) ?_) ?_
  · intro r later _ he hr
    obtain rfl : r = .ok () := hr
    exact he.fair _ List.mem_cons_self
  · intro scene₂ s₂ _ h₂ hj₂ hpublished
    exact ⟨hj₂.insert h₂.lawful hpublished, hpublished, rfl, rfl⟩

theorem publishDelete_minds (hlawful : scene.Lawful S) (hj : scene.Vouches key s)
    (rt : SyncRuntime) (resource : ResourceKey) (parents : List String) :
    Minds S (fun scene t => scene.Vouches key t) G (publishDelete rt resource parents)
      (fun later _ x => later.HasCommit resource .delete x) scene s := by
  refine Minds.bind hlawful (nextCounter_minds hj) ?_
  exact fun later t counter h' hj' _ =>
    publishCommit_minds hG h'.lawful hj' rt resource parents counter .delete {}

theorem publishBytes_minds (hlawful : scene.Lawful S) (hj : scene.Vouches key s)
    (rt : SyncRuntime) (resource : ResourceKey) (kind : ResourceKind) (data : Bytes)
    (parents : List String) :
    Minds S (fun scene t => scene.Vouches key t) G (publishBytes rt resource kind data parents)
      (fun later _ x => kind = .binary → later.HasCommit resource (binarySnapshot data) x)
      scene s := by
  have hJ : Withstands key fun scene t => scene.Vouches key t := vouches_withstands
  refine Minds.bind hlawful (nextCounter_minds hj) ?_
  intro scene₁ s₁ counter h₁ hj₁ _
  refine Minds.bind h₁.lawful (Q := fun _ _ prepared =>
    kind = .binary → prepared.1 = binarySnapshot data) ?_ ?_
  · cases kind with
    | binary =>
      exact Minds.bind h₁.lawful (Q := fun _ _ _ => True)
        (Minds.request hJ.lasts hj₁ (hG _ _) fun _ _ _ _ _ => trivial)
        fun _ _ _ _ hj _ => ⟨hj, fun _ => rfl⟩
    | text =>
      have hreads := prepareChange_reads resource .text data
      exact (hreads.minds hJ.lasts (fun scene q _ => hG scene q) hj₁).imp
        fun _ _ _ _ _ htext => by cases htext
  · intro scene₂ s₂ prepared h₂ hj₂ hprepared
    refine (publishCommit_minds hG h₂.lawful hj₂ rt resource parents counter prepared.1
      prepared.2).imp fun later _ x _ hx hkind => ?_
    rwa [hprepared hkind] at hx

theorem commitDelete_minds (hlawful : scene.Lawful S) (hj : scene.Vouches key s)
    (rt : SyncRuntime) (resource : ResourceKey) (current : ReplicaState) (parents : List String)
    (refusal : Refusal) :
    Minds S (fun scene t => scene.Vouches key t) G
      (commitDelete rt resource current parents refusal) (fun _ _ _ => True) scene s := by
  refine Minds.bind hlawful ((removeLocal_aside resource current refusal).minds hG hj) ?_
  intro scene₁ s₁ _ h₁ hj₁ _
  refine Minds.bind h₁.lawful (publishDelete_minds hG h₁.lawful hj₁ rt resource parents) ?_
  exact fun _ _ x _ hj _ => ⟨hj.deleted resource [x.id], trivial⟩

theorem commitContent_minds (hown : key.Own []) (hlawful : scene.Lawful S)
    (hj : scene.Vouches key s) (rt : SyncRuntime) (resource : ResourceKey) (head : String)
    (hchange : resource = key → change.isText = false) (current : ReplicaState)
    (parents : List String) (refusal : Refusal) :
    Minds S (fun scene t => scene.Vouches key t) G
      (commitContent rt resource head change current parents refusal) (fun _ _ _ => True)
      scene s := by
  have hJ : Withstands key fun scene t => scene.Vouches key t := vouches_withstands
  refine Minds.bind hlawful ((contentForRemote_reads resource (some head)).aside.minds hG hj) ?_
  intro scene₁ s₁ data h₁ hj₁ _
  refine Minds.bind h₁.lawful (applyMutation_minds hJ.lasts hj₁ (hG _ _) h₁.lawful) ?_
  rintro scene₂ _ result h₂ hj₂ ⟨rfl, versionToken, htoken, hmade⟩
  refine Minds.bind h₂.lawful (publishBytes_minds hG h₂.lawful hj₂ rt resource _ data parents) ?_
  intro scene₃ s₃ x h₃ hj₃ hx
  refine ⟨hj₃.present hown ?_, trivial⟩
  rintro rfl
  rw [hchange rfl] at hx
  rw [htoken]
  exact ⟨(h₂.lawful.tells hmade).lasts h₃.since, (hx rfl).holds⟩

theorem commitVersion_minds (hown : key.Own []) (hlawful : scene.Lawful S)
    (hj : scene.Vouches key s) (rt : SyncRuntime) (resource : ResourceKey) {selected : Commit}
    (hselected : resource = key → selected.change.isText = false) (current : ReplicaState)
    (parents : List String) (delete write : Refusal) :
    Minds S (fun scene t => scene.Vouches key t) G
      (commitVersion rt resource selected current parents delete write) (fun _ _ _ => True)
      scene s := by
  unfold commitVersion
  split
  · exact commitDelete_minds hG hlawful hj rt resource current parents delete
  · exact commitContent_minds hG hown hlawful hj rt resource _ hselected current parents write

end Publishing

section Choices

variable [Crates] {S : Setting} {key : ResourceKey} {scene : Scene} {s : RuntimeState}
variable {G : Scene → Req → Prop}

/-- A version of the resource is no text. -/
theorem Scene.Vouches.isText (h : scene.Vouches key s) (hlawful : scene.Lawful S)
    (hkind : S.kindOf key = .binary) {x : Commit} (hx : x ∈ s.commits) (hres : x.resource = key) :
    x.change.isText = false := by
  refine Bool.eq_false_iff.mpr fun htext => ?_
  have hlisted := hlawful.kinds x (h.held x hx hres) htext
  rw [hres, hkind] at hlisted
  cases hlisted

variable (hG : ∀ scene q, G scene q)
include hG

theorem readOne_minds (hlawful : scene.Lawful S) (hj : scene.Vouches key s)
    (resource : ResourceKey) :
    Minds S (fun scene t => scene.Vouches key t) G (readOne resource) (fun later t content =>
      t = s ∧ content.kind = S.kindOf resource ∧
        later.Tells resource (blake3 content.data) content.versionToken) scene s := by
  have hJ : Withstands key fun scene t => scene.Vouches key t := vouches_withstands
  refine Minds.bind hlawful (Q := fun later t contents => t = s ∧
    contents = S.read later.files [resource]) (Minds.request hJ.lasts hj (hG _ _) ?_) ?_
  · intro r later contents he hr
    obtain rfl : r = .ok contents := hr
    exact ⟨rfl, he.shown⟩
  rintro later t contents hfollows hj' ⟨rfl, hcontents⟩
  cases contents with
  | nil => exact hj'
  | cons content rest =>
    have hmem : content ∈ S.read later.files [resource] := hcontents ▸ List.mem_cons_self
    obtain ⟨hkind, hfile⟩ := Setting.mem_read hmem
    obtain rfl : content.key = resource := by
      obtain ⟨key', hkey', hread⟩ := List.mem_filterMap.mp hmem
      obtain ⟨file, -, hdata⟩ := Option.bind_eq_some_iff.mp hread
      obtain ⟨bytes, -, rfl⟩ := Option.map_eq_some_iff.mp hdata
      exact List.mem_singleton.mp hkey'
    exact ⟨hj', rfl, hkind, hfollows.lawful.tells (hfollows.lawful.files _ _ hfile)⟩

theorem currentState_minds (hlawful : scene.Lawful S) (hj : scene.Warranted key s)
    (resource : ResourceKey) :
    Minds S (fun scene t => scene.Warranted key t) G (currentState resource)
      (fun later t _ => t = s ∧ later.Vouches key s) scene s := by
  refine Minds.bind hlawful (localInventory_minds warranted_lasts (fun _ _ h => h)
    (fun scene q _ => hG scene q) hlawful hj [resource.scopeId]) ?_
  rintro later _ locals - hj' ⟨rfl, hvouches, -⟩
  exact ⟨hj', rfl, hvouches⟩

theorem choosePrimary_minds (hkind : S.kindOf key = .binary) (hown : key.Own [])
    (hlawful : scene.Lawful S) (hj : scene.Vouches key s) (rt : SyncRuntime)
    {record : ConflictRecord} (current : ReplicaState)
    (hheads : s.heads record.resource = record.remoteHeads) (heads : List String)
    (primary : VersionChoice) :
    Minds S (fun scene t => scene.Vouches key t) G
      (choosePrimary rt record current heads primary) (fun _ _ _ => True) scene s := by
  cases primary with
  | ours =>
    refine Minds.bind hlawful (readOne_minds hG hlawful hj record.resource) ?_
    rintro scene₁ _ content h₁ hj₁ ⟨rfl, hcontent, htells⟩
    refine Minds.bind h₁.lawful (publishBytes_minds hG h₁.lawful hj₁ rt record.resource
      content.kind content.data heads) ?_
    intro scene₂ s₂ x h₂ hj₂ hx
    refine ⟨hj₂.present hown ?_, trivial⟩
    rintro rfl
    exact ⟨htells.lasts h₂.since, (hx (hcontent.trans hkind)).holds⟩
  | delete => exact commitDelete_minds hG hlawful hj rt record.resource current heads resolveDelete
  | remote commitId =>
    refine Comp.wp_ite.mpr ⟨fun _ => hj, fun hhead => Comp.wp_bind.mpr (Comp.wp_get.mpr ?_)⟩
    cases hselected : s.commits.get? commitId with
    | none => exact hj
    | some selected =>
      refine commitVersion_minds hG hown hlawful hj rt record.resource ?_ current heads _ _
      intro hres
      rw [not_not, ← hheads, RuntimeState.mem_heads_iff_isHead] at hhead
      obtain ⟨x, hx, hresource, hid⟩ := hhead
      have hmem := KeyedMap.mem_of_get? hselected
      obtain rfl : x = selected :=
        KeyedMap.eq_of_mem hx.1 hmem (hid.trans (KeyedMap.key_of_get? hselected).symm)
      exact hj.isText hlawful hkind hmem (hresource.trans hres)

variable (hcol : Collisionless) (hcdc : FastcdcTiles)
variable (hkind : S.kindOf key = .binary) (hown : key.Own [])
include hcol hcdc hkind hown

theorem resolve_minds (hlawful : scene.Lawful S) (hj : scene.Warranted key s) (rt : SyncRuntime)
    (request : ResolveConflictRequest) :
    Minds S (fun scene t => scene.Warranted key t) G (Rollforward.resolve rt request)
      (fun _ _ _ => True) scene s := by
  rw [Rollforward.resolve]
  refine Comp.wp_bind.mpr (Comp.wp_get.mpr ?_)
  cases hrecord : s.conflicts.get? request.conflictId with
  | none => exact hj
  | some record =>
    refine Comp.wp_ite.mpr ⟨fun _ => (staleConflict_leaves _).minds hG hj, fun hheads => ?_⟩
    refine Minds.bind hlawful (currentState_minds hG hlawful hj record.resource) ?_
    rintro scene₁ t current h₁ hj₁ ⟨rfl, hvouches⟩
    refine Comp.wp_ite.mpr ⟨fun _ => (staleConflict_leaves _).minds hG hj₁, fun _ => ?_⟩
    -- the copies and the choice, while the commits are known to be published
    have hchosen : Minds S (fun scene t => scene.Vouches key t) G (do
        request.preserved.foldlM (fun _ preserved => preserveCopy record.resource preserved) ()
        choosePrimary rt record current (t.heads record.resource) request.primary)
        (fun _ _ _ => True) scene₁ t := by
      have hcopies : Aside (request.preserved.foldlM
          (fun _ preserved => preserveCopy record.resource preserved) ()) :=
        .foldlM (fun _ preserved => preserveCopy_aside record.resource preserved) _ _
      refine Minds.bind h₁.lawful (hcopies.minds hG hvouches) ?_
      rintro scene₂ _ _ h₂ hj₂ rfl
      exact choosePrimary_minds hG hkind hown h₂.lawful hj₂ rt current (not_not.mp hheads) _ _
    have hchosen' := hchosen.weaken (J := fun scene t => scene.Warranted key t)
      fun _ _ h => h.warranted
    rw [← bind_assoc]
    refine Minds.bind h₁.lawful hchosen' ?_
    intro scene₃ s₃ _ h₃ hj₃ _
    have hclosed : scene₃.Warranted key
        { s₃ with conflicts := s₃.conflicts.erase request.conflictId } := hj₃.of_same rfl
    refine Comp.wp_bind.mpr (Comp.wp_modify.mpr ?_)
    refine Minds.bind h₃.lawful (Minds.save warranted_lasts (hG _ _) hclosed) ?_
    exact fun scene₄ s₄ _ h₄ hj₄ _ => reconcile_minds hcol hcdc hkind hown (fun scene q _ => hG scene q)
      rt _ h₄.lawful hj₄

theorem rollback_minds (hlawful : scene.Lawful S) (hj : scene.Warranted key s) (rt : SyncRuntime)
    (request : RollbackRequest) :
    Minds S (fun scene t => scene.Warranted key t) G (Rollforward.rollback rt request)
      (fun _ _ _ => True) scene s := by
  rw [Rollforward.rollback]
  refine Comp.wp_bind.mpr (Comp.wp_get.mpr ?_)
  cases hselected : (s.commits.get? request.commitId).filter
      fun commit => commit.resource = request.resource with
  | none => exact hj
  | some selected =>
    obtain ⟨hget, hres⟩ := Option.filter_eq_some_iff.mp hselected
    refine Minds.bind hlawful (currentState_minds hG hlawful hj request.resource) ?_
    rintro scene₁ t current h₁ - ⟨rfl, hvouches⟩
    have hplain : request.resource = key → selected.change.isText = false := fun hkey =>
      hvouches.isText h₁.lawful hkind (KeyedMap.mem_of_get? hget)
        ((of_decide_eq_true hres).trans hkey)
    have hversion := commitVersion_minds hG hown h₁.lawful hvouches rt request.resource hplain
      current (t.heads request.resource) (rollbackRefusal "rollback delete precondition failed")
      (rollbackRefusal "rollback write precondition failed")
    refine Minds.bind h₁.lawful (hversion.weaken fun _ _ h => h.warranted) ?_
    intro scene₂ s₂ _ h₂ hj₂ _
    refine Minds.bind h₂.lawful (Minds.save warranted_lasts (hG _ _) hj₂) ?_
    exact fun scene₃ s₃ _ h₃ hj₃ _ => reconcile_minds hcol hcdc hkind hown
      (fun scene q _ => hG scene q) rt _ h₃.lawful hj₃

end Choices

section Commands

variable [Crates] {S : Setting} {key : ResourceKey} {scene : Scene} {s : RuntimeState}
variable {w w' : World} {c : String} {ok : World → Label → Prop}

/-- What a command calls for: a round loses nothing, where a choice is made by hand. -/
def Command.Heeds (key : ResourceKey) (scene : Scene) (q : Req) : Command → Prop
  | .reconcile _ => scene.Safe key q
  | _ => True

theorem Command.Heeds.lasts {command : Command} {later : Scene} {q : Req}
    (h : command.Heeds key scene q) (hl : scene.Until later) : command.Heeds key later q := by
  cases command with
  | reconcile request => exact Scene.Safe.lasts h hl
  | _ => trivial

theorem Command.run_minds (hcol : Collisionless) (hcdc : FastcdcTiles)
    (hkind : S.kindOf key = .binary) (hown : key.Own []) (command : Command) (rt : SyncRuntime)
    (hlawful : scene.Lawful S) (hj : scene.Warranted key s) :
    Minds S (fun scene t => scene.Warranted key t) (fun scene q => command.Heeds key scene q)
      (command.run rt) (fun _ _ _ => True) scene s := by
  have hend : ∀ {G : Scene → Req → Prop} {α : Type} {x : Sync α},
      Minds S (fun scene t => scene.Warranted key t) G x (fun _ _ _ => True) scene s →
      Minds S (fun scene t => scene.Warranted key t) G (do let _ ← x; return ())
        (fun _ _ _ => True) scene s :=
    fun hx => hx.bind hlawful fun _ _ _ _ hj _ => ⟨hj, trivial⟩
  cases command with
  | reconcile request =>
    exact hend (reconcile_minds hcol hcdc hkind hown (fun _ _ hq => hq) rt request hlawful hj)
  | resolve request =>
    exact hend (resolve_minds (fun _ _ => trivial) hcol hcdc hkind hown hlawful hj rt request)
  | rollback request =>
    exact hend (rollback_minds (fun _ _ => trivial) hcol hcdc hkind hown hlawful hj rt request)
  | maintain request =>
    have hmaintain : Leaves (Rollforward.maintain rt request) :=
      anyCall (maintain_aloof sameTexts_aloof rt request)
    exact hend (hmaintain.minds (fun _ _ => trivial) hj)
  | retireClient clientId =>
    have hretire : Leaves (Rollforward.retireClient clientId) :=
      .bind (.modify fun _ => ⟨rfl, rfl⟩) fun _ => .request trivial _
    exact hretire.minds (fun _ _ => trivial) hj

theorem warranted_discipline (hcol : Collisionless) (hcdc : FastcdcTiles)
    (hkind : S.kindOf key = .binary) (hown : key.Own []) :
    Discipline S (fun scene s => scene.Warranted key s)
      (fun command scene s q => scene.Warranted key s ∧ command.Heeds key scene q) where
  empty := Scene.Warranted.empty
  stable hl hj := hj.lasts hl
  calls hl h := ⟨h.1.lasts hl, h.2.lasts hl⟩
  saves h := h.1
  runs c command scene s hlawful hj := by
    refine Prog.Meets.imp (command.run_minds hcol hcdc hkind hown ⟨c, S.policy c⟩ hlawful hj)
      (fun _ _ _ hc => hc) ?_
    rintro _ _ (e | a) hr
    · exact hr
    · exact hr.1

omit [Crates] in
theorem Files.mutate_expects {files : Files} {versionToken : String} {tombstone : Bool}
    {mutation : LocalMutation} {file : File} {made : Option File}
    (hfile : files[mutation.key]? = some file)
    (hmade : files.mutate versionToken tombstone mutation = some made) :
    mutation.Expects file.versionToken := by
  have hadmits : ∀ {precondition}, files.admits mutation.key precondition = true →
      precondition = .version file.versionToken := by
    intro precondition h
    cases precondition with
    | missing => simp [Files.admits, hfile] at h
    | version token => simpa [Files.admits, hfile, eq_comm] using h
  cases mutation with
  | writePresent | applyDelete =>
    rw [Files.mutate] at hmade
    split at hmade
    · next h => exact hadmits h
    · cases hmade
  | createCopy =>
    rw [Files.mutate] at hmade
    split at hmade
    · next h => cases hadmits h
    · cases hmade

/-- A file is replaced or removed by a mutation that knows its token. -/
theorem Client.applyMutations_expects {client : Client} {versionToken : String} {tombstone : Bool}
    {mutations : List LocalMutation} {file : File} (hfile : client.files[key]? = some file)
    (hgone : (client.applyMutations versionToken tombstone mutations).2.files[key]? ≠ some file) :
    ∃ mutation ∈ mutations, mutation.key = key ∧ mutation.Expects file.versionToken := by
  induction mutations generalizing client with
  | nil => exact absurd hfile hgone
  | cons mutation mutations ih =>
    have hrest : ∀ {client : Client}, client.files[key]? = some file →
        (client.applyMutations versionToken tombstone mutations).2.files[key]? ≠ some file →
        ∃ m ∈ mutation :: mutations, m.key = key ∧ m.Expects file.versionToken := by
      intro client hfile hgone
      obtain ⟨m, hm, hexpects⟩ := ih hfile hgone
      exact ⟨m, List.mem_cons_of_mem _ hm, hexpects⟩
    rw [Client.applyMutations] at hgone
    split at hgone
    · exact hrest hfile hgone
    · next made hmade =>
      by_cases hkey : mutation.key = key
      · subst hkey
        exact ⟨mutation, List.mem_cons_self, rfl, Files.mutate_expects hfile hmade⟩
      · refine hrest ?_ hgone
        rw [Client.setFile, Files.get?_set, if_neg hkey]
        exact hfile

/-- The one call that touches files. -/
theorem World.respond_touches {s : RuntimeState} {q : Req} {a : Answer} {r : q.Resp} {w₁ : World}
    {file : File} (hr : w.respond S c s q a = some (r, w₁))
    (hfile : (w.clients c).files[key]? = some file)
    (hgone : (w₁.clients c).files[key]? ≠ some file) :
    ∃ mutations, q = .applyMutations mutations ∧
      ∃ mutation ∈ mutations, mutation.key = key ∧ mutation.Expects file.versionToken := by
  by_cases hq : NoWrite q
  · have hsame := (World.respond_serves hr).files hq
    exact absurd ((congrArg (·[key]?) hsame).trans hfile) hgone
  · cases q with
    | applyMutations mutations =>
      refine ⟨mutations, rfl, ?_⟩
      cases a with
      | token versionToken tombstone =>
        cases hr
        rw [World.setClient_self] at hgone
        exact Client.applyMutations_expects hfile hgone
      | refuse error =>
        cases hr
        exact absurd hfile hgone
      | fail error =>
        cases hr
        exact absurd hfile hgone
      | _ => cases hr
    | _ => exact absurd trivial hq

/-- Where the tokens of a host tell versions apart, a `reconcile` replaces or removes no content of
a binary resource that is not published, whoever moves in between and whatever is edited. -/
theorem World.reconcile_overwrites_published (hcol : Collisionless) (hcdc : FastcdcTiles)
    (hw : w.Reachable S ok) {request : SyncRequest}
    (hcommand : (w.clients c).command = some (.reconcile request)) {a : Answer}
    (hstep : w.step S (.answer c a) = some w') (hapart : TellsApart (w.clients c).versions)
    (hkind : S.kindOf key = .binary) (hown : key.Own []) {data : Bytes} {versionToken : String}
    (hfile : (w.clients c).files[key]? = some ⟨some data, versionToken⟩)
    (hgone : (w'.clients c).files[key]? ≠ some ⟨some data, versionToken⟩) :
    ∃ x ∈ w.published, x.resource = key ∧ x.change = binarySnapshot data := by
  obtain ⟨s, q, k, r, w₁, hp, hr, rfl⟩ := World.answer_cases hstep
  rw [World.resume, World.setClient_self] at hgone
  obtain ⟨mutations, rfl, mutation, hm, hkey, hexpects⟩ := World.respond_touches hr hfile hgone
  have hupholds := hw.upholds (warranted_discipline hcol hcdc hkind hown) hapart
  have hrest := hupholds.rest _ hcommand
  rw [hp] at hrest
  have hsafe : (w.scene c).Safe key (.applyMutations mutations) := hrest.1.2
  obtain ⟨-, hholds⟩ := hsafe mutation hm hkey versionToken hexpects
  obtain ⟨x, hx, hres, size, hsnapshot⟩ := hholds data hfile
  obtain ⟨file, hchange⟩ := hw.snapshots x hx (by rw [hsnapshot]; rfl)
  refine ⟨x, hx, hres, ?_⟩
  rw [hchange] at hsnapshot ⊢
  obtain ⟨hdigest, -⟩ := Prod.mk.inj (Option.some.inj hsnapshot)
  rw [hcol.digest hdigest]

/-- What the baseline of a client says of its file is true whenever it starts a command. -/
theorem World.Reachable.vouched (hcol : Collisionless) (hcdc : FastcdcTiles)
    (hw : w.Reachable S ok) (hapart : TellsApart (w.clients c).versions)
    (hkind : S.kindOf key = .binary) (hown : key.Own []) {command : Command}
    (hstart : w.step S (.start c command) = some w') :
    (w.clients c).files.Vouched (w.memory c) key := by
  have hupholds := hw.upholds (warranted_discipline hcol hcdc hkind hown) hapart
  rw [World.step] at hstart
  split at hstart
  · next s r hidle =>
    have hwarranted := hupholds.memory (hw.relies c).resumes hidle
    intro data versionToken hfile contentId hcached
    rw [World.memory, Client.memory, hidle] at hcached
    exact ((hwarranted.tells hcached).content data hfile).symm
  · cases hstart

end Commands

section Scripts

open Sample

attribute [local instance] spelled

/-- `B` is about to write the second version of a file over the first. -/
theorem World.reconcile_overwrites_published_download : ∃ w w' request,
    World.Reachable {} (fun _ _ => True) w ∧
      (w.clients "B").command = some (.reconcile request) ∧
      w.step {} (.answer "B" (.token "t3" false)) = some w' ∧
      (w'.clients "B").files[key "a"]? = text "2" "t3" ∧
      ∃ x ∈ w.published, x.resource = key "a" ∧ x.change = binarySnapshot (textBytes "1") := by
  obtain ⟨w, hw, hp⟩ := exists_reachable {} (fun _ _ => True)
    (upload "A" "a" "1" "t1" ++ sync "B" ++ upload "A" "a" "2" "t2" ++
      [.step (.start "B" (.reconcile ⟨["s"]⟩)), .answers "B" 9])
    (fun w => (reconciling w "B").isSome ∧ TellsApart (w.clients "B").versions ∧
      ((w.clients "B").files[key "a"]?.bind File.data) = some (textBytes "1") ∧
      ((w.step {} (.answer "B" (.token "t3" false))).map fun w' =>
        (w'.clients "B").files[key "a"]?) = some (text "2" "t3")) (by decide +kernel)
  obtain ⟨hsome, hapart, hdata, hstep⟩ := of_decide_eq_true hp
  obtain ⟨request, hrequest⟩ := Option.isSome_iff_exists.mp hsome
  obtain ⟨w', hw', hafter⟩ := Option.map_eq_some_iff.mp hstep
  obtain ⟨⟨data, versionToken⟩, hfile, hcontent⟩ := Option.bind_eq_some_iff.mp hdata
  obtain rfl : data = some (textBytes "1") := hcontent
  refine ⟨w, w', request, hw, command_of_reconciling hrequest, hw', hafter, ?_⟩
  refine World.reconcile_overwrites_published spelled_collisionless spelled_fastcdcTiles hw
    (command_of_reconciling hrequest) hw' hapart rfl ?_ hfile ?_
  · exact ResourceKey.own_of_plain (by decide) (by decide)
  · rw [hafter]
    intro h
    have hsame : textBytes "2" = textBytes "1" :=
      Option.some.inj (File.mk.inj (Option.some.inj h)).1
    exact absurd hsame (by decide +kernel)

end Scripts

end Rollforward
