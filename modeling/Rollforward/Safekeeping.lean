import Rollforward.Warrants

/-! What `reconcile` overwrites or deletes of a binary resource is published, in every run in
which hosts give no token twice. -/

namespace Rollforward

open Std Lib

section Operations

variable [Crates] {S : Setting} {key : ResourceKey} {scene : Scene} {s₀ s t : RuntimeState}
variable {locals : List LocalResource} {G : Scene → Req → Prop}

/-- What the operation on a resource can count on when its turn comes, `s₀` being the memory
that the plan was made from. -/
structure Scene.Awaits (scene : Scene) (key : ResourceKey) (locals : List LocalResource)
    (s₀ t : RuntimeState) : Prop where
  vouches : scene.Vouches key t
  reports : scene.Reports key (localStateOf locals key)
  base : ∀ contentId version heads,
    s₀.baselineFor key = some (.present contentId version heads) → scene.Holds key contentId
  commits : ∀ x : Commit, x.resource = key → (x ∈ t.commits ↔ x ∈ s₀.commits)

theorem Scene.Awaits.lasts : Lasts fun scene t => scene.Awaits key locals s₀ t :=
  fun _ _ _ h hl => ⟨h.vouches.lasts hl, h.reports.lasts hl,
    fun contentId version heads hbase => (h.base contentId version heads hbase).lasts hl, h.commits⟩

theorem Scene.Awaits.revise (h : scene.Awaits key locals s₀ s) (hv : scene.Vouches key t)
    (hcommits : t.commits = s.commits) : scene.Awaits key locals s₀ t :=
  ⟨hv, h.reports, h.base, by rw [hcommits]; exact h.commits⟩

theorem Scene.Awaits.spared (h : scene.Awaits key locals s₀ s) (hs : Spares key s t) :
    scene.Awaits key locals s₀ t where
  vouches := h.vouches.spared hs
  reports := h.reports
  base := h.base
  commits x hkey := ((hs h.vouches.created).1.commits x hkey).trans (h.commits x hkey)

/-- A head of what the planner was shown as present. -/
theorem Scene.Awaits.head (hlawful : scene.Lawful S) (h : scene.Awaits key locals s₀ t)
    (hkind : S.kindOf key = .binary) {contentId : String} {size : Nat} {heads : List String}
    (hremote : s₀.remoteState key = .ok (.present contentId size heads)) :
    ∃ x, t.Selects key none x ∧ x ∈ scene.published ∧ x.resource = key ∧
      ∃ size hashes, x.change = .binarySnapshot contentId size hashes := by
  have hkeeps : KeepsCommits key s₀ t := ⟨h.vouches.created, h.commits⟩
  have hsome : s₀.heads key ≠ [] := by
    intro hnil
    rw [RuntimeState.remoteState, if_pos hnil] at hremote
    cases hremote
  obtain ⟨head, hhead⟩ := Option.isSome_iff_exists.mp (List.isSome_head?.mpr hsome)
  obtain ⟨x, hx, hres, rfl⟩ := RuntimeState.mem_heads_iff_isHead.mp (List.mem_of_head? hhead)
  have hxt : x ∈ t.commits := (h.commits x hres).mpr hx.1
  have hpub : x ∈ scene.published := h.vouches.held x hxt hres
  have hbinary : x.change.isText = false := by
    cases htext : x.change.isText with
    | false => rfl
    | true =>
      have hlisted := hlawful.kinds x hpub htext
      rw [hres, hkind] at hlisted
      cases hlisted
  refine ⟨x, ?_, hpub, hres, (RuntimeState.shows_of_remoteState hremote).snapshot_of_head hx hres
    hbinary⟩
  rw [RuntimeState.Selects, Option.none_or, hkeeps.heads, hhead]
  exact KeyedMap.mem_def.mp hxt

theorem Scene.Awaits.holds (hlawful : scene.Lawful S) (h : scene.Awaits key locals s₀ t)
    (hkind : S.kindOf key = .binary) {contentId : String} {size : Nat} {heads : List String}
    (hremote : s₀.remoteState key = .ok (.present contentId size heads)) :
    scene.Holds key contentId := by
  obtain ⟨x, -, hpub, hres, size, hashes, hchange⟩ := h.head hlawful hkind hremote
  exact ⟨x, hpub, hres, size, by rw [hchange]; rfl⟩

theorem binarySnapshot_manifest (hcdc : FastcdcTiles) (data : Bytes) :
    Manifest (blake3 data) ((chunkData data).map fun chunk => chunk.1.hash) := by
  refine ⟨(chunkData data).map Prod.snd, ?_, by rw [flatten_chunkData hcdc]⟩
  rw [chunkData, List.map_map, List.map_map, List.map_map]
  rfl

/-- What is downloaded is what the planner was shown. -/
theorem Scene.Awaits.content (hcdc : FastcdcTiles) (hlawful : scene.Lawful S)
    (h : scene.Awaits key locals s₀ t) (hkind : S.kindOf key = .binary) {contentId : String}
    {size : Nat} {heads : List String}
    (hremote : s₀.remoteState key = .ok (.present contentId size heads)) {data : Bytes}
    (hdata : ∀ x, t.Selects key none x → x.Vouches data) : blake3 data = contentId := by
  obtain ⟨x, hselects, hpub, -, size, hashes, hchange⟩ := h.head hlawful hkind hremote
  obtain ⟨file, hfile⟩ := hlawful.snapshots x hpub (by rw [hchange]; rfl)
  have hsame := hchange.symm.trans hfile
  obtain ⟨rfl, -, rfl⟩ := ResourceChange.binarySnapshot.inj hsame
  exact hdata x hselects _ _ _ hchange (binarySnapshot_manifest hcdc file)

/-- The planner replaces or removes a file only where the baseline has its content. -/
theorem Scene.Awaits.safe (hlawful : scene.Lawful S) (h : scene.Awaits key locals s₀ t)
    (hplanned : (localStateOf locals key).isAbsent = true ∨ ∃ base size token version heads,
      localStateOf locals key = .present base size token ∧
        s₀.baselineFor key = some (.present base version heads))
    {versionToken : String}
    (hexpects : precondition (localStateOf locals key) = .version versionToken) :
    scene.Used key versionToken ∧ ∀ data,
      scene.files[key]? = some ⟨some data, versionToken⟩ → scene.Holds key (blake3 data) := by
  have hreports := h.reports
  rcases hplanned with habsent | ⟨base, size, token, version, heads, hl, hb⟩
  · cases hl : localStateOf locals key with
    | missing =>
      rw [hl] at hexpects
      cases hexpects
    | present contentId size token =>
      rw [hl] at habsent
      cases habsent
    | deleted token =>
      rw [hl] at hexpects hreports
      cases hexpects
      exact ⟨⟨_, hreports, rfl⟩, fun data hfile => absurd hfile (hlawful.gone hreports)⟩
  · rw [hl] at hexpects hreports
    cases hexpects
    refine ⟨hreports.used, fun data hfile => ?_⟩
    rw [hreports.content data hfile]
    exact h.base base version heads hb

theorem Sparing.minds {x : Sync α} (hx : Sparing key x) {J : Scene → RuntimeState → Prop}
    (hJ : Lasts J) (hG : ∀ scene q, scene.Safe key q → G scene q)
    (hspare : ∀ scene s t, J scene s → Spares key s t → J scene t) (hj : J scene s) :
    Minds S J G x (fun _ t _ => Spares key s t) scene s := by
  refine Comp.Within.minds hx hJ (fun scene q hq => hG scene q ?_) hspare hj
  cases q with
  | applyMutations mutations => exact fun mutation hm hkey => absurd hkey (hq mutation hm)
  | _ => trivial

theorem IsRead.safe {q : Req} (hq : IsRead q) (scene : Scene) : scene.Safe key q := by
  cases q <;> first | exact trivial | exact hq.elim

variable (hcdc : FastcdcTiles) (hinj : Function.Injective (blake3 : Bytes → String))
variable (hkind : S.kindOf key = .binary) (hown : key.Own [])
variable (hG : ∀ scene q, scene.Safe key q → G scene q)
include hkind hown hG

theorem establishBaseline_minds (hlawful : scene.Lawful S) (tally : Tally) {contentId : String}
    {size rsize : Nat} {versionToken : String} {heads : List String}
    (hl : localStateOf locals key = .present contentId size versionToken)
    (hremote : s₀.remoteState key = .ok (.present contentId rsize heads))
    (hj : scene.Awaits key locals s₀ t) :
    Minds S (fun scene t => scene.Awaits key locals s₀ t) G
      (establishBaseline tally key (localStateOf locals key) heads) (fun _ _ _ => True) scene t := by
  have hkeep : Sparing key (keepText key) := keepText_sparing key
  refine Minds.bind hlawful (hkeep.minds Scene.Awaits.lasts hG (fun _ _ _ h hs => h.spared hs) hj) ?_
  intro later u _ hfollows hj _
  refine ⟨hj.revise (hj.vouches.present hown fun _ => ?_) rfl, trivial⟩
  rw [hl]
  have hreports := hj.reports
  rw [hl] at hreports
  exact ⟨hreports, hj.holds hfollows.lawful hkind hremote⟩

include hcdc hinj

theorem download_minds (hlawful : scene.Lawful S) (tally : Tally) {contentId : String} {size : Nat}
    {heads : List String} (hremote : s₀.remoteState key = .ok (.present contentId size heads))
    (hplanned : (localStateOf locals key).isAbsent = true ∨ ∃ base size token version heads,
      localStateOf locals key = .present base size token ∧
        s₀.baselineFor key = some (.present base version heads))
    (hj : scene.Awaits key locals s₀ t) :
    Minds S (fun scene t => scene.Awaits key locals s₀ t) G
      (download locals tally key (.present contentId size heads)) (fun _ _ _ => True) scene t := by
  have hreads : ∀ scene q, IsRead q → G scene q := fun scene q hq => hG scene q (hq.safe scene)
  refine Minds.bind hlawful ((announceDownload_reads _).minds Scene.Awaits.lasts hreads hj) ?_
  rintro scene₁ _ _ h₁ hj₁ rfl
  refine Minds.bind h₁.lawful (contentForRemote_minds hinj Scene.Awaits.lasts hreads hj₁ key none) ?_
  rintro scene₂ _ data h₂ hj₂ ⟨rfl, hdata⟩
  have hid := hj₂.content hcdc h₂.lawful hkind hremote hdata
  refine Minds.bind h₂.lawful (applyMutation_minds Scene.Awaits.lasts hj₂ (hG _ _ ?_) h₂.lawful) ?_
  · intro mutation hm _ versionToken hexpects
    obtain rfl := List.mem_singleton.mp hm
    exact hj₂.safe h₂.lawful hplanned hexpects
  rintro scene₃ _ result h₃ hj₃ ⟨rfl, versionToken, htoken, hmade⟩
  have htells : scene₃.Tells key contentId versionToken := hid ▸ h₃.lawful.tells hmade
  have hnote : Sparing key (noteText key heads.head?) := noteText_sparing _ _
  refine Minds.bind h₃.lawful
    (hnote.minds Scene.Awaits.lasts hG (fun _ _ _ h hs => h.spared hs) hj₃) ?_
  intro scene₄ u _ h₄ hj₄ _
  refine ⟨hj₄.revise (hj₄.vouches.present hown fun _ => ?_) rfl, trivial⟩
  rw [htoken]
  exact ⟨htells.lasts h₄.since, hj₄.holds h₄.lawful hkind hremote⟩

omit hcdc hinj hkind hown in
theorem applyDelete_minds (hlawful : scene.Lawful S) {heads : List String} {mutation : LocalMutation}
    (hmutation : mutation = .applyDelete key (precondition (localStateOf locals key)))
    {noResult : String} {refused : Option String → String}
    (hplanned : ∃ base size token version heads,
      localStateOf locals key = .present base size token ∧
        s₀.baselineFor key = some (.present base version heads))
    (hj : scene.Awaits key locals s₀ t) (tally : Tally) :
    Minds S (fun scene t => scene.Awaits key locals s₀ t) G (do
      let _ ← applyMutation mutation noResult refused
      Comp.modify fun state => state.setDeletedBaseline key heads
      return tally) (fun _ _ _ => True) scene t := by
  refine Minds.bind hlawful (applyMutation_minds Scene.Awaits.lasts hj (hG _ _ ?_) hlawful) ?_
  · intro mutation hm _ versionToken hexpects
    obtain rfl := List.mem_singleton.mp hm
    rw [hmutation] at hexpects
    exact hj.safe hlawful (Or.inr hplanned) hexpects
  · rintro later _ result - hj' ⟨rfl, -⟩
    exact ⟨hj'.revise (hj'.vouches.deleted key heads) rfl, trivial⟩

theorem applyOperation_minds (hlawful : scene.Lawful S) (tally : Tally)
    {remote : RemoteResourceState} (hremote : s₀.remoteState key = .ok remote)
    {operation : PlanOperation}
    (hop : planResource key (localStateOf locals key) (s₀.baselineFor key) remote = operation)
    (hj : scene.Awaits key locals s₀ t) :
    Minds S (fun scene t => scene.Awaits key locals s₀ t) G (applyOperation locals tally operation)
      (fun _ _ _ => True) scene t := by
  have hkey : operation.key = key := hop ▸ planResource_key
  cases operation with
  | noop | upload | publishDelete | conflict => exact ⟨hj, trivial⟩
  | establishBaseline key' l' heads =>
    obtain ⟨rfl, id, size, token, rsize, hl, rfl⟩ := establishes_of_planResource hop
    obtain rfl : key' = key := hkey
    exact establishBaseline_minds hkind hown hG hlawful tally hl hremote hj
  | establishDeletedBaseline key' heads =>
    obtain rfl : key' = key := hkey
    exact ⟨hj.revise (hj.vouches.deleted key' heads) rfl, trivial⟩
  | download key' remote' =>
    obtain ⟨rfl, ⟨id, size, heads, rfl⟩, hplanned⟩ := downloads_of_planResource hop
    obtain rfl : key' = key := hkey
    exact download_minds hcdc hinj hkind hown hG hlawful tally hremote hplanned hj
  | applyDelete key' l' heads =>
    obtain ⟨rfl, rfl, hplanned⟩ := applyDelete_of_planResource hop
    obtain rfl : key' = key := hkey
    exact applyDelete_minds hG hlawful rfl hplanned hj _

end Operations

section Execution

variable [Crates] {S : Setting} {key : ResourceKey} {scene : Scene} {s₀ s t : RuntimeState}
variable {locals : List LocalResource} {plan : List PlanOperation} {rt : SyncRuntime}
variable {J : Scene → RuntimeState → Prop} {G : Scene → Req → Prop}

/-- `J` lasts, and what concerns other resources leaves it. -/
structure Withstands (key : ResourceKey) (J : Scene → RuntimeState → Prop) : Prop where
  lasts : Lasts J
  same : ∀ scene s t, J scene s → SameBase s t → J scene t
  spared : ∀ scene s t, J scene s → Spares key s t → J scene t

theorem vouches_withstands : Withstands key fun scene t => scene.Vouches key t where
  lasts _ _ _ h hl := h.lasts hl
  same _ _ _ h hs := h.same hs
  spared _ _ _ h hs := h.spared hs

theorem awaits_withstands : Withstands key fun scene t => scene.Awaits key locals s₀ t where
  lasts := Scene.Awaits.lasts
  same _ _ _ h hs := h.revise (h.vouches.same hs) hs.commits
  spared _ _ _ h hs := h.spared hs

theorem Minds.attempt {x : Sync α} {Q : Scene → RuntimeState → α → Prop}
    (hx : Minds S J G x Q scene s) : Minds S J G (Comp.attempt x) (fun _ _ _ => True) scene s :=
  Comp.wp_attempt.mpr (Comp.wp_mono hx (fun _ _ _ hj => ⟨hj, trivial⟩) fun _ _ _ h => ⟨h.1, trivial⟩)

/-- The change that an upload of the resource is published as. -/
def Scene.Backs (scene : Scene) (key : ResourceKey) (l : ReplicaState) : ResourceChange → Prop
  | .delete => True
  | .binarySnapshot contentId _ _ => scene.Tells key contentId (l.versionToken.getD "")
  | .textDelta _ => False

/-- The commits that a plan is uploaded as, as far as the resource is concerned. -/
def Scene.Uploads (scene : Scene) (key : ResourceKey) (locals : List LocalResource)
    (plan : List PlanOperation) (commits : List Commit) : Prop :=
  ∀ x ∈ commits, x.Created ∧ ∃ operation ∈ plan, operation.isUpload = true ∧
    x.resource = operation.key ∧ (x.resource = key → scene.Backs key (localStateOf locals key) x.change)

theorem Scene.Backs.lasts {later : Scene} {l : ReplicaState} {change : ResourceChange}
    (h : scene.Backs key l change) (hl : scene.Until later) : later.Backs key l change := by
  cases change with
  | delete => trivial
  | binarySnapshot => exact Scene.Tells.lasts h hl
  | textDelta => exact h.elim

theorem Minds.save (hJ : Lasts J) (hq : G scene .saveRuntimeState) (hj : J scene s) :
    Minds S J G Sync.saveRuntimeState (fun _ t _ => t = s) scene s :=
  Minds.request hJ hj hq fun _ _ _ _ _ => rfl

variable (hG : ∀ scene q, scene.Safe key q → G scene q)
include hG

theorem runOperations_minds (hJ : Withstands key J)
    (happly : ∀ operation ∈ plan, operation.key.encoded = key.encoded → ∀ tally later t,
      scene.Follows S later → J later t →
      Minds S J G (applyOperation locals tally operation) (fun _ _ _ => True) later t)
    (hlawful : scene.Lawful S) (hj : J scene t) (tally : Tally) :
    Minds S J G (plan.foldlM (runOperation locals) tally) (fun _ _ _ => True) scene t := by
  refine Minds.imp (Minds.foldlM (fun rest _ _ _ => ∀ operation ∈ rest, operation ∈ plan) ?_ hlawful
    hj fun _ hop => hop) fun _ _ _ _ _ => trivial
  intro operation rest later t tally hfollows hj hrest
  obtain ⟨hop, hrest⟩ := List.forall_mem_cons.mp hrest
  refine Minds.imp (Q := fun _ _ _ => True) ?_ fun _ _ _ _ _ => hrest
  by_cases hname : operation.key.encoded = key.encoded
  · refine Minds.bind hfollows.lawful (happly operation hop hname tally later t hfollows hj).attempt ?_
    intro later' t' outcome hfollows' hj' _
    refine Minds.bind hfollows'.lawful (Minds.save hJ.lasts (hG _ _ trivial) hj') ?_
    intro _ _ _ _ hj'' _
    cases outcome with
    | ok tally => exact ⟨hj'', trivial⟩
    | error e => exact ⟨hj'', trivial⟩
  · have hsparing := runOperation_sparing locals tally hname
    exact (hsparing.minds hJ.lasts hG hJ.spared hj).imp fun _ _ _ _ _ => trivial

omit hG in
/-- What an upload that was planned for the resource is published as. -/
theorem PlanOperation.Change.backs {round : Round} {change : ResourceChange}
    {operation : PlanOperation} (hlawful : scene.Lawful S) (hkind : S.kindOf key = .binary)
    (hread : WasRead S scene.versions round.contents)
    (hplan : ∃ remote, planResource key (localStateOf locals key) (s₀.baselineFor key) remote =
      operation) (h : operation.Change s round change) :
    scene.Backs key (localStateOf locals key) change := by
  obtain ⟨remote, hop⟩ := hplan
  have hkey : operation.key = key := hop ▸ planResource_key
  cases operation with
  | publishDelete key' =>
    obtain rfl : change = .delete := h
    trivial
  | upload key' l' =>
    obtain ⟨rfl, -⟩ := uploads_of_planResource hop
    obtain rfl : key' = key := hkey
    obtain ⟨content, hcontent, hversion, hbinary, -⟩ := h
    obtain ⟨-, hcontentKind, hmem⟩ := hread key' content hcontent
    obtain ⟨-, rfl⟩ := hbinary (hcontentKind.trans hkind)
    change scene.Tells key' (blake3 content.data) ((localStateOf locals key').versionToken.getD "")
    rw [hversion]
    exact hlawful.tells hmem
  | _ => exact h.elim

theorem runUploads_minds (hJ : Withstands key J) (hkind : S.kindOf key = .binary)
    {Q : Scene → RuntimeState → Tally → Prop} (hplan : ∀ operation ∈ plan, operation.key = key →
      ∃ remote, planResource key (localStateOf locals key) (s₀.baselineFor key) remote = operation)
    (hbatch : ∀ later t batch tally, scene.Follows S later → J later t →
      later.Uploads key locals plan batch.commits →
      Minds S J G (publishBatch locals batch tally) Q later t)
    (hlawful : scene.Lawful S) (hj : J scene t) (tally : Tally) :
    Minds S J G (runUploads rt locals plan tally) Q scene t := by
  have hprepares : ∀ {α : Type} {x : Sync α} {scene : Scene} {t : RuntimeState}, Prepares x →
      J scene t → Minds S J G x (fun _ u _ => SameBase t u) scene t := fun hx hj =>
    Comp.Within.minds hx hJ.lasts (fun scene q hq => hG scene q (hq.safe scene)) hJ.same hj
  rw [runUploads]
  refine Minds.bind hlawful (Q := fun later u contents => u = t ∧ ∃ keys,
    contents = S.read later.files keys) (Minds.request hJ.lasts hj (hG _ _ trivial) ?_) ?_
  · intro r later contents he hr
    obtain rfl : r = .ok contents := hr
    exact ⟨rfl, _, he.shown⟩
  rintro scene₁ _ _ h₁ hj₁ ⟨rfl, keys, rfl⟩
  have hread := wasRead_of_read (S := S) h₁.lawful.files keys
  generalize contentMap (S.read scene₁.files keys) = contents at hread ⊢
  -- the uploads are prepared one by one
  refine Minds.bind h₁.lawful (Minds.foldlM (fun rest _ _ (prepared : Prepared) => ∃ done files,
    plan.filter PlanOperation.isUpload = done ++ rest ∧ prepared.Covers contents files done) ?_
    h₁.lawful hj₁ ⟨[], [], rfl, rfl, by simp⟩) ?_
  · rintro operation rest later u prepared - hj ⟨done, files, hdone, hcovers⟩
    refine Minds.imp (Minds.and (C := fun _ _ _ => True)
      (hprepares (prepareUpload_prepares rt contents prepared operation) hj)
      (prepareUpload_covers rt hcovers operation later u)) ?_
    rintro _ _ _ - ⟨-, -, -, files', hcovers'⟩
    exact ⟨done ++ [operation], files', by simp [hdone], hcovers'⟩
  rintro scene₂ u₂ prepared h₂ hj₂ ⟨done, files, hdone, hcovers⟩
  rw [List.append_nil] at hdone
  subst hdone
  refine Minds.bind h₂.lawful (Q := fun _ _ _ => True)
    (Minds.request hJ.lasts hj₂ (hG _ _ trivial) fun _ _ _ _ _ => trivial) ?_
  intro scene₃ u₃ existing h₃ hj₃ _
  -- and turned into commits
  refine Minds.bind h₃.lawful (Minds.foldlM (fun rest _ _ created =>
    (∀ operation ∈ rest, operation ∈ plan.filter PlanOperation.isUpload) ∧
    ∀ x ∈ created, x.Created ∧ ∃ operation ∈ plan, operation.isUpload = true ∧ ∃ u,
      Uploaded u ⟨[], locals, plan, contents, prepared, files, existing⟩ x operation) ?_
    h₃.lawful hj₃ ⟨fun _ hop => hop, by simp⟩) ?_
  · rintro operation rest later u created - hj ⟨hrest, hcreated⟩
    obtain ⟨hop, hrest⟩ := List.forall_mem_cons.mp hrest
    obtain ⟨hmem, hup⟩ := List.mem_filter.mp hop
    have huploaded : Comp.wp (Scene.Answers S) (fun _ _ _ => True) (fun _ _ _ => True)
        (createCommit rt contents prepared created operation) _ later u :=
      createCommit_uploaded rt ⟨[], locals, plan, contents, prepared, files, existing⟩ hup
        (fun key localState he => hcovers.holds key localState (he ▸ hop)) (fun _ _ _ _ => trivial)
        later u
    refine Minds.imp (Minds.and (Minds.and (hprepares (createCommit_prepares rt contents prepared
      created operation) hj) huploaded)
      (createCommit_made rt contents prepared created operation later u)) ?_
    rintro _ _ after - ⟨⟨-, -, hafter⟩, hmade⟩
    refine ⟨hrest, fun x hx => ?_⟩
    rcases hafter with rfl | ⟨y, rfl, hy⟩
    · exact hcreated x hx
    · rcases List.mem_append.mp hx with hold | hnew
      · exact hcreated x hold
      · obtain rfl := List.mem_singleton.mp hnew
        refine ⟨?_, operation, hmem, hup, u, hy⟩
        rcases hmade x hx with hold | ⟨hx, -⟩
        · exact (hcreated x hold).1
        · exact hx
  rintro scene₄ u₄ created h₄ hj₄ ⟨-, hcreated⟩
  have hsince : scene₁.Until scene₄ := (h₂.since.trans h₃.since).trans h₄.since
  refine hbatch _ _ _ _ ((h₁.trans h₂).trans (h₃.trans h₄)) hj₄ fun x hx => ?_
  obtain ⟨hmade, operation, hop, hup, u, hu⟩ := hcreated x hx
  refine ⟨hmade, operation, hop, hup, hu.resource, fun hres => ?_⟩
  have hbacks := hu.change.backs h₁.lawful hkind hread
    (hplan operation hop (hu.resource.symm.trans hres))
  exact hbacks.lasts hsince

omit hG in
/-- A commit of the resource is recorded with the version that it was made from. -/
theorem afterCommit_minds (hown : key.Own []) (hlawful : scene.Lawful S) {x : Commit}
    (hx : x ∈ scene.published) (hname : x.resource.encoded = key.encoded)
    (hbacks : scene.Backs key (localStateOf locals key) x.change) (hj : scene.Vouches key t)
    (tally : Tally) :
    Minds S (fun scene t => scene.Vouches key t) G (afterCommit locals tally x) (fun _ _ _ => True)
      scene t := by
  obtain rfl : x.resource = key := hown x.resource rfl hname
  have hinserted := hj.insert hlawful hx
  refine Comp.wp_bind.mpr (Comp.wp_modify.mpr (Comp.wp_bind.mpr (Comp.wp_get.mpr ?_)))
  cases hchange : x.change with
  | delete => exact ⟨hinserted.deleted _ _, trivial⟩
  | binarySnapshot contentId size hashes =>
    rw [hchange] at hbacks
    exact ⟨hinserted.present hown fun _ => ⟨hbacks, x, hx, rfl, size, by rw [hchange]; rfl⟩, trivial⟩
  | textDelta delta =>
    rw [hchange] at hbacks
    exact hbacks.elim

theorem publishBatch_minds (hcol : Collisionless) (hown : key.Own []) (hlawful : scene.Lawful S)
    (hj : scene.Vouches key t) {batch : CommitBatch}
    (hbatch : scene.Uploads key locals plan batch.commits) (tally : Tally) :
    Minds S (fun scene t => scene.Vouches key t) G (publishBatch locals batch tally)
      (fun _ _ _ => True) scene t := by
  have hJ : Withstands key fun scene t => scene.Vouches key t := vouches_withstands
  unfold publishBatch
  refine Comp.wp_ite.mpr ⟨fun _ => ⟨hj, trivial⟩, fun _ => ?_⟩
  refine Minds.bind hlawful (Q := fun later u _ => scene.Until later ∧
    ∀ x ∈ batch.commits, x ∈ later.published) (Minds.request hJ.lasts hj (hG _ _ trivial) ?_) ?_
  · intro r later _ he hr
    obtain rfl : r = .ok () := hr
    exact ⟨he.since, he.fair⟩
  rintro later u _ hfollows hj ⟨hsince, hpublished⟩
  refine Minds.bind hfollows.lawful (Q := fun _ _ _ => True) (Minds.imp (Minds.foldlM
    (fun rest _ _ (_ : Tally) => ∀ x ∈ rest, x ∈ batch.commits) ?_ hfollows.lawful hj
    fun _ hx => hx) fun _ _ _ _ _ => trivial) ?_
  · intro x rest scene' u tally h' hj hrest
    obtain ⟨hx, hrest⟩ := List.forall_mem_cons.mp hrest
    obtain ⟨hcreated, -, -, -, -, hbacks⟩ := hbatch x hx
    refine Minds.imp (Q := fun _ _ _ => True) ?_ fun _ _ _ _ _ => hrest
    by_cases hname : x.resource.encoded = key.encoded
    · have hlast := (hbacks (hown x.resource rfl hname)).lasts (hsince.trans h'.since)
      exact afterCommit_minds hown h'.lawful (h'.since.published x (hpublished x hx)) hname hlast hj
        tally
    · have hsparing := afterCommit_sparing hcol locals tally hcreated hname
      exact (hsparing.minds hJ.lasts hG hJ.spared hj).imp fun _ _ _ _ _ => trivial
  · intro last u tally h' hj _
    exact Minds.bind h'.lawful (Minds.save hJ.lasts (hG _ _ trivial) hj)
      fun _ _ _ _ hj _ => ⟨hj, trivial⟩

/-- What `J` needs of the uploads and of the operations of a plan to hold all through its
execution. -/
theorem execute_minds (hJ : Withstands key J) (hkind : S.kindOf key = .binary)
    (hplan : ∀ operation ∈ plan, operation.key = key →
      ∃ remote, planResource key (localStateOf locals key) (s₀.baselineFor key) remote = operation)
    (hbatch : ∀ later t batch tally, scene.Follows S later → J later t →
      later.Uploads key locals plan batch.commits →
      Minds S J G (publishBatch locals batch tally) (fun _ _ _ => True) later t)
    (happly : ∀ operation ∈ plan, operation.key.encoded = key.encoded → ∀ tally later t,
      scene.Follows S later → J later t →
      Minds S J G (applyOperation locals tally operation) (fun _ _ _ => True) later t)
    (request : SyncRequest) (hlawful : scene.Lawful S) (hj : J scene t) :
    Minds S J G (execute rt request locals plan) (fun _ _ _ => True) scene t := by
  have hsave : ∀ {scene : Scene} {t : RuntimeState}, J scene t →
      Minds S J G Sync.saveRuntimeState (fun _ u _ => u = t) scene t := fun hj =>
    Minds.save hJ.lasts (hG _ _ trivial) hj
  have hstart : SameBase t { t.recordConflicts request plan with
      activeRun := some ⟨plan.map PlanOperation.key⟩ } := ⟨⟨rfl, rfl, le_rfl⟩, rfl, rfl, rfl⟩
  rw [execute]
  refine Minds.bind hlawful (Q := fun _ _ _ => True) ?_ ?_
  · exact Comp.wp_bind.mpr (Comp.wp_modify.mpr ((hsave (hJ.same _ _ _ hj hstart)).imp
      fun _ _ _ _ _ => trivial))
  intro scene₁ t₁ _ h₁ hj₁ _
  refine Minds.bind h₁.lawful (runUploads_minds hG hJ hkind hplan (fun later u batch tally h' =>
    hbatch later u batch tally (h₁.trans h')) h₁.lawful hj₁ _) ?_
  intro scene₂ t₂ tally h₂ hj₂ _
  refine Minds.bind h₂.lawful (runOperations_minds hG hJ (fun operation hop hname tally later u h' =>
    happly operation hop hname tally later u ((h₁.trans h₂).trans h')) h₂.lawful hj₂ tally) ?_
  intro scene₃ t₃ tally h₃ hj₃ _
  have hacknowledge : Sparing key (acknowledgePlan rt plan) :=
    .bind .get fun _ => .request (by exact trivial) _
  refine Minds.bind h₃.lawful (hacknowledge.minds hJ.lasts hG hJ.spared hj₃) ?_
  intro scene₄ t₄ _ h₄ hj₄ _
  have hclear : SameBase t₄ { t₄ with activeRun := none } := ⟨⟨rfl, rfl, le_rfl⟩, rfl, rfl, rfl⟩
  refine Comp.wp_bind.mpr (Comp.wp_modify.mpr ?_)
  exact Minds.bind h₄.lawful (hsave (hJ.same _ _ _ hj₄ hclear)) fun _ _ _ _ hj _ => ⟨hj, trivial⟩

end Execution

section Reconcile

variable [Crates] {S : Setting} {key : ResourceKey} {scene : Scene} {s t : RuntimeState}
variable {G : Scene → Req → Prop}

theorem Scene.Vouches.insertAll (h : scene.Vouches key s) (hlawful : scene.Lawful S)
    {xs : List Commit} (hxs : ∀ x ∈ xs, x ∈ scene.published) (ht : t.commits = s.commits.insertAll xs)
    (hbaselines : t.baselines = s.baselines) : scene.Vouches key t where
  created x hx := by
    rw [ht] at hx
    rcases KeyedMap.mem_of_mem_insertAll hx with hx | hx
    · exact h.created x hx
    · exact hlawful.created x (hxs x hx)
  held x hx hkey := by
    rw [ht] at hx
    rcases KeyedMap.mem_of_mem_insertAll hx with hx | hx
    · exact h.held x hx hkey
    · exact hxs x hx
  warranted := h.warranted.of_same (by rw [hbaselines])

theorem Scene.Warranted.base (h : scene.Warranted key s) {contentId version : String}
    {heads : List String} (hbase : s.baselineFor key = some (.present contentId version heads)) :
    scene.Holds key contentId := by
  have hentry := KeyedMap.mem_def.mp (RuntimeState.baselineFor_eq_some.mp hbase)
  exact (h _ hentry).2

theorem warranted_lasts : Lasts fun scene t => scene.Warranted key t := fun _ _ _ h hl => h.lasts hl

/-- The commits of a memory that is warranted are vouched for at its first call. -/
theorem refreshRemote_minds (hG : ∀ scene q, scene.Safe key q → G scene q)
    (hlawful : scene.Lawful S) (hj : scene.Warranted key s) (scopes : List String) :
    Minds S (fun scene t => scene.Warranted key t) G (refreshRemote scopes)
      (fun later t _ => later.Vouches key t) scene s := by
  refine Comp.wp_bind.mpr (Comp.wp_get.mpr ?_)
  refine Minds.bind hlawful (Q := fun later t _ => later.Vouches key t)
    (Minds.request warranted_lasts hj (hG _ _ trivial) fun _ _ _ he _ =>
      (hj.lasts he.since).vouches he.lawful he.memory) ?_
  intro later t delta hfollows _ hvouches
  have hcounted : later.Vouches key (t.countEvents delta) := hvouches.of_same rfl rfl
  refine Comp.wp_bind.mpr (Comp.wp_modify.mpr (Comp.wp_bind.mpr (Comp.wp_get.mpr ?_)))
  refine Minds.bind hfollows.lawful (Q := fun last u commits => last.Vouches key u ∧
    ∀ x ∈ commits, x ∈ last.published) (Minds.request warranted_lasts hcounted.warranted
      (hG _ _ trivial) ?_) ?_
  · intro r last commits he hr
    obtain rfl : r = .ok commits := hr
    exact ⟨hcounted.lasts he.since, he.fair.1⟩
  · rintro last u commits h' - ⟨hvouches, hcommits⟩
    have habsorbed : last.Vouches key (u.absorb commits delta) :=
      hvouches.insertAll h'.lawful hcommits rfl rfl
    exact ⟨habsorbed.warranted, habsorbed⟩

theorem reconcile_minds (hcol : Collisionless) (hcdc : FastcdcTiles)
    (hkind : S.kindOf key = .binary) (hown : key.Own [])
    (hG : ∀ scene q, scene.Safe key q → G scene q) (rt : SyncRuntime) (request : SyncRequest)
    (hlawful : scene.Lawful S) (hj : scene.Warranted key s) :
    Minds S (fun scene t => scene.Warranted key t) G (Rollforward.reconcile rt request)
      (fun _ _ _ => True) scene s := by
  have hJ : Withstands key fun scene t => scene.Vouches key t := vouches_withstands
  rw [Rollforward.reconcile]
  have hcleared : scene.Warranted key { s with activeRun := none } := hj.of_same rfl
  refine Comp.wp_bind.mpr (Comp.wp_modify.mpr ?_)
  refine Minds.bind hlawful (refreshRemote_minds hG hlawful hcleared request.scopes) ?_
  intro scene₁ s₁ _ h₁ _ hj₁
  refine (Minds.weaken (K := fun scene t => scene.Vouches key t) (Q := fun _ _ _ => True) ?_
    fun _ _ h => h.warranted).imp fun _ _ _ _ _ => trivial
  have hsnapshots : Sparing key (snapshotLargeCatalogs rt) := snapshotLargeCatalogs_sparing rt
  refine Minds.bind h₁.lawful (hsnapshots.minds hJ.lasts hG hJ.spared hj₁) ?_
  intro scene₂ s₂ _ h₂ hj₂ _
  refine Minds.bind h₂.lawful (localInventory_minds hJ.lasts (fun _ _ h => h.warranted)
    (fun scene q hq => hG scene q (hq.safe scene)) h₂.lawful hj₂ request.scopes) ?_
  rintro scene₃ s₃ locals h₃ hj₃ ⟨rfl, -, hlists⟩
  have hkinds : scene₃.Vouches key (s₃.recordKinds locals) := hj₃.of_same rfl rfl
  refine Comp.wp_bind.mpr (Comp.wp_modify.mpr (Comp.wp_bind.mpr (Comp.wp_get.mpr
    (Comp.wp_bind.mpr (Comp.wp_ofExcept.mpr ⟨fun plan hbuilt => ?_, fun _ _ => hkinds⟩)))))
  generalize s₃.recordKinds locals = s₀ at hbuilt hkinds
  have hplan : ∀ operation ∈ plan, operation.key = key → ∃ remote,
      s₀.remoteState key = .ok remote ∧
      planResource key (localStateOf locals key) (s₀.baselineFor key) remote = operation := by
    rintro operation hop rfl
    obtain ⟨-, remote, hremote, hplanned⟩ :=
      plannedAt_of_mem hbuilt (fun r hr => (hlists.inventoried r hr).1) hop
    rw [mergeTextConflict_of_binary hlists.inventoried (by rwa [planResource_key])] at hplanned
    exact ⟨remote, hremote, hplanned.symm⟩
  have hplanned : ∀ operation ∈ plan, operation.key = key → ∃ remote,
      planResource key (localStateOf locals key) (s₀.baselineFor key) remote = operation :=
    fun operation hop hkey => (hplan operation hop hkey).imp fun _ h => h.2
  have hnodup := buildPlan_nodup hbuilt
  by_cases hup : ∃ operation ∈ plan, operation.isUpload = true ∧ operation.key = key
  · -- the resource is uploaded, and nothing else is done to it
    obtain ⟨upload, hmem, hup, hkey⟩ := hup
    refine execute_minds hG hJ hkind hplanned ?_ ?_ request h₃.lawful hkinds
    · exact fun later t batch tally h' hj hbatch =>
        publishBatch_minds hG hcol hown h'.lawful hj hbatch tally
    · intro operation hop hname tally later t h' hj
      have hsame : operation = upload :=
        List.inj_on_of_nodup_map hnodup hop hmem ((hown _ rfl hname).trans hkey.symm)
      rw [hsame]
      cases upload with
      | upload | publishDelete => exact ⟨hj, trivial⟩
      | _ => cases hup
  · -- the uploads leave it as the planner saw it
    have hawaits : scene₃.Awaits key locals s₀ s₀ :=
      ⟨hkinds, hlists.localStateOf, fun _ _ _ hb => hkinds.warranted.base hb, fun _ _ => Iff.rfl⟩
    have hJ' : Withstands key fun scene t => scene.Awaits key locals s₀ t := awaits_withstands
    refine (Minds.weaken (K := fun scene t => scene.Awaits key locals s₀ t)
      (Q := fun _ _ _ => True) ?_ fun _ _ h => h.vouches).imp fun _ _ _ _ _ => trivial
    refine execute_minds hG hJ' hkind hplanned ?_ ?_ request h₃.lawful hawaits
    · intro later t batch tally h' hj hbatch
      refine (Sparing.minds (publishBatch_sparing hcol locals (fun x hx => ?_) tally) hJ'.lasts hG
        hJ'.spared hj).imp fun _ _ _ _ _ => trivial
      obtain ⟨hcreated, operation, hop, hisUpload, hres, -⟩ := hbatch x hx
      refine ⟨hcreated, fun hname => hup ⟨operation, hop, hisUpload, ?_⟩⟩
      rw [← hres]
      exact hown x.resource rfl hname
    · intro operation hop hname tally later t h' hj
      obtain ⟨remote, hremote, hop⟩ := hplan operation hop (hown _ rfl hname)
      exact applyOperation_minds hcdc hcol.digest hkind hown hG h'.lawful tally hremote hop hj

end Reconcile

end Rollforward
