import Rollforward.Identity
import Rollforward.Maintained
import Rollforward.Overwrites
import Rollforward.Spelled

/-! The document that a client keeps for a text resource stands for the baseline of the
resource: wherever one of the two is replaced, the other is. -/

namespace Rollforward

open Std Lib

section States

variable [Crates] {s t : RuntimeState} {key : ResourceKey} {text text' : String → Prop}

/-- If the baseline is over text versions alone, a document is kept whose content it names. -/
def StoredBaseline.Fits (entry : StoredBaseline) (text : String → Prop)
    (textStates : Map String Yrs.Update) : Prop :=
  ∀ contentId version heads, entry.state = .present contentId version heads → heads ≠ [] →
    (∀ id ∈ heads, text id) → ∃ full doc, textStates[entry.key.encoded]? = some full ∧
      TextDoc.fromBaselineAndDeltas (some full) [] = .ok doc ∧
      blake3 (textBytes (TextDoc.content doc)) = contentId

/-- Every baseline fits, where `text` tells the ids of text versions. -/
def RuntimeState.Matches (s : RuntimeState) (text : String → Prop) : Prop :=
  ∀ entry ∈ s.baselines, entry.Fits text s.textStates

theorem RuntimeState.Matches.mono (h : s.Matches text) (htext : ∀ id, text' id → text id) :
    s.Matches text' :=
  fun entry he contentId version heads hstate hsome hall =>
    h entry he contentId version heads hstate hsome fun id hid => htext id (hall id hid)

/-- Baselines and kept documents are the same. -/
structure SameTexts (s t : RuntimeState) : Prop where
  baselines : t.baselines = s.baselines
  textStates : t.textStates = s.textStates

instance : IsPreorder RuntimeState SameTexts where
  refl _ := ⟨rfl, rfl⟩
  trans _ _ _ hst htu :=
    ⟨htu.baselines.trans hst.baselines, htu.textStates.trans hst.textStates⟩

theorem RuntimeState.Matches.same (h : s.Matches text) (hs : SameTexts s t) : t.Matches text := by
  rw [Matches, hs.baselines, hs.textStates]
  exact h

/-- A new baseline fits if the document kept for it does. -/
theorem RuntimeState.Matches.insert (h : s.Matches text) (entry : StoredBaseline)
    (hbaselines : t.baselines = s.baselines.insert entry)
    (hothers : ∀ name, name ≠ entry.key.encoded → t.textStates[name]? = s.textStates[name]?)
    (hfits : entry.Fits text t.textStates) : t.Matches text := by
  intro other ho
  rw [hbaselines, KeyedMap.mem_insert] at ho
  rcases ho with rfl | ⟨ho, hne⟩
  · exact hfits
  · intro contentId version heads hstate hsome hall
    obtain ⟨full, doc, hget, hrest⟩ := h other ho contentId version heads hstate hsome hall
    exact ⟨full, doc, (hothers _ hne).trans hget, hrest⟩

theorem RuntimeState.Matches.deleted (h : s.Matches text) (key : ResourceKey)
    (heads : List String) : (s.setDeletedBaseline key heads).Matches text :=
  h.insert ⟨key, .deleted heads⟩ (t := s.setDeletedBaseline key heads) rfl (fun _ _ => rfl)
    fun _ _ _ hstate => by cases hstate

/-- What is relied on about `yrs`: the full update of a document brings back its content. -/
def FullUpdates : Prop :=
  ∀ doc : Yrs.Doc, ∃ doc',
    TextDoc.fromBaselineAndDeltas (some (TextDoc.fullUpdate doc)) [] = .ok doc' ∧
      TextDoc.content doc' = TextDoc.content doc

/-- The id of a text version. -/
def TextId (id : String) : Prop := ∃ x : Commit, x.Created ∧ x.id = id ∧ x.change.isText = true

theorem Commit.Created.isText (hcol : Collisionless) {x : Commit} (hx : x.Created)
    (h : TextId x.id) : x.change.isText = true := by
  obtain ⟨y, hy, hid, htext⟩ := h
  rw [hx.ext hcol hy hid.symm]
  exact htext

/-- What a remote state over text heads says. -/
theorem text_of_remoteState (hcol : Collisionless) (hcreated : ∀ x ∈ t.commits, x.Created)
    {contentId : String} {size : Nat} {heads : List String}
    (hr : t.remoteState key = .ok (.present contentId size heads))
    (htext : ∀ id ∈ heads, TextId id) : (∃ doc, t.textDoc key = .ok doc ∧
      blake3 (textBytes (TextDoc.content doc)) = contentId) ∧ heads ≠ [] ∧
      ∀ id ∈ heads, ∃ x ∈ t.commits, x.resource = key ∧ x.id = id ∧ x.change.isText = true := by
  generalize he : RemoteResourceState.present contentId size heads = remote at hr
  have hheads : ∀ id ∈ t.heads key, TextId id → ∃ x, IsHead Commit.Over t.held x ∧
      x.resource = key ∧ x.id = id ∧ x.change.isText = true := by
    intro id hid hin
    obtain ⟨x, hx, hres, rfl⟩ := RuntimeState.mem_heads_iff_isHead.mp hid
    exact ⟨x, hx, hres, rfl, (hcreated x hx.1).isText hcol hin⟩
  have hsorted : t.heads key ≠ [] → sortDedup (t.heads key) ≠ [] := by
    intro hsome hnil
    obtain ⟨id, hid⟩ := List.exists_mem_of_ne_nil _ hsome
    rw [← mem_sortDedup, hnil] at hid
    cases hid
  cases RuntimeState.shows_of_remoteState hr with
  | missing | deleted | forked => cases he
  | text hsome _ hread =>
    obtain ⟨rfl, -, rfl⟩ := RemoteResourceState.present.inj he
    refine ⟨⟨_, hread, rfl⟩, hsorted hsome, fun id hid => ?_⟩
    obtain ⟨x, hx, hrest⟩ := hheads id (mem_sortDedup.mp hid) (htext id hid)
    exact ⟨x, hx.1, hrest⟩
  | snapshot hsome hall =>
    obtain ⟨-, -, rfl⟩ := RemoteResourceState.present.inj he
    obtain ⟨id, hid⟩ := List.exists_mem_of_ne_nil _ hsome
    obtain ⟨x, hx, hres, -, hist⟩ := hheads id hid (htext id (mem_sortDedup.mpr hid))
    have hsnap := hall x hx hres
    cases hchange : x.change with
    | textDelta => rw [hchange] at hsnap; cases hsnap
    | binarySnapshot => rw [hchange] at hist; cases hist
    | delete => rw [hchange] at hist; cases hist

end States

section Archives

variable [Crates] {S : Setting} {w : World} {ok : World → Label → Prop}

/-- What every run makes sure of about the published commits. -/
structure Archive (S : Setting) (published : List Commit) : Prop where
  grounded : Grounded published
  created : ∀ x ∈ published, x.Created
  kinds : ∀ x ∈ published, x.change.isText = true → S.kindOf x.resource = .text

theorem World.Reachable.archive (hcol : Collisionless) (h : w.Reachable S ok) :
    Archive S w.published :=
  ⟨h.grounded_again hcol, h.created, h.text_kind⟩

end Archives

section Frames

variable [Crates] {T : List SyncEvent → SyncEvent → List SyncEvent → Prop} {h : List SyncEvent}
variable {s : RuntimeState}

/-- The baselines fit at every call of `x` and at its end. -/
def Keeping (T : List SyncEvent → SyncEvent → List SyncEvent → Prop) (x : Sync α)
    (Q : List SyncEvent → RuntimeState → α → Prop) (h : List SyncEvent) (s : RuntimeState) : Prop :=
  Comp.wp T (fun _ s _ => s.Matches TextId) (fun _ s _ => s.Matches TextId) x
    (fun h s a => s.Matches TextId ∧ Q h s a) h s

theorem Comp.Within.keeping {K : Req → Prop} {R : RuntimeState → RuntimeState → Prop}
    [IsPreorder RuntimeState R] {x : Sync α} (hx : Comp.Within K R x)
    (hR : ∀ s t, R s t → SameTexts s t) (hs : s.Matches TextId) :
    Keeping T x (fun _ t _ => R s t) h s := by
  have hJ : Comp.wp T (fun _ s _ => s.Matches TextId) (fun _ t _ => t.Matches TextId ∧ R s t) x
      (fun _ t _ => t.Matches TextId ∧ R s t) h s := by
    refine hx.wp (J := fun (_ : List SyncEvent) t => t.Matches TextId ∧ R s t) ?_ ?_ ?_
      ⟨hs, refl_of R s⟩
    · exact fun _ t u hj hr => ⟨hj.1.same (hR t u hr), trans_of R hj.2 hr⟩
    · exact fun _ _ _ hj _ => hj.1
    · exact fun _ _ _ _ _ hj _ _ => hj
  exact Comp.wp_mono hJ (fun _ _ _ hj => hj.1) fun _ _ _ hj => hj

theorem SameBase.texts {t : RuntimeState} (hs : SameBase s t) : SameTexts s t :=
  ⟨hs.baselines, hs.textStates⟩

theorem Keeping.bind {x : Sync α} {f : α → Sync β} {Q : List SyncEvent → RuntimeState → α → Prop}
    {Q' : List SyncEvent → RuntimeState → β → Prop} (hx : Keeping T x Q h s)
    (hf : ∀ h t a, t.Matches TextId → Q h t a → Keeping T (f a) Q' h t) :
    Keeping T (x >>= f) Q' h s :=
  Comp.wp_bind.mpr (Comp.wp_imp hx fun h t a ht => hf h t a ht.1 ht.2)

theorem Prepares.keeping {x : Sync α} (hx : Prepares x) (hs : s.Matches TextId) :
    Keeping T x (fun _ t _ => SameBase s t) h s :=
  Comp.Within.keeping hx (fun _ _ => SameBase.texts) hs

/-- The footprint of what leaves baselines and documents alone. -/
def Leaves (x : Sync α) : Prop := Comp.Within AnyCall SameTexts x

theorem Leaves.keeping {x : Sync α} (hx : Leaves x) (hs : s.Matches TextId) :
    Keeping T x (fun _ _ _ => True) h s :=
  Comp.wp_imp (Comp.Within.keeping hx (fun _ _ hst => hst) hs) fun _ _ _ ht => ⟨ht.1, trivial⟩

theorem Prepares.leaves {x : Sync α} (hx : Prepares x) : Leaves x :=
  Comp.Within.mono hx (fun _ _ => trivial) fun _ _ => SameBase.texts

theorem Reads.leaves {x : Sync α} (hx : Reads x) : Leaves x := hx.prepares.leaves

theorem sameTexts_aloof : Aloof SameTexts := fun _ _ _ _ _ _ => ⟨rfl, rfl⟩

theorem publishDelete_leaves (rt : SyncRuntime) (key : ResourceKey) (parents : List String) :
    Leaves (publishDelete rt key parents) :=
  anyCall (publishDelete_aloof sameTexts_aloof rt key parents)

theorem publishBytes_leaves (rt : SyncRuntime) (key : ResourceKey) (kind : ResourceKind)
    (data : Bytes) (parents : List String) : Leaves (publishBytes rt key kind data parents) :=
  anyCall (publishBytes_aloof sameTexts_aloof rt key kind data parents)

theorem staleConflict_leaves (conflictId : String) : Leaves (staleConflict conflictId : Sync α) :=
  .bind (.modify fun _ => ⟨rfl, rfl⟩) fun _ => .bind (.request trivial _) fun _ => .throw _

end Frames

section Operations

variable [Crates] {T : List SyncEvent → SyncEvent → List SyncEvent → Prop} {h : List SyncEvent}
variable {s t u : RuntimeState} {locals : List LocalResource} {plan : List PlanOperation}

/-- The commits are the same, and what was known to be text is. -/
structure Steady (s u : RuntimeState) : Prop where
  commits : u.commits = s.commits
  kinds : ∀ name : String, s.kinds[name]? = some .text → u.kinds[name]? = some .text

instance : IsPreorder RuntimeState Steady where
  refl _ := ⟨rfl, fun _ hk => hk⟩
  trans _ _ _ hst htu :=
    ⟨htu.commits.trans hst.commits, fun name hk => htu.kinds name (hst.kinds name hk)⟩

/-- What the operations of a plan made on `t` can rely on when their turn comes: uploads have
touched other resources only. -/
structure Ready (t : RuntimeState) (locals : List LocalResource) (plan : List PlanOperation)
    (s : RuntimeState) : Prop where
  texts : ∀ operation ∈ plan, operation.isUpload = false →
    s.textDoc operation.key = t.textDoc operation.key
  held : ∀ operation ∈ plan, operation.isUpload = false → ∀ x ∈ t.commits,
    x.resource = operation.key → x ∈ s.commits
  kinds : ∀ resource ∈ locals, resource.kind = .text →
    s.kinds[resource.key.encoded]? = some .text

theorem Ready.steady (hr : Ready t locals plan s) (hs : Steady s u) : Ready t locals plan u where
  texts operation hop hup := by
    rw [RuntimeState.textDoc_of_commits hs.commits]
    exact hr.texts operation hop hup
  held operation hop hup x hx hres := by
    rw [hs.commits]
    exact hr.held operation hop hup x hx hres
  kinds resource hresource hkind := hs.kinds _ (hr.kinds resource hresource hkind)

theorem Reads.steady {x : Sync α} (hx : Reads x) : Comp.Within AnyCall Steady x :=
  Comp.Within.mono hx (fun _ _ => trivial) fun s _ e => e ▸ refl_of Steady s

theorem recordText_steady (key : ResourceKey) : Comp.Within AnyCall Steady (recordText key) :=
  .bind .get fun _ => .bind (.ofExcept _) fun _ => .modify fun _ => ⟨rfl, fun _ hk => hk⟩

theorem noteText_steady (key : ResourceKey) (selected : Option String) :
    Comp.Within AnyCall Steady (noteText key selected) := by
  refine .bind .get fun state => ?_
  split
  · refine .bind (recordText_steady key) fun _ => .modify fun s => ⟨rfl, fun name hk => ?_⟩
    dsimp only
    rw [Map.get?_insert]
    split
    · rfl
    · exact hk
  · exact .pure _

theorem applyOperation_steady (locals : List LocalResource) (tally : Tally)
    (operation : PlanOperation) :
    Comp.Within AnyCall Steady (applyOperation locals tally operation) := by
  unfold applyOperation
  split
  · exact .pure _
  · refine .bind (.bind .get fun _ => ?_) fun _ =>
      .bind (.modify fun _ => ⟨rfl, fun _ hk => hk⟩) fun _ => .pure _
    split
    · exact recordText_steady _
    · exact .pure _
  · exact .bind (.modify fun _ => ⟨rfl, fun _ hk => hk⟩) fun _ => .pure _
  · exact .bind (announceDownload_reads _).steady fun _ =>
      .bind (contentForRemote_reads _ _).steady fun _ =>
      .bind (applyMutation_same (fun _ => trivial) _ _ _) fun _ =>
      .bind (noteText_steady _ _) fun _ =>
      .bind (.modify fun _ => ⟨rfl, fun _ hk => hk⟩) fun _ => .pure _
  · exact .bind (applyMutation_same (fun _ => trivial) _ _ _) fun _ =>
      .bind (.modify fun _ => ⟨rfl, fun _ hk => hk⟩) fun _ => .pure _
  all_goals exact .pure _

theorem Keeping.imp {x : Sync α} {Q Q' : List SyncEvent → RuntimeState → α → Prop}
    (hx : Keeping T x Q h s) (hQ : ∀ h s a, Q h s a → Q' h s a) : Keeping T x Q' h s :=
  Comp.wp_imp hx fun _ _ _ ht => ⟨ht.1, hQ _ _ _ ht.2⟩

theorem Keeping.pure {a : α} {Q : List SyncEvent → RuntimeState → α → Prop}
    (hs : s.Matches TextId) (hQ : Q h s a) : Keeping T (pure a : Sync α) Q h s := ⟨hs, hQ⟩

/-- The document that is kept for a new baseline over text. -/
theorem RuntimeState.Matches.keep (hyrs : FullUpdates) (hs : s.Matches TextId) {key : ResourceKey}
    {doc : Yrs.Doc} {contentId version : String} {heads : List String}
    (hcontent : (∀ id ∈ heads, TextId id) → blake3 (textBytes (TextDoc.content doc)) = contentId)
    (kinds : Map String ResourceKind) :
    ({ s with
        textStates := s.textStates.insert key.encoded (TextDoc.fullUpdate doc)
        kinds }.setPresentBaseline key contentId version heads).Matches TextId := by
  refine hs.insert ⟨key, .present contentId version heads⟩ rfl (fun name hne => ?_) ?_
  · change (s.textStates.insert key.encoded (TextDoc.fullUpdate doc))[name]? = _
    rw [Map.get?_insert, if_neg hne.symm]
  · intro contentId' version' heads' hstate _ hall
    obtain ⟨rfl, rfl, rfl⟩ := BaselineState.present.inj hstate
    obtain ⟨doc', hread, hsame⟩ := hyrs doc
    refine ⟨_, doc', ?_, hread, by rw [hsame, hcontent hall]⟩
    change (s.textStates.insert key.encoded (TextDoc.fullUpdate doc))[key.encoded]? = _
    rw [Map.get?_insert, if_pos rfl]

/-- A baseline that is not over text needs no document. -/
theorem RuntimeState.Matches.present (hs : s.Matches TextId) {key : ResourceKey}
    {contentId version : String} {heads : List String}
    (hbinary : heads ≠ [] → ¬ ∀ id ∈ heads, TextId id) :
    (s.setPresentBaseline key contentId version heads).Matches TextId := by
  refine hs.insert ⟨key, .present contentId version heads⟩ rfl (fun _ _ => rfl) ?_
  intro contentId' version' heads' hstate hsome hall
  obtain ⟨rfl, rfl, rfl⟩ := BaselineState.present.inj hstate
  exact absurd hall (hbinary hsome)

omit [Crates] in
theorem mem_of_localStateOf {key : ResourceKey} {id : String} {size : Nat} {token : String}
    (hl : localStateOf locals key = .present id size token) :
    ∃ resource ∈ locals, resource.key = key := by
  rw [localStateOf] at hl
  cases hget : (localMap locals)[key]? with
  | none =>
    rw [hget] at hl
    cases hl
  | some resource =>
    obtain ⟨resource', hmem, he⟩ := List.mem_map.mp (Map.mem_of_get?_ofList hget)
    exact ⟨resource', hmem, (Prod.mk.inj he).1⟩

/-- What is merged of a plan are conflicts. -/
theorem Planned.of_op {operation : PlanOperation} (hp : Planned t locals operation)
    (hup : operation.isUpload = false) (hconflict : operation.isConflict = false) :
    ∃ l b r, Considers t locals operation.key l b r ∧
      planResource operation.key l b r = operation := by
  obtain ⟨l, b, r, hc, hop⟩ := hp
  refine ⟨l, b, r, hc, ?_⟩
  cases hplan : planResource operation.key l b r with
  | conflict record =>
    rw [hplan, mergeTextConflict] at hop
    split at hop
    · split at hop
      · rw [hop] at hup
        cases hup
      · rw [hop] at hconflict
        cases hconflict
    · rw [hop] at hconflict
      cases hconflict
  | _ => exact (hop.trans (congrArg _ hplan)).symm

variable {S : Setting} {published : List Commit}

/-- An operation of the plan leaves the baselines fitting. -/
theorem applyOperation_keeping (hcol : Collisionless) (hyrs : FullUpdates)
    (harch : Archive S published) (hpub : ∀ x ∈ t.commits, x ∈ published)
    (hkind : ∀ resource ∈ locals, resource.kind = S.kindOf resource.key)
    (hr : Ready t locals plan s) {operation : PlanOperation} (hop : operation ∈ plan)
    (hplan : Planned t locals operation) (hs : s.Matches TextId) (tally : Tally) :
    Keeping T (applyOperation locals tally operation) (fun _ _ _ => True) h s := by
  have hcreated : ∀ x ∈ t.commits, x.Created := fun x hx => harch.created x (hpub x hx)
  cases operation with
  | noop | upload | publishDelete | conflict => exact ⟨hs, trivial⟩
  | establishDeletedBaseline key heads => exact ⟨hs.deleted key heads, trivial⟩
  | applyDelete key localState heads =>
    refine (Leaves.keeping (applyMutation_same (fun _ => trivial) _ _ _) hs).bind ?_
    exact fun _ u _ hu _ => ⟨hu.deleted key heads, trivial⟩
  | establishBaseline key localState heads =>
    obtain ⟨l, b, r, hc, hplan⟩ := hplan.of_op rfl rfl
    obtain ⟨rfl, id, size, token, rsize, rfl, rfl⟩ := establishes_of_planResource hplan
    have htext := text_of_remoteState hcol hcreated hc.remote
    simp only [applyOperation, establishBaseline, keepText]
    refine Comp.wp_bind.mpr (Comp.wp_bind.mpr (Comp.wp_get.mpr
      (Comp.wp_ite.mpr ⟨fun _ => ?_, fun hnot => ?_⟩)))
    · refine Comp.wp_bind.mpr (Comp.wp_get.mpr (Comp.wp_bind.mpr
        (Comp.wp_ofExcept.mpr ⟨fun doc hdoc => ?_, fun _ _ => hs⟩)))
      refine ⟨hs.keep hyrs (fun hall => ?_) s.kinds, trivial⟩
      obtain ⟨⟨doc', hdoc', hid⟩, -⟩ := htext hall
      have hsame : t.textDoc key = .ok doc := (hr.texts _ hop rfl).symm.trans hdoc
      rw [Except.ok.inj (hsame.symm.trans hdoc')]
      exact hid
    · refine ⟨hs.present fun _ hall => hnot ?_, trivial⟩
      obtain ⟨-, hsome, hheads⟩ := htext hall
      obtain ⟨head, hhead⟩ := List.exists_mem_of_ne_nil _ hsome
      obtain ⟨x, hx, rfl, -, hist⟩ := hheads head hhead
      obtain ⟨resource, hmem, hkey⟩ := mem_of_localStateOf hc.locals.symm
      have hres : resource.kind = .text := by
        rw [hkind resource hmem, hkey]
        exact harch.kinds x (hpub x hx) hist
      have hk := hr.kinds resource hmem hres
      rwa [hkey] at hk
  | download key remote =>
    obtain ⟨l, b, r, hc, hplan⟩ := hplan.of_op rfl rfl
    obtain ⟨rfl, ⟨id, size, heads, rfl⟩, -⟩ := downloads_of_planResource hplan
    have htext := text_of_remoteState hcol hcreated hc.remote
    refine (Comp.Within.keeping (announceDownload_reads _) ?_ hs).bind ?_
    · exact fun s _ e => e ▸ refl_of SameTexts s
    rintro h₁ _ _ - rfl
    refine (Comp.Within.keeping (contentForRemote_reads _ _) ?_ hs).bind ?_
    · exact fun s _ e => e ▸ refl_of SameTexts s
    rintro h₂ _ data - rfl
    refine (Comp.Within.keeping (applyMutation_same (K := AnyCall) (R := Eq)
      (fun _ => trivial) _ _ _) ?_ hs).bind ?_
    · exact fun s _ e => e ▸ refl_of SameTexts s
    rintro h₃ _ result - rfl
    refine Comp.wp_bind.mpr (Comp.wp_bind.mpr (Comp.wp_get.mpr
      (Comp.wp_ite.mpr ⟨fun _ => ?_, fun hnot => ?_⟩)))
    · refine Comp.wp_bind.mpr (Comp.wp_bind.mpr (Comp.wp_get.mpr (Comp.wp_bind.mpr
        (Comp.wp_ofExcept.mpr ⟨fun doc hdoc => ?_, fun _ _ => hs⟩))))
      refine ⟨hs.keep hyrs (fun hall => ?_) _, trivial⟩
      obtain ⟨⟨doc', hdoc', hid⟩, -⟩ := htext hall
      have hsame : t.textDoc key = .ok doc := (hr.texts _ hop rfl).symm.trans hdoc
      rw [Except.ok.inj (hsame.symm.trans hdoc')]
      exact hid
    · refine ⟨hs.present fun hsome hall => hnot ?_, trivial⟩
      obtain ⟨-, -, hheads⟩ := htext hall
      obtain ⟨head, rest, rfl⟩ := List.exists_cons_of_ne_nil hsome
      obtain ⟨x, hx, hres, hid, hist⟩ := hheads head List.mem_cons_self
      have hin := hr.held _ hop rfl x hx hres
      simp [isTextCommit, RemoteResourceState.heads, ← hid, KeyedMap.mem_def.mp hin, hist]

end Operations

section Rounds

variable [Crates] {S : Setting} {published : List Commit} {versions : List (ResourceKey × File)}
variable {h : List SyncEvent} {s t : RuntimeState} {locals : List LocalResource}
variable {plan : List PlanOperation}

theorem runOperations_keeping {T : List SyncEvent → SyncEvent → List SyncEvent → Prop}
    (hcol : Collisionless) (hyrs : FullUpdates) (harch : Archive S published)
    (hpub : ∀ x ∈ t.commits, x ∈ published)
    (hkind : ∀ resource ∈ locals, resource.kind = S.kindOf resource.key)
    (hplan : ∀ operation ∈ plan, Planned t locals operation) (hr : Ready t locals plan s)
    (hs : s.Matches TextId) (tally : Tally) :
    Keeping T (plan.foldlM (runOperation locals) tally) (fun _ _ _ => True) h s := by
  refine Comp.wp_imp (Comp.wp_foldlM (fun rest _ u _ => u.Matches TextId ∧ Ready t locals plan u ∧
    ∀ operation ∈ rest, operation ∈ plan) ?_ ⟨hs, hr, fun _ hop => hop⟩)
    fun _ _ _ hu => ⟨hu.1, trivial⟩
  rintro operation rest h₁ u tally ⟨hu, hready, hrest⟩
  have hop : operation ∈ plan := hrest operation List.mem_cons_self
  have hsteady : Comp.wp T (fun _ _ _ => True) (fun _ v _ => Steady u v)
      (applyOperation locals tally operation) (fun _ v _ => Steady u v) h₁ u :=
    (applyOperation_steady locals tally operation).wp (J := fun _ v => Steady u v)
      (fun _ _ _ hj hr => trans_of Steady hj hr) (fun _ _ _ _ _ => trivial)
      (fun _ _ _ _ _ hj _ _ => hj) (refl_of Steady u)
  rw [runOperation, Comp.wp_bind, Comp.wp_attempt]
  have hafter : ∀ {h₂ v} (next : Tally), v.Matches TextId → Steady u v →
      Comp.wp T (fun _ s _ => s.Matches TextId) (fun _ s _ => s.Matches TextId)
        (do Sync.saveRuntimeState; return next)
        (fun _ u _ => u.Matches TextId ∧ Ready t locals plan u ∧
          ∀ operation ∈ rest, operation ∈ plan) h₂ v := by
    intro h₂ v next hv hsteady
    refine Comp.wp_bind.mpr (Comp.wp_request.mpr ⟨hv, fun r h₃ _ => ⟨fun _ _ => ?_, fun _ _ => hv⟩⟩)
    exact ⟨hv, hready.steady hsteady, fun op ho => hrest op (List.mem_cons_of_mem _ ho)⟩
  refine Comp.wp_mono (Comp.wp_both (applyOperation_keeping hcol hyrs harch hpub hkind hready hop
    (hplan operation hop) hu tally) hsteady) ?_ ?_
  · exact fun _ v e hv => hafter (tally.fail operation.key.scopeId) hv.1 hv.2
  · exact fun _ v a hv => hafter a hv.1.1 hv.2

/-- Recording the commits of a batch, each of which is the only head of its resource. -/
theorem afterCommits_keeping {T : List SyncEvent → SyncEvent → List SyncEvent → Prop}
    (hcol : Collisionless) (hyrs : FullUpdates) (harch : Archive S published)
    (hpub : ∀ x ∈ s.commits, x ∈ published) {commits : List Commit}
    (hcommits : ∀ x ∈ commits, x ∈ published) (hnodup : (commits.map Commit.resource).Nodup)
    (hparents : ∀ x ∈ commits, x.parents = sortDedup (s.heads x.resource))
    (hs : s.Matches TextId) (tally : Tally) :
    Keeping T (commits.foldlM (afterCommit locals) tally) (fun _ u _ =>
      u.commits = s.commits.insertAll commits ∧ u.kinds = s.kinds) h s := by
  have ids : ∀ x ∈ published, ∀ y ∈ published, y.id = x.id → y = x := fun x hx y hy e =>
    (harch.created y hy).ext hcol (harch.created x hx) e
  refine Comp.wp_imp (Comp.wp_foldlM (fun rest _ u _ => u.Matches TextId ∧ u.kinds = s.kinds ∧
    ∃ done, commits = done ++ rest ∧ u.commits = s.commits.insertAll done) ?_
    ⟨hs, rfl, [], rfl, rfl⟩) ?_
  · rintro x rest h₁ u tally ⟨hu, hkinds, done, hlist, hdone⟩
    have hmem : x ∈ commits := hlist ▸ List.mem_append_right _ List.mem_cons_self
    have hnew : (u.commits.insert x) = s.commits.insertAll (done ++ [x]) := by
      rw [hdone, KeyedMap.insertAll_append]
      rfl
    have hheads : ({ u with commits := u.commits.insert x } : RuntimeState).heads x.resource =
        [x.id] := by
      refine harch.grounded.only_head ids hpub ?_ hnew (fun y hy hres => ?_) (hparents x hmem)
        (KeyedMap.mem_insert.mpr (Or.inl rfl))
      · intro y hy
        refine hcommits y ?_
        rw [hlist]
        simp only [List.mem_append, List.mem_cons, List.not_mem_nil, or_false] at hy ⊢
        tauto
      · rcases List.mem_append.mp hy with hy | hy
        · rw [hlist, List.map_append, List.map_cons, List.nodup_append] at hnodup
          exact absurd hres (hnodup.2.2 _ (List.mem_map_of_mem hy) _ List.mem_cons_self)
        · exact List.mem_singleton.mp hy
    have hu' : ({ u with commits := u.commits.insert x } : RuntimeState).Matches TextId :=
      hu.same ⟨rfl, rfl⟩
    have hrest : commits = (done ++ [x]) ++ rest := by
      rw [hlist]
      simp
    rw [afterCommit]
    refine Comp.wp_bind.mpr (Comp.wp_modify.mpr (Comp.wp_bind.mpr (Comp.wp_get.mpr ?_)))
    rw [hheads]
    have hbinary : x.change.isText = false → ¬ ∀ id ∈ [x.id], TextId id := by
      intro hbin hall
      have htext := hall _ (List.mem_singleton_self _)
      rw [(harch.created x (hcommits x hmem)).isText hcol htext] at hbin
      cases hbin
    split
    · exact ⟨hu'.deleted _ _, hkinds, _, hrest, hnew⟩
    · next hchange =>
      refine ⟨hu'.present fun _ => hbinary ?_, hkinds, _, hrest, hnew⟩
      rw [hchange]
      rfl
    · rw [writeBack]
      refine Comp.wp_bind.mpr (Comp.wp_get.mpr (Comp.wp_bind.mpr
        (Comp.wp_ofExcept.mpr ⟨fun doc hdoc => ?_, fun _ _ => hu'⟩)))
      refine Comp.wp_bind.mpr (Comp.wp_request.mpr
        ⟨hu', fun r h₂ _ => ⟨fun results _ => ?_, fun _ _ => hu'⟩⟩)
      split
      · exact ⟨hu'.keep hyrs (fun _ => rfl) _, hkinds, _, hrest, hnew⟩
      · exact ⟨hu', hkinds, _, hrest, hnew⟩
  · rintro h₁ u tally ⟨hu, hkinds, done, hlist, hdone⟩
    rw [List.append_nil] at hlist
    exact ⟨hu, hlist ▸ hdone, hkinds⟩

theorem publishBatch_keeping (hcol : Collisionless) (hyrs : FullUpdates)
    (harch : Archive S published) (hpub : ∀ x ∈ s.commits, x ∈ published) {round : Round}
    {batch : CommitBatch} (hround : round.Publishes S versions h s batch)
    (hs : s.Matches TextId) (tally : Tally) :
    Keeping (Prog.fairly (Fair S published versions)) (publishBatch locals batch tally)
      (fun _ u _ => u.kinds = s.kinds ∧ ∃ xs, u.commits = s.commits.insertAll xs ∧
        ∀ x ∈ xs, x ∈ published ∧ ∃ operation ∈ round.plan, operation.isUpload = true ∧
          x.resource = operation.key) h s := by
  rw [publishBatch]
  split
  · exact ⟨hs, rfl, [], rfl, by simp⟩
  refine Comp.wp_bind.mpr (Comp.wp_request.mpr ⟨hs, ?_⟩)
  rintro r _ ⟨rfl, hfair⟩
  refine ⟨fun _ hr => ?_, fun _ _ => hs⟩
  obtain rfl : r = .ok () := hr
  have hcommits : ∀ x ∈ batch.commits, x ∈ published := hfair
  refine (afterCommits_keeping hcol hyrs harch hpub hcommits (hround.keys.sublist hround.order)
    (fun x hx => ?_) hs tally).bind ?_
  · obtain ⟨operation, -, -, hup⟩ := hround.uploaded x hx
    rw [hup.parents, hup.resource]
  · rintro h₁ u tally' hu ⟨hcommits', hkinds⟩
    refine Comp.wp_bind.mpr (Comp.wp_request.mpr ⟨hu, fun _ _ _ => ⟨fun _ _ => ?_, fun _ _ => hu⟩⟩)
    refine ⟨hu, hkinds, batch.commits, hcommits', fun x hx => ⟨hcommits x hx, ?_⟩⟩
    obtain ⟨operation, hop, hup, huploaded⟩ := hround.uploaded x hx
    exact ⟨operation, hop, hup, huploaded.resource⟩

theorem execute_keeping (hcol : Collisionless) (hyrs : FullUpdates) (harch : Archive S published)
    (hpub : ∀ x ∈ s.commits, x ∈ published) (rt : SyncRuntime) (request : SyncRequest)
    {scopes : List String} (hinv : Inventoried S scopes locals)
    (hkinds : ∀ resource ∈ locals, resource.kind = .text →
      s.kinds[resource.key.encoded]? = some .text)
    (hkeys : (plan.map PlanOperation.key).Nodup)
    (hplan : ∀ operation ∈ plan, Planned s locals operation) (hs : s.Matches TextId) :
    Keeping (Prog.fairly (Fair S published versions)) (execute rt request locals plan)
      (fun _ _ _ => True) h s := by
  have hstart : Comp.Within Quiet SameBase (startRun request plan) :=
    .bind (.modify fun _ => ⟨⟨rfl, rfl, le_rfl⟩, rfl, rfl, rfl⟩) fun _ =>
      .request (by exact trivial) _
  have ids : ∀ x ∈ published, ∀ y ∈ published, y.id = x.id → y = x := fun x hx y hy e =>
    (harch.created y hy).ext hcol (harch.created x hx) e
  refine (Comp.Within.keeping hstart (fun _ _ => SameBase.texts) hs).bind ?_
  intro h₁ s₁ _ hs₁ hsame
  refine Keeping.bind (Q := fun _ u _ => u.kinds = s.kinds ∧ ∃ xs,
    u.commits = s.commits.insertAll xs ∧ ∀ x ∈ xs, x ∈ published ∧ ∃ operation ∈ plan,
      operation.isUpload = true ∧ x.resource = operation.key) ?_ ?_
  · refine runUploads_round rt _ hinv hkeys h₁ s₁ ?_ (fun _ s' _ hb _ => hs₁.same hb.texts)
      (fun _ s' _ hb => hs₁.same hb.texts) ?_
    · intro operation hop
      obtain ⟨l, b, r, hc, e⟩ := hplan operation hop
      exact ⟨l, b, r, hc.congr hsame, e⟩
    · rintro round h₂ s₂ batch tally rfl hb hround
      have hcommits : s₂.commits = s.commits := hb.commits.trans hsame.commits
      refine Comp.wp_imp (publishBatch_keeping hcol hyrs harch (hcommits ▸ hpub) hround
        (hs₁.same hb.texts) tally) ?_
      rintro _ u _ ⟨hu, hk, xs, hxs, hup⟩
      exact ⟨hu, hk.trans (hb.kinds.trans hsame.kinds), xs, hcommits ▸ hxs, hup⟩
  · rintro h₂ u tally hu ⟨hk, xs, hxs, hup⟩
    -- the uploads were of other resources
    have hother : ∀ operation ∈ plan, operation.isUpload = false → ∀ x : Commit,
        x.resource = operation.key → (x ∈ u.commits ↔ x ∈ s.commits) := by
      intro operation hop hnot x hres
      rw [hxs, KeyedMap.mem_insertAll (fun v hv y hy => ids v (hup v hv).1 y (hpub y hy))
        fun v hv y hy => ids v (hup v hv).1 y (hup y hy).1]
      refine ⟨fun hx => hx.resolve_right fun hin => ?_, Or.inl⟩
      obtain ⟨-, other, ho, hisup, hkey⟩ := hup x hin
      obtain rfl := List.inj_on_of_nodup_map hkeys ho hop (hkey.symm.trans hres)
      rw [hisup] at hnot
      cases hnot
    have hready : Ready s locals plan u := by
      refine ⟨fun operation hop hnot => ?_, fun operation hop hnot x hx hres => ?_, ?_⟩
      · exact RuntimeState.textDoc_congr fun x hres _ => hother operation hop hnot x hres
      · exact (hother operation hop hnot x hres).mpr hx
      · rw [hk]
        exact hkinds
    refine (runOperations_keeping hcol hyrs harch hpub (fun r hr => (hinv r hr).2) hplan hready hu
      tally).bind fun h₃ v tally' hv _ => ?_
    have hrest : Leaves (do
        acknowledgePlan rt plan
        Comp.modify fun state => { state with activeRun := none }
        Sync.saveRuntimeState
        return { tally'.report with scopes := reportScopes request plan tally'.failures } :
          Sync SyncReport) :=
      .bind (.bind .get fun _ => .request trivial _) fun _ =>
      .bind (.modify fun _ => ⟨rfl, rfl⟩) fun _ =>
        .bind (.request trivial _) fun _ => .pure _
    exact hrest.keeping hv

omit [Crates] in
/-- The kind that is recorded under a name that all resources agree on. -/
theorem get?_foldl_insert_kind {kinds : Map String ResourceKind} {name : String}
    {kind : ResourceKind} (hall : ∀ resource ∈ locals, resource.key.encoded = name →
      resource.kind = kind)
    (hsome : kinds[name]? = some kind ∨ ∃ resource ∈ locals, resource.key.encoded = name) :
    (locals.foldl (fun m resource => m.insert resource.key.encoded resource.kind)
      kinds)[name]? = some kind := by
  induction locals generalizing kinds with
  | nil => exact hsome.resolve_right fun ⟨_, hr, _⟩ => absurd hr List.not_mem_nil
  | cons first rest ih =>
    refine ih (fun resource hr => hall resource (List.mem_cons_of_mem _ hr)) ?_
    by_cases hname : first.key.encoded = name
    · refine Or.inl ?_
      rw [Map.get?_insert, if_pos hname, hall first List.mem_cons_self hname]
    · refine hsome.imp (fun hget => ?_) fun ⟨resource, hr, he⟩ => ?_
      · rwa [Map.get?_insert, if_neg hname]
      · exact ⟨resource, (List.mem_cons.mp hr).resolve_left fun e => hname (e ▸ he), he⟩

theorem refreshRemote_published (hpub : ∀ x ∈ s.commits, x ∈ published) (scopes : List String) :
    Comp.wp (Prog.fairly (Fair S published versions)) (fun _ _ _ => True) (fun _ _ _ => True)
      (refreshRemote scopes) (fun _ u _ => ∀ x ∈ u.commits, x ∈ published) h s := by
  rw [refreshRemote, Comp.wp_bind, Comp.wp_get, Comp.wp_bind]
  refine Comp.wp_request.mpr ⟨trivial, fun _ _ _ => ⟨fun delta _ => ?_, fun _ _ => trivial⟩⟩
  rw [Comp.wp_bind, Comp.wp_modify, Comp.wp_bind, Comp.wp_get, Comp.wp_bind]
  refine Comp.wp_request.mpr ⟨trivial, ?_⟩
  rintro r _ ⟨rfl, hfair⟩
  refine ⟨fun commits hr x hx => ?_, fun _ _ => trivial⟩
  obtain rfl : r = .ok commits := hr
  rcases KeyedMap.mem_of_mem_insertAll hx with hx | hx
  · exact hpub x hx
  · exact hfair.1 x hx

/-- Kinds go by the names that resources are recorded under. -/
def Setting.Named (S : Setting) : Prop :=
  ∀ key key' : ResourceKey, key.encoded = key'.encoded → S.kindOf key = S.kindOf key'

theorem reconcile_keeping (hcol : Collisionless) (hyrs : FullUpdates) (hnamed : S.Named)
    (harch : Archive S published) (hpub : ∀ x ∈ s.commits, x ∈ published) (rt : SyncRuntime)
    (request : SyncRequest) (hs : s.Matches TextId) :
    Keeping (Prog.fairly (Fair S published versions)) (Rollforward.reconcile rt request)
      (fun _ _ _ => True) h s := by
  rw [Rollforward.reconcile]
  refine Comp.wp_bind.mpr (Comp.wp_modify.mpr ?_)
  refine Keeping.bind (Q := fun _ u _ => ∀ x ∈ u.commits, x ∈ published) ?_ ?_
  · have hkeep : Keeping (Prog.fairly (Fair S published versions)) (refreshRemote request.scopes)
        (fun _ _ _ => True) h { s with activeRun := none } :=
      Leaves.keeping (anyCall (refreshRemote_aloof sameTexts_aloof request.scopes)) (hs.same ⟨rfl, rfl⟩)
    refine Comp.wp_imp (Comp.wp_and hkeep (refreshRemote_published
      (s := { s with activeRun := none }) hpub request.scopes)) fun _ _ _ hu => ⟨hu.1.1, hu.2⟩
  intro h₁ s₁ _ hs₁ hpub₁
  refine Keeping.bind (Q := fun _ u _ => Steady s₁ u) ?_ ?_
  · have hsteady : Comp.wp (Prog.fairly (Fair S published versions)) (fun _ _ _ => True)
        (fun _ u _ => Steady s₁ u) (snapshotLargeCatalogs rt) (fun _ u _ => Steady s₁ u) h₁ s₁ :=
      (snapshotLargeCatalogs_within (fun _ _ => ⟨rfl, fun _ hk => hk⟩) rt).wp
        (J := fun _ u => Steady s₁ u) (fun _ _ _ hj hr => trans_of Steady hj hr)
        (fun _ _ _ _ _ => trivial) (fun _ _ _ _ _ hj _ _ => hj) (refl_of Steady s₁)
    have hleaves : Leaves (snapshotLargeCatalogs rt) :=
      anyCall (snapshotLargeCatalogs_within (fun _ _ => ⟨rfl, rfl⟩) rt)
    exact Comp.wp_imp (Comp.wp_and (hleaves.keeping hs₁) hsteady) fun _ _ _ hu => ⟨hu.1.1, hu.2⟩
  intro h₂ s₂ _ hs₂ hsteady
  refine Keeping.bind (Q := fun _ u locals => SameBase s₂ u ∧ Inventoried S request.scopes locals)
    ?_ ?_
  · refine Comp.wp_imp (Comp.wp_and
      ((localInventory_reads request.scopes).prepares.keeping hs₂)
      (localInventory_inventoried (C := fun _ _ _ => True) (fun _ _ _ _ => trivial) h₂ s₂)) ?_
    exact fun _ _ _ hu => ⟨hu.1.1, hu.1.2, hu.2.2.2⟩
  rintro h₃ s₃ locals hs₃ ⟨hsame, hinv⟩
  refine Comp.wp_bind.mpr (Comp.wp_modify.mpr (Comp.wp_bind.mpr (Comp.wp_get.mpr
    (Comp.wp_bind.mpr (Comp.wp_ofExcept.mpr ⟨fun plan hplan => ?_, fun _ _ => ?_⟩)))))
  · refine execute_keeping hcol hyrs harch (fun x hx => hpub₁ x ?_) rt request hinv ?_
      (buildPlan_nodup hplan) (fun operation hop =>
        mem_buildPlan hplan (fun r hr => (hinv r hr).1) hop) (hs₃.same ⟨rfl, rfl⟩)
    · rw [← hsteady.commits, ← hsame.commits]
      exact hx
    · intro resource hr htext
      refine get?_foldl_insert_kind (fun other ho hname => ?_) (Or.inr ⟨resource, hr, rfl⟩)
      rw [(hinv other ho).2, hnamed _ _ hname, ← (hinv resource hr).2, htext]
  · exact hs₃.same ⟨rfl, rfl⟩

end Rounds

section Choices

variable [Crates] {S : Setting} {published : List Commit} {versions : List (ResourceKey × File)}
variable {h : List SyncEvent} {s t : RuntimeState}

/-- The footprint of what asks around and leaves the memory as it is. -/
def Aside (x : Sync α) : Prop := Comp.Within AnyCall Eq x

theorem Reads.aside {x : Sync α} (hx : Reads x) : Aside x :=
  Comp.Within.mono hx (fun _ _ => trivial) fun _ _ e => e

theorem removeLocal_aside (key : ResourceKey) (current : ReplicaState) (refusal : Refusal) :
    Aside (removeLocal key current refusal) := by
  unfold removeLocal
  split
  · exact .pure _
  · exact .bind (applyMutation_same (fun _ => trivial) _ _ _) fun _ => .pure _

theorem preserveCopy_aside (key : ResourceKey) (preserved : PreservedVersion) :
    Aside (preserveCopy key preserved) := by
  refine .bind ?_ fun _ => .bind (applyMutation_same (fun _ => trivial) _ _ _) fun _ => .pure _
  unfold preservedData
  split
  · exact .bind (readOne_reads key).aside fun _ => .pure _
  · exact (contentForRemote_reads _ _).aside
  · exact .throw _

theorem Aside.keeping {T : List SyncEvent → SyncEvent → List SyncEvent → Prop} {x : Sync α}
    (hx : Aside x) (hs : s.Matches TextId) : Keeping T x (fun _ u _ => s = u) h s := by
  refine Comp.Within.keeping hx ?_ hs
  rintro _ _ rfl
  exact refl_of SameTexts _

/-- The memory holds published commits alone. -/
def Archived (published : List Commit) (u : RuntimeState) : Prop := ∀ y ∈ u.commits, y ∈ published

/-- A commit without text is published. -/
theorem publishCommit_keeping (hcol : Collisionless) (hpub : Archived published s)
    (hs : s.Matches TextId) (rt : SyncRuntime) (key : ResourceKey) (parents : List String)
    (counter : Nat) {change : ResourceChange} (hchange : change.isText = false)
    (batch : CommitBatch) :
    Keeping (Prog.fairly (Fair S published versions))
      (publishCommit rt key parents counter change batch)
      (fun _ u x => ¬ TextId x.id ∧ Archived published u) h s := by
  rw [publishCommit]
  refine Comp.wp_bind.mpr (Comp.wp_request.mpr ⟨hs, ?_⟩)
  rintro now _ -
  refine ⟨fun now _ => ?_, fun _ _ => hs⟩
  refine Comp.wp_bind.mpr (Comp.wp_request.mpr ⟨hs, ?_⟩)
  rintro r _ ⟨rfl, hfair⟩
  refine ⟨fun _ hr => ?_, fun _ _ => hs⟩
  obtain rfl : r = .ok () := hr
  have hnew := hfair _ List.mem_cons_self
  refine Comp.wp_bind.mpr (Comp.wp_modify.mpr ⟨hs.same ⟨rfl, rfl⟩, fun htext => ?_, fun y hy => ?_⟩)
  · have hcreated : (Commit.create key parents rt.clientId counter now change).Created :=
      ⟨_, _, _, _, _, _, rfl⟩
    have hist : change.isText = true := hcreated.isText hcol htext
    rw [hchange] at hist
    cases hist
  · rcases KeyedMap.mem_insert.mp hy with rfl | hy
    · exact hnew
    · exact hpub y hy.1

theorem publishBytes_keeping (hcol : Collisionless) (hpub : Archived published s)
    (hs : s.Matches TextId) (rt : SyncRuntime) (key : ResourceKey) (data : Bytes)
    (parents : List String) :
    Keeping (Prog.fairly (Fair S published versions)) (publishBytes rt key .binary data parents)
      (fun _ u x => ¬ TextId x.id ∧ Archived published u) h s := by
  have hu : RuntimeState.Matches { s with counter := s.counter + 1 } TextId :=
    hs.same ⟨rfl, rfl⟩
  refine Comp.wp_bind.mpr (Comp.wp_bind.mpr (Comp.wp_modify.mpr (Comp.wp_bind.mpr
    (Comp.wp_get.mpr (Comp.wp_bind.mpr ?_)))))
  refine Comp.wp_bind.mpr (Comp.wp_request.mpr ⟨hu, fun _ _ _ => ⟨fun _ _ => ?_, fun _ _ => hu⟩⟩)
  have hsnapshot : (binarySnapshot data).isText = false := rfl
  refine Comp.wp_pure.mpr (publishCommit_keeping hcol ?_ hu rt key parents _ hsnapshot _)
  exact hpub

theorem publishDelete_keeping (hcol : Collisionless) (hpub : Archived published s)
    (hs : s.Matches TextId) (rt : SyncRuntime) (key : ResourceKey) (parents : List String) :
    Keeping (Prog.fairly (Fair S published versions)) (publishDelete rt key parents)
      (fun _ u _ => Archived published u) h s := by
  refine Keeping.bind (Q := fun _ u _ => u.commits = s.commits) ⟨hs.same ⟨rfl, rfl⟩, rfl⟩ ?_
  intro _ u counter hu hcommits
  refine Comp.wp_imp (publishCommit_keeping hcol ?_ hu rt key parents counter rfl _)
    fun _ _ _ hx => ⟨hx.1, hx.2.2⟩
  rw [Archived, hcommits]
  exact hpub

theorem commitDelete_keeping (hcol : Collisionless) (hpub : Archived published s)
    (hs : s.Matches TextId) (rt : SyncRuntime) (key : ResourceKey) (current : ReplicaState)
    (parents : List String) (refusal : Refusal) :
    Keeping (Prog.fairly (Fair S published versions))
      (commitDelete rt key current parents refusal) (fun _ u _ => Archived published u) h s := by
  refine ((removeLocal_aside key current refusal).keeping hs).bind ?_
  rintro _ _ _ - rfl
  refine (publishDelete_keeping hcol hpub hs rt key parents).bind fun _ u x hu hpub => ?_
  exact ⟨hu.deleted key [x.id], hpub⟩

/-- A baseline over a commit that is no text. -/
theorem setBaseline_keeping {T : List SyncEvent → SyncEvent → List SyncEvent → Prop}
    (hs : s.Matches TextId) (hpub : Archived published s) {x : Commit} (hx : ¬ TextId x.id)
    (key : ResourceKey) (contentId version : String) :
    Keeping T (Comp.modify fun state => state.setPresentBaseline key contentId version [x.id])
      (fun _ u _ => Archived published u) h s :=
  ⟨hs.present fun _ hall => hx (hall _ (List.mem_singleton_self _)), hpub⟩

theorem commitContent_keeping (hcol : Collisionless) (hpub : Archived published s)
    (hs : s.Matches TextId) (rt : SyncRuntime) (key : ResourceKey) (head : String)
    {change : ResourceChange} (hchange : change.isText = false) (current : ReplicaState)
    (parents : List String) (refusal : Refusal) :
    Keeping (Prog.fairly (Fair S published versions))
      (commitContent rt key head change current parents refusal)
      (fun _ u _ => Archived published u) h s := by
  refine ((contentForRemote_reads key (some head)).aside.keeping hs).bind ?_
  rintro _ _ data - rfl
  refine (Aside.keeping (applyMutation_same (fun _ => trivial) _ _ _) hs).bind ?_
  rintro _ _ result - rfl
  rw [hchange]
  refine (publishBytes_keeping hcol hpub hs rt key data parents).bind ?_
  exact fun _ u x hu hx => setBaseline_keeping hu hx.2 hx.1 key _ _

theorem commitVersion_keeping (hcol : Collisionless) (hpub : Archived published s)
    (hs : s.Matches TextId) (rt : SyncRuntime) (key : ResourceKey) {selected : Commit}
    (hselected : selected.change.isText = false) (current : ReplicaState) (parents : List String)
    (delete write : Refusal) :
    Keeping (Prog.fairly (Fair S published versions))
      (commitVersion rt key selected current parents delete write)
      (fun _ u _ => Archived published u) h s := by
  unfold commitVersion
  split
  · exact commitDelete_keeping hcol hpub hs rt key current parents delete
  · exact commitContent_keeping hcol hpub hs rt key _ hselected current parents write

/-- The version that a command chooses is not a text. -/
def Command.Textless (S : Setting) (s : RuntimeState) : Command → Prop
  | .resolve ⟨conflictId, .ours, _⟩ =>
    ∀ record ∈ s.conflicts.get? conflictId, S.kindOf record.resource = .binary
  | .resolve ⟨_, .remote commitId, _⟩ | .rollback ⟨_, commitId⟩ =>
    ∀ x ∈ s.commits.get? commitId, x.change.isText = false
  | _ => True

theorem resolve_keeping (hcol : Collisionless) (hyrs : FullUpdates) (hnamed : S.Named)
    (harch : Archive S published) (hpub : Archived published s) (rt : SyncRuntime)
    (request : ResolveConflictRequest) (hchoice : (Command.resolve request).Textless S s)
    (hs : s.Matches TextId) :
    Keeping (Prog.fairly (Fair S published versions)) (Rollforward.resolve rt request)
      (fun _ _ _ => True) h s := by
  obtain ⟨conflictId, primary, preserved⟩ := request
  refine Comp.wp_bind.mpr (Comp.wp_get.mpr ?_)
  split
  · exact hs
  next record hrecord =>
  dsimp only
  split
  · exact (staleConflict_leaves _).keeping hs
  refine ((currentState_reads record.resource).aside.keeping hs).bind ?_
  rintro _ _ current - rfl
  refine Comp.wp_ite.mpr ⟨fun _ => (staleConflict_leaves _).keeping hs, fun _ => ?_⟩
  have hcopies : Aside (preserved.foldlM
      (fun _ preserved => preserveCopy record.resource preserved) ()) :=
    .foldlM (fun _ preserved => preserveCopy_aside record.resource preserved) _ _
  refine (hcopies.keeping hs).bind ?_
  rintro _ _ _ - rfl
  refine Keeping.bind (Q := fun _ u _ => Archived published u) ?_ ?_
  · cases primary with
    | ours =>
      refine Comp.wp_bind.mpr (Comp.wp_imp (Comp.wp_and
        ((readOne_reads record.resource).aside.keeping hs) (readOne_kind record.resource _ s)) ?_)
      rintro _ _ content ⟨-, rfl, hkind⟩
      rw [hchoice record hrecord] at hkind
      rw [hkind]
      refine (publishBytes_keeping hcol hpub hs rt record.resource content.data _).bind ?_
      exact fun _ u x hu hx => setBaseline_keeping hu hx.2 hx.1 _ _ _
    | delete => exact commitDelete_keeping hcol hpub hs rt _ current _ resolveDelete
    | remote commitId =>
      simp only [choosePrimary]
      split
      · exact hs
      refine Comp.wp_bind.mpr (Comp.wp_get.mpr ?_)
      split
      · exact hs
      next hselected =>
      exact commitVersion_keeping hcol hpub hs rt _ (hchoice _ hselected) current _ _ _
  intro _ u _ hu hpub
  refine Comp.wp_bind.mpr (Comp.wp_modify.mpr (Comp.wp_bind.mpr (Comp.wp_request.mpr
    ⟨hu.same ⟨rfl, rfl⟩, fun _ _ _ => ⟨fun _ _ => ?_, fun _ _ => hu.same ⟨rfl, rfl⟩⟩⟩)))
  refine reconcile_keeping hcol hyrs hnamed harch ?_ rt _ (hu.same ⟨rfl, rfl⟩)
  exact hpub

theorem rollback_keeping (hcol : Collisionless) (hyrs : FullUpdates) (hnamed : S.Named)
    (harch : Archive S published) (hpub : Archived published s) (rt : SyncRuntime)
    (request : RollbackRequest) (hchoice : (Command.rollback request).Textless S s)
    (hs : s.Matches TextId) :
    Keeping (Prog.fairly (Fair S published versions)) (Rollforward.rollback rt request)
      (fun _ _ _ => True) h s := by
  obtain ⟨key, commitId⟩ := request
  refine Comp.wp_bind.mpr (Comp.wp_get.mpr ?_)
  split
  · exact hs
  next selected hselected =>
  have hplain := hchoice selected (Option.filter_eq_some_iff.mp hselected).1
  refine ((currentState_reads key).aside.keeping hs).bind ?_
  rintro _ _ current - rfl
  refine (commitVersion_keeping hcol hpub hs rt key hplain current _ _ _).bind ?_
  intro _ u _ hu hpub
  refine Comp.wp_bind.mpr (Comp.wp_request.mpr ⟨hu, fun _ _ _ => ⟨fun _ _ => ?_, fun _ _ => hu⟩⟩)
  exact reconcile_keeping hcol hyrs hnamed harch hpub rt _ hu

/-- A command keeps the baselines fitting if it chooses no text. -/
theorem Command.run_keeping (hcol : Collisionless) (hyrs : FullUpdates) (hnamed : S.Named)
    (harch : Archive S published) (hpub : Archived published s) (rt : SyncRuntime)
    {command : Command} (hchoice : command.Textless S s) (hs : s.Matches TextId) :
    (command.run rt s).Meets (Prog.fairly (Fair S published versions))
      (fun _ s _ => s.Matches TextId) (fun _ s _ => s.Matches TextId) h := by
  have hunit : ∀ {α : Type} {x : Sync α}, Keeping (Prog.fairly (Fair S published versions)) x
      (fun _ _ _ => True) h s → Keeping (Prog.fairly (Fair S published versions))
      (do let _ ← x; return () : Sync Unit) (fun _ _ _ => True) h s :=
    fun hx => hx.bind fun _ _ _ hu _ => ⟨hu, trivial⟩
  have hrun : Keeping (Prog.fairly (Fair S published versions)) (command.run rt)
      (fun _ _ _ => True) h s := by
    cases command with
    | reconcile request =>
      exact hunit (reconcile_keeping hcol hyrs hnamed harch hpub rt request hs)
    | resolve request =>
      exact hunit (resolve_keeping hcol hyrs hnamed harch hpub rt request hchoice hs)
    | rollback request =>
      exact hunit (rollback_keeping hcol hyrs hnamed harch hpub rt request hchoice hs)
    | maintain request => exact hunit (Leaves.keeping (maintain_aloof sameTexts_aloof rt request) hs)
    | retireClient clientId =>
      refine Leaves.keeping (.bind (.modify fun _ => ⟨rfl, rfl⟩) fun _ => ?_) hs
      exact .request trivial _
  refine Prog.Meets.imp hrun (fun _ _ _ hc => hc) ?_
  rintro _ u (e | a) hu
  · exact hu
  · exact hu.1

end Choices

section Worlds

variable [Crates] {S : Setting} {w w' : World} {c : String} {ok : World → Label → Prop}

/-- No `resolve` and no `rollback` is started to choose a text version. -/
def World.Textless (S : Setting) (w : World) : Label → Prop
  | .start c command => command.Textless S (w.memory c)
  | _ => True

instance (S : Setting) (s : RuntimeState) : DecidablePred (Command.Textless S s) := fun command =>
  decidable_of_iff ((match command with
    | .resolve ⟨conflictId, .ours, _⟩ =>
      decide (∀ record ∈ s.conflicts.get? conflictId, S.kindOf record.resource = .binary)
    | .resolve ⟨_, .remote commitId, _⟩ | .rollback ⟨_, commitId⟩ =>
      decide (∀ x ∈ s.commits.get? commitId, x.change.isText = false)
    | _ => true) = true) <| by
    unfold Command.Textless
    split <;> simp

instance (S : Setting) (w : World) : DecidablePred (World.Textless S w) := fun l =>
  decidable_of_iff ((match l with
    | .start c command => decide (command.Textless S (w.memory c))
    | _ => true) = true) <| by
    unfold World.Textless
    split <;> simp

/-- What a client saved fits, and so does what its call began with. -/
structure Client.Fitting (S : Setting) (client : Client) : Prop where
  store : client.store.Matches TextId
  before : client.before.Matches TextId
  command : ∀ command, client.command = some command → command.Textless S client.before

/-- The memory fits all through the call. -/
theorem Client.Fitting.memory (hcol : Collisionless) (hyrs : FullUpdates) (hnamed : S.Named)
    (hw : w.Reachable S ok) (h : (w.clients c).Fitting S) :
    (w.clients c).memory.Matches TextId := by
  cases hcommand : (w.clients c).command with
  | none =>
    have hresumes := (hw.relies c).resumes
    rw [Client.Resumes, hcommand] at hresumes
    obtain ⟨-, r, hp⟩ := hresumes
    rw [Client.memory, hp]
    exact h.before
  | some command =>
    have hmeets := hw.relies.call hcommand (Command.run_keeping (h := []) hcol hyrs hnamed
      (hw.archive hcol) (hw.inv.clients c).before ⟨c, S.policy c⟩ (h.command command hcommand)
      h.before) fun _ _ hfair => hfair
    rw [Client.memory]
    cases hp : (w.clients c).prog with
    | done s r =>
      rw [hp] at hmeets
      exact hmeets
    | call s q k =>
      rw [hp] at hmeets
      exact hmeets.1

theorem World.Reachable.fitting (hcol : Collisionless) (hyrs : FullUpdates) (hnamed : S.Named)
    (hw : w.Reachable S (World.Textless S)) : ∀ c, (w.clients c).Fitting S := by
  induction hw with
  | refl =>
    have hempty : RuntimeState.Matches {} TextId := fun _ he => absurd he (KeyedMap.not_mem_empty _)
    exact fun c => ⟨hempty, hempty, fun _ hcommand => by cases hcommand⟩
  | @tail v v' hv hstep ih =>
    have hmemory := fun c => (ih c).memory hcol hyrs hnamed hv
    have hset : ∀ {c : String} {client : Client}, client.Fitting S →
        ∀ c', ((v.setClient c client).clients c').Fitting S := fun hclient =>
      (Function.forall_update_iff _ fun _ (client : Client) => client.Fitting S).mpr
        ⟨hclient, fun c' _ => ih c'⟩
    obtain ⟨l, hok, hs⟩ := hstep
    cases l with
    | start c command =>
      rw [World.start_cases hs]
      refine hset ⟨(ih c).store, hmemory c, fun _ hcommand => ?_⟩
      obtain rfl := Option.some.inj hcommand
      exact hok
    | answer c a =>
      obtain ⟨s, q, k, r, v₁, hp, hr, rfl⟩ := World.answer_cases hs
      obtain ⟨hans, -⟩ := World.respond_fair ((World.Reachable.relies hv) c).files
        (World.Reachable.inv hv).objects hr
      refine (Function.forall_update_iff _ fun _ (client : Client) => client.Fitting S).mpr
        ⟨⟨?_, ?_, ?_⟩, fun c' hne => ?_⟩
      · have hmem := hmemory c
        rw [Client.memory, hp] at hmem
        exact World.respond_store (P := fun s => s.Matches TextId) hr (ih c).store hmem
      · exact hans.before ▸ (ih c).before
      · intro command hcommand
        rw [hans.command] at hcommand
        exact hans.before ▸ (ih c).command command hcommand
      · rw [hans.others c' hne]
        exact ih c'
    | edit c key file =>
      obtain rfl := Option.some.inj hs
      exact hset ⟨(ih c).store, (ih c).before, (ih c).command⟩
    | crash c =>
      obtain rfl := Option.some.inj hs
      exact hset ⟨(ih c).store, (ih c).store, fun _ hcommand => by cases hcommand⟩

/-- As long as no text version is chosen by `resolve` or `rollback`, the document that is saved
for a text resource has the content that its baseline names. -/
theorem World.saved_texts_match (hcol : Collisionless) (hyrs : FullUpdates) (hnamed : S.Named)
    (hw : w.Reachable S (World.Textless S)) (c : String) :
    (w.clients c).store.Matches fun id =>
      ∃ x ∈ w.published, x.id = id ∧ x.change.isText = true := by
  refine (hw.fitting hcol hyrs hnamed c).store.mono ?_
  rintro _ ⟨x, hx, rfl, htext⟩
  exact ⟨x, hw.created x hx, rfl, htext⟩

end Worlds

section Scripts

open Sample

attribute [local instance] spelled

theorem spelled_fullUpdates : FullUpdates := by
  have hcopy : ∀ letters : Letters, (∅ : Letters).insertMany letters.toList = letters := by
    intro letters
    apply ExtTreeSet.ext_mem
    simp
  have hall : ∀ letters : Letters,
      letters.filter (fun letter => letter ∉ (∅ : Letters)) = letters := by
    intro letters
    apply ExtTreeSet.ext_mem
    simp [ExtTreeSet.mem_filter]
  intro doc
  refine ⟨doc, congrArg Except.ok ?_, rfl⟩
  change Doc.merge {} (doc.since ∅) = doc
  rw [Doc.merge, Doc.since, hall, hcopy, hcopy]
  rfl

/-- The digest of the content of the document that is kept for a baseline. -/
def keptDigest (s : RuntimeState) (entry : StoredBaseline) : Option String := do
  let full ← s.textStates[entry.key.encoded]?
  let doc ← (TextDoc.fromBaselineAndDeltas (some full) []).toOption
  return blake3 (textBytes (TextDoc.content doc))

/-- The digest that a baseline over texts names. -/
def textDigest (w : World) (entry : StoredBaseline) : Option String :=
  match entry.state with
  | .present contentId _ heads => if heads ≠ [] ∧ ∀ id ∈ heads,
      ∃ x ∈ w.published, x.id = id ∧ x.change.isText = true then some contentId else none
  | .deleted _ => none

theorem RuntimeState.Matches.kept {w : World} {s : RuntimeState} {entry : StoredBaseline}
    {contentId : String}
    (h : s.Matches fun id => ∃ x ∈ w.published, x.id = id ∧ x.change.isText = true)
    (he : entry ∈ s.baselines) (hd : textDigest w entry = some contentId) :
    keptDigest s entry = some contentId := by
  unfold textDigest at hd
  split at hd
  · next hstate =>
    split at hd
    · next htexts =>
      obtain rfl := Option.some.inj hd
      obtain ⟨full, doc, hget, hdoc, hdigest⟩ := h entry he _ _ _ hstate htexts.1 htexts.2
      simp [keptDigest, hget, hdoc, hdigest, Except.toOption]
    · cases hd
  · cases hd

/-- `B` merges its text with the one of `A`. -/
theorem World.saved_texts_match_merged : ∃ w entry contentId,
    World.Reachable texts (World.Textless texts) w ∧
      entry ∈ (w.clients "B").store.baselines ∧ textDigest w entry = some contentId ∧
      keptDigest (w.clients "B").store entry = some contentId := by
  obtain ⟨w, hw, hp⟩ := exists_reachable texts (World.Textless texts)
    (upload "A" "a" "1" "t1" ++ sync "B" ++ upload "A" "a" "2" "t2" ++ upload "B" "a" "3" "t3")
    (fun w => (w.clients "B").store.baselines.values.any fun entry => (textDigest w entry).isSome)
    (by decide +kernel)
  obtain ⟨entry, he, hsome⟩ := List.any_eq_true.mp hp
  obtain ⟨contentId, hd⟩ := Option.isSome_iff_exists.mp hsome
  rw [KeyedMap.mem_values] at he
  exact ⟨w, entry, contentId, hw, he, hd,
    (World.saved_texts_match spelled_collisionless spelled_fullUpdates (fun _ _ _ => rfl) hw
      "B").kept he hd⟩

/-- The id of the first version of `a`. -/
def firstVersion : String :=
  (((play texts (fun _ _ => True) (upload "A" "a" "1" "t1") 0 {}).bind
    fun w => w.published.head?).map Commit.id).getD ""

/-- `A` goes back to the first of two versions and saves, with the document of the second. -/
theorem World.rollback_leaves_text : ∃ w, World.Reachable texts (fun _ _ => True) w ∧
    ¬ (w.clients "A").store.Matches fun id =>
      ∃ x ∈ w.published, x.id = id ∧ x.change.isText = true := by
  obtain ⟨w, hw, hp⟩ := exists_reachable texts (fun _ _ => True)
    (upload "A" "a" "1" "t1" ++ upload "A" "a" "2" "t2" ++
      [.step (.start "A" (.rollback ⟨key "a", firstVersion⟩)), .answers "A" 6])
    (fun w => (w.clients "A").store.baselines.values.any fun entry =>
      (textDigest w entry).isSome ∧ keptDigest (w.clients "A").store entry ≠ textDigest w entry)
    (by decide +kernel)
  obtain ⟨entry, he, hbad⟩ := List.any_eq_true.mp hp
  obtain ⟨hsome, hne⟩ := of_decide_eq_true hbad
  obtain ⟨contentId, hd⟩ := Option.isSome_iff_exists.mp hsome
  refine ⟨w, hw, fun h => hne ?_⟩
  rw [hd]
  exact h.kept (KeyedMap.mem_values.mp he) hd

end Scripts

end Rollforward
