import Rollforward.Solo

/-! A version made over all the heads of its resource, with the local file and the baseline
moved along: what `resolve` and `rollback` do before they reconcile. -/

namespace Rollforward

open Std Lib

section Versions

variable [Crates] {S : Setting} {realm realm' : Realm} {s s' : RuntimeState} {key : ResourceKey}

/-- How bytes are published: binary ones as a snapshot, text as an edit of the document of all
deltas. -/
def RuntimeState.Spells (s : RuntimeState) (key : ResourceKey) (kind : ResourceKind) (data : Bytes)
    (change : ResourceChange) : Prop :=
  match kind with
  | .binary => change = binarySnapshot data
  | .text => ∃ client doc text, s.textDoc key = .ok doc ∧ fromUtf8 data = .ok text ∧
      change = .textDelta (TextDoc.setText client doc text).2

/-- Nothing that counts here was different before. -/
theorem Supersedes.of_same {x : Commit} {realm₁ : Realm} {t : RuntimeState}
    (h : Supersedes S x realm₁ t realm' s') (hsite : realm₁.site = realm.site)
    (hs : SameBase s t) : Supersedes S x realm s realm' s' where
  hosts := h.hosts
  commits := by rw [h.commits, hs.commits]
  only := h.only
  baselines := h.baselines.trans hs.baselines
  files := by rw [h.files, hsite]
  stored := hsite ▸ h.stored
  current hcurrent := by
    apply h.current
    intro event he
    rw [hs.commits]
    exact hcurrent event (hsite ▸ he)

theorem RuntimeState.Spells.of_same {kind : ResourceKind} {data : Bytes} {change : ResourceChange}
    {t : RuntimeState} (h : t.Spells key kind data change) (hs : SameBase s t) :
    s.Spells key kind data change := by
  cases kind with
  | binary => exact h
  | text =>
    obtain ⟨client, doc, text, hdoc, hrest⟩ := h
    exact ⟨client, doc, text, RuntimeState.textDoc_of_commits hs.commits key ▸ hdoc, hrest⟩

/-- A version is published over all the others of its resource, and the client is at it. -/
structure Replaced (S : Setting) (key : ResourceKey) (file : Option File) (x : Commit)
    (realm : Realm) (s : RuntimeState) (realm' : Realm) (s' : RuntimeState) : Prop where
  hosts : realm'.Hosts S s'
  commits : s'.commits = s.commits.insert x
  only : s'.heads key = [x.id]
  rests : Rests key file x.id realm'.site s'
  stored : ∀ y ∈ realm.site.remote.commits, y ∈ realm'.site.remote.commits
  current : s.UpToDate realm.site.remote → s'.UpToDate realm'.site.remote

/-- Saving the memory changes nothing else. -/
theorem Replaced.save {file : Option File} {x : Commit}
    (h : Replaced S key file x realm s realm' s') : Concludes S Sync.saveRuntimeState
      (fun realm'' s'' _ => Replaced S key file x realm s realm'' s'') realm' s' := by
  refine Concludes.request fun r _ realm'' hserves _ => ?_
  have hsite := hserves.saves
  refine ⟨h.hosts.follows (h.hosts.lawful.follows.serves hserves) rfl, h.commits, h.only, ?_, ?_, ?_⟩
  · exact hsite ▸ h.rests
  · exact hsite ▸ h.stored
  · exact hsite ▸ h.current

/-- The file and the new version are those of an earlier version. -/
structure Revives (s : RuntimeState) (remote : Remote) (key : ResourceKey) (y x : Commit)
    (file : Option File) : Prop where
  resource : x.resource = key
  content : ∀ content, y.change.Holds content → x.change = y.change ∧ file.bind File.data = content
  text : y.change.isText = true → ∃ data versionToken, s.versionAt remote key y.id = .ok data ∧
    s.Spells key .text data x.change ∧ file = some ⟨some data, versionToken⟩

/-- A change that holds a content is no text. -/
theorem ResourceChange.Holds.isText {change : ResourceChange} {content : Option Bytes}
    (h : change.Holds content) : change.isText = false := by
  cases content <;> rw [h] <;> rfl

theorem Revives.file {y x : Commit} {file : Option File} {remote : Remote}
    (h : Revives s remote key y x file) (hhosts : realm.Hosts S s) (hy : y ∈ s.commits)
    (hx : x.change.isText = true) :
    ∃ data versionToken, file = some ⟨some data, versionToken⟩ := by
  by_cases htext : y.change.isText = true
  · obtain ⟨data, versionToken, -, -, hfile⟩ := h.text htext
    exact ⟨data, versionToken, hfile⟩
  · obtain ⟨content, hholds⟩ := hhosts.holds hy htext
    obtain ⟨hchange, -⟩ := h.content content hholds
    rw [hchange] at hx
    exact absurd hx htext

theorem Revives.holds {y x : Commit} {file : Option File} {remote : Remote}
    (h : Revives s remote key y x file) (hhosts : realm.Hosts S s) (hy : y ∈ s.commits)
    (hx : x.change.isText = false) : x.change.Holds (file.bind File.data) := by
  have htext : ¬ y.change.isText = true := fun htext => by
    obtain ⟨data, versionToken, -, ⟨client, doc, text, -, -, hchange⟩, -⟩ := h.text htext
    rw [hchange] at hx
    cases hx
  obtain ⟨content, hholds⟩ := hhosts.holds hy htext
  obtain ⟨hchange, hfile⟩ := h.content content hholds
  rwa [hfile, hchange]

theorem Replaced.mem {file : Option File} {x : Commit} (hcol : Collisionless)
    (h : Replaced S key file x realm s realm' s') (hs : realm.Hosts S s) {z : Commit} :
    z ∈ s'.commits ↔ z ∈ s.commits ∨ z = x := by
  have hx : x ∈ s'.commits := by
    rw [h.commits, KeyedMap.mem_insert]
    exact Or.inl rfl
  rw [h.commits, KeyedMap.mem_insert]
  constructor
  · rintro (rfl | ⟨hz, -⟩)
    · exact Or.inr rfl
    · exact Or.inl hz
  · rintro (hz | rfl)
    · by_cases hid : z.id = x.id
      · exact Or.inl ((hs.created z hz).ext hcol (h.hosts.created x hx) hid)
      · exact Or.inr ⟨hz, hid⟩
    · exact Or.inl rfl

/-- A text head shows as present, whatever its text. -/
theorem remoteState_of_text {x : Commit} (hx : x ∈ s.commits) (honly : s.heads key = [x.id])
    (htext : x.change.isText = true) {r : RemoteResourceState} (hr : s.remoteState key = .ok r) :
    ∃ contentId size heads, r = .present contentId size heads := by
  have hchanges : s.headChanges key = [x.change] := by
    rw [RuntimeState.headChanges, honly]
    simp [KeyedMap.mem_def.mp hx]
  rw [RuntimeState.remoteState, honly, if_neg (by simp), hchanges] at hr
  cases hx : x.change with
  | textDelta delta =>
    simp only [hx, List.all_cons, List.all_nil, ResourceChange.isDelete, ResourceChange.isText] at hr
    cases hdoc : s.textDoc key with
    | error e => simp [hdoc, bind, Except.bind] at hr
    | ok doc =>
      simp only [hdoc, bind, Except.bind, if_neg, Bool.and_true, if_true, pure,
        Except.pure, Except.ok.injEq, Bool.false_eq_true, not_false_iff] at hr
      exact ⟨_, _, _, hr.symm⟩
  | binarySnapshot | delete =>
    rw [hx] at htext
    cases htext

/-- What has become of a resource that got a new version `x`: nothing else is new, and nothing is
gone. -/
structure Renewed (key : ResourceKey) (x : Commit) (site : Site) (s : RuntimeState)
    (site' : Site) (s' : RuntimeState) : Prop where
  stored : ∀ z ∈ site.remote.commits, z ∈ site'.remote.commits
  commits : ∀ z : Commit, z.resource = key → (z ∈ s'.commits ↔ z ∈ s.commits ∨ z = x)
  only : s'.heads key = [x.id]
  calm : ∀ record ∈ s'.conflicts, record.resource ≠ key

/-- After a new version was made the scope is reconciled: the version stays the only head, and the
resource is settled at it, unless it is a text. -/
theorem Replaced.renewed (hcol : Collisionless) (hhosts : realm.Hosts S s) {x : Commit}
    {file : Option File} (h : Replaced S key file x realm s realm' s')
    (hfile : x.change.isText = true → ∃ data versionToken, file = some ⟨some data, versionToken⟩)
    (hholds : x.change.isText = false → x.change.Holds (file.bind File.data))
    (hcurrent : s.UpToDate realm.site.remote) (rt : SyncRuntime) :
    Concludes S (reconcile rt ⟨[key.scopeId]⟩) (fun realm'' s'' _ =>
      Renewed key x realm.site s realm''.site s'' ∧ (x.change.isText = false →
        Rests key file x.id realm''.site s'' ∧
        s''.remoteState key = .ok (remoteOf (file.bind File.data) x.id))) realm' s' := by
  have hrenewed : ∀ {site'' s''}, Outlasts key realm'.site s' site'' s'' →
      (∀ record ∈ s''.conflicts, record.resource ≠ key) → Renewed key x realm.site s site'' s'' := by
    intro site'' s'' hout hcalm
    refine ⟨fun z hz => hout.stored z (h.stored z hz), fun z hz => ?_, ?_, hcalm⟩
    · rw [hout.commits.commits z hz, h.mem hcol hhosts]
    · rw [hout.commits.heads, h.only]
  have hx : x ∈ s'.commits := (h.mem hcol hhosts).mpr (Or.inr rfl)
  cases htext : x.change.isText with
  | true =>
    obtain ⟨data, versionToken, rfl⟩ := hfile htext
    have hreturns := reconcile_outlasts (S := S) hcol h.hosts.created (h.current hcurrent) h.rests
      (fun r hr => remoteState_of_text hx h.only htext hr) rt
    refine (hreturns.concludes h.hosts.lawful).imp ?_
    rintro realm'' s'' _ ⟨⟨hout, hcalm⟩, -⟩
    exact ⟨hrenewed hout hcalm, fun hnot => absurd hnot (by decide)⟩
  | false =>
    have hremote := remoteState_of_only hx h.only (hholds htext)
    have hreturns := reconcile_settled (S := S) hcol h.hosts.created (h.current hcurrent) h.rests
      hremote rt
    refine (hreturns.concludes h.hosts.lawful).imp ?_
    rintro realm'' s'' _ ⟨hsettled, -⟩
    refine ⟨hrenewed hsettled.outlasts hsettled.calm, fun _ => ⟨hsettled.rests, ?_⟩⟩
    rw [hsettled.outlasts.commits.remoteState, hremote]

end Versions

end Rollforward
