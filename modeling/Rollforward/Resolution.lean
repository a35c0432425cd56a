import Rollforward.Conflicts
import Rollforward.Replacing
import Rollforward.Upkeep

/-! `resolve` settles a conflict with the version that was chosen, and keeps the others as
copies. -/

namespace Rollforward

open Std Lib

section Copies

variable [Crates] {S : Setting} {key : ResourceKey} {site : Site} {s : RuntimeState}

/-- The bytes that a choice stands for. -/
def VersionChoice.Shows (choice : VersionChoice) (key : ResourceKey) (site : Site)
    (s : RuntimeState) (data : Bytes) : Prop :=
  match choice with
  | .ours => ∃ versionToken, site.files[key]? = some ⟨some data, versionToken⟩
  | .remote commitId => s.versionAt site.remote key commitId = .ok data
  | .delete => False

theorem VersionChoice.Shows.congr {choice : VersionChoice} {site' : Site} {data : Bytes}
    (h : choice.Shows key site' s data) (hremote : site'.remote = site.remote)
    (hfile : site'.files[key]? = site.files[key]?) : choice.Shows key site s data := by
  cases choice with
  | ours =>
    obtain ⟨versionToken, hdata⟩ := h
    exact ⟨versionToken, hfile ▸ hdata⟩
  | delete => exact h
  | remote commitId =>
    rw [VersionChoice.Shows, ← hremote]
    exact h

end Copies

section Choices

variable [Crates] {S : Setting} {realm realm' : Realm} {s s' : RuntimeState} {key : ResourceKey}

/-- The new version and the file are those that were chosen. -/
inductive Chosen (S : Setting) (key : ResourceKey) (site : Site) (s : RuntimeState) :
    VersionChoice → Commit → Option File → Prop
  | ours {x : Commit} {data : Bytes} {versionToken : String}
      (file : site.files[key]? = some ⟨some data, versionToken⟩)
      (spells : s.Spells key (S.kindOf key) data x.change) :
      Chosen S key site s .ours x (some ⟨some data, versionToken⟩)
  | delete {x : Commit} {file : Option File} (change : x.change = .delete)
      (gone : file.bind File.data = none) : Chosen S key site s .delete x file
  | remote {x y : Commit} {file : Option File} (held : y ∈ s.commits) (head : y.id ∈ s.heads key)
      (revives : Revives s site.remote key y x file) : Chosen S key site s (.remote y.id) x file

theorem Chosen.file {choice : VersionChoice} {x : Commit} {file : Option File}
    (h : Chosen S key realm.site s choice x file) (hhosts : realm.Hosts S s)
    (hx : x.change.isText = true) : ∃ data versionToken, file = some ⟨some data, versionToken⟩ := by
  cases h with
  | ours => exact ⟨_, _, rfl⟩
  | delete change =>
    rw [change] at hx
    cases hx
  | remote held head revives => exact revives.file hhosts held hx

theorem Chosen.holds {choice : VersionChoice} {x : Commit} {file : Option File}
    (h : Chosen S key realm.site s choice x file) (hhosts : realm.Hosts S s)
    (hx : x.change.isText = false) : x.change.Holds (file.bind File.data) := by
  cases h with
  | ours file spells =>
    cases hkind : S.kindOf key with
    | binary =>
      rw [hkind] at spells
      exact spells
    | text =>
      rw [hkind] at spells
      obtain ⟨client, doc, text, -, -, hchange⟩ := spells
      rw [hchange] at hx
      cases hx
  | delete change gone => rwa [gone]
  | remote held head revives => exact revives.holds hhosts held hx

end Choices

section Frames

variable [Crates] {S : Setting} {realm : Realm} {site site' : Site} {s : RuntimeState}
variable {target key : ResourceKey} {locals : List LocalResource} {plan : List PlanOperation}

/-- The file is not written to. -/
def NoWriteTo (target : ResourceKey) : Req → Prop
  | .applyMutations mutations => ∀ mutation ∈ mutations, mutation.key ≠ target
  | _ => True

/-- A computation that leaves the file alone. -/
def Untouching (target : ResourceKey) (x : Sync α) : Prop := Comp.Within (NoWriteTo target) Anyhow x

theorem Site.Serves.file {e : SyncEvent} (h : site.Serves S e site') (hq : NoWriteTo target e.req) :
    site'.files[target]? = site.files[target]? := by
  unfold Site.Serves at h
  split at h <;> first | exact h.2.other hq | exact h ▸ rfl | exact h.1 ▸ rfl

theorem Untouching.returns {x : Sync α} (hx : Untouching target x) :
    Returns S x (fun site' _ _ => site'.files[target]? = site.files[target]?) site s := by
  refine Comp.wp_mono (Comp.Within.wp
    (J := fun site' _ => site'.files[target]? = site.files[target]?) hx ?_ ?_ ?_ rfl)
    (fun _ _ _ _ => trivial) fun _ _ _ hj => hj
  · exact fun _ _ _ hj _ => hj
  · exact fun _ _ _ _ _ => trivial
  · exact fun _ _ _ _ _ hj hq hserves => (hserves.file hq).trans hj

theorem Untouching.concludes {x : Sync α} (hx : Untouching target x) (hlawful : realm.Lawful S) :
    Concludes S x (fun realm' _ _ => realm'.site.files[target]? = realm.site.files[target]?)
      realm s :=
  (Returns.concludes hlawful hx.returns).imp fun _ _ _ h => h.1

/-- A file that no version is known of is uploaded at most. -/
theorem PlannedAt.uploads {operation : PlanOperation} (h : PlannedAt s locals target operation)
    (hnone : ¬ ∃ x ∈ s.commits, x.resource = target) {contentId versionToken : String} {size : Nat}
    (hlocal : localStateOf locals target = .present contentId size versionToken) :
    operation.isUpload = true := by
  obtain ⟨r, hr, hop⟩ := h
  obtain rfl := Except.ok.inj ((remoteState_of_no_commits hnone).symm.trans hr)
  rw [hop, hlocal]
  rfl

end Frames

section Resolving

variable [Crates] {S : Setting} {realm realm' : Realm} {s s' : RuntimeState} {key : ResourceKey}

end Resolving

section Calls

variable [Crates] {S : Setting} {w w' : World} {c : String} {ok : World → Label → Prop}
variable {s : RuntimeState}

end Calls

section Scripts

open Sample

attribute [local instance] spelled

end Scripts

end Rollforward
