import Rollforward.Replacing
import Rollforward.Upkeep

/-! `rollback` makes an earlier version the newest one. -/

namespace Rollforward

open Std Lib

section Versions

variable [Crates] {S : Setting} {realm realm' : Realm} {s s' : RuntimeState} {key : ResourceKey}

/-- What has become of a resource that was taken back to the version `y`: the new version `x` is
the same, and so is the file. -/
structure Restored (key : ResourceKey) (y x : Commit) (site : Site) (s : RuntimeState)
    (site' : Site) (s' : RuntimeState) : Prop extends Renewed key x site s site' s' where
  content : ∀ content, y.change.Holds content → x.change = y.change ∧
    site'.files[key]?.bind File.data = content ∧
    s'.remoteState key = .ok (remoteOf content x.id)
  text : y.change.isText = true → ∃ data, s.versionAt site.remote key y.id = .ok data ∧
    s.Spells key .text data x.change

/-- After a new version was made, the scope is reconciled, and the resource is settled at it. -/
theorem Replaced.reconcile (hcol : Collisionless) (hhosts : realm.Hosts S s) {y x : Commit}
    {file : Option File} (hy : y ∈ s.commits) (hrevives : Revives s realm.site.remote key y x file)
    (h : Replaced S key file x realm s realm' s') (hcurrent : s.UpToDate realm.site.remote)
    (rt : SyncRuntime) : Concludes S (Rollforward.reconcile rt ⟨[key.scopeId]⟩)
      (fun realm'' s'' _ => Restored key y x realm.site s realm''.site s'') realm' s' := by
  refine (h.renewed hcol hhosts (hrevives.file hhosts hy) (hrevives.holds hhosts hy) hcurrent rt).imp ?_
  rintro realm'' s'' _ ⟨hrenewed, hsettled⟩
  refine ⟨hrenewed, fun content hholds => ?_, fun htext => ?_⟩
  · obtain ⟨hchange, hfile⟩ := hrevives.content content hholds
    obtain ⟨hrests, hremote⟩ := hsettled (hchange ▸ hholds.isText)
    exact ⟨hchange, by rw [hrests.onDisk, hfile], by rw [hremote, hfile]⟩
  · obtain ⟨data, -, hdata, hspells, -⟩ := hrevives.text htext
    exact ⟨data, hdata, hspells⟩

end Versions

section Calls

variable [Crates] {S : Setting} {w w' : World} {c : String} {ok : World → Label → Prop}
variable {s : RuntimeState}

end Calls

section Scripts

open Sample

attribute [local instance] spelled

end Scripts

end Rollforward
