import Rollforward.Baselines
import Rollforward.Forks
import Rollforward.Overwrites
import Rollforward.Settled
import Rollforward.Storage.Content
import Rollforward.Storage.Recovery

/-! One call with nobody else moving, in a world that a run has led to: parents are earlier
commits, and what a pack holds has its digest. -/

namespace Rollforward

open Std Lib

section Realms

variable [Crates] {S : Setting} {w : World} {c : String} {ok : World → Label → Prop}

/-- What a call of one client meets, with all that was published. -/
structure Realm where
  site : Site
  published : List Commit

def World.realm (w : World) (c : String) : Realm := ⟨w.site c, w.published⟩

theorem World.realm_setClient (w : World) (client : Client)
    (h : client.files = (w.clients c).files) : (w.setClient c client).realm c = w.realm c := by
  rw [World.realm, World.site_setClient w client h]
  rfl

/-- What every run makes sure of. -/
structure Realm.Lawful (S : Setting) (realm : Realm) : Prop where
  archive : Archive S realm.published
  snapshots : ∀ x ∈ realm.published, x.change.snapshot?.isSome →
    ∃ data, x.change = binarySnapshot data
  kinds : ∀ x ∈ realm.published, x.change.isText = true → S.kindOf x.resource = .text
  stored : ∀ x ∈ realm.site.remote.commits, x ∈ realm.published
  stocked : realm.site.remote.Stocked
  wellFormed : realm.site.remote.WellFormed

/-- How a realm answers. -/
def Realm.Serves (S : Setting) (realm : Realm) (e : SyncEvent) (realm' : Realm) : Prop :=
  realm.site.Serves S e realm'.site ∧ realm'.Lawful S ∧
    realm'.published = realm.published ++ ownCommits [e]

/-- Binary versions are snapshots of files in every run. -/
theorem World.Reachable.snapshots (h : w.Reachable S ok) : ∀ x ∈ w.published,
    x.change.snapshot?.isSome → ∃ data, x.change = binarySnapshot data := by
  induction h with
  | refl => simp
  | tail hv hstep ih =>
    obtain ⟨l, -, hs⟩ := hstep
    rcases World.step_published hs with e | ⟨c, s, batch, k, -, hp, e⟩
    · rw [e]
      exact ih
    · rw [e]
      intro x hx hsome
      rcases List.mem_append.mp hx with hx | hx
      · exact ih x hx hsome
      · obtain ⟨files, existing, hmade⟩ := (World.Reachable.relies hv).publishes hp
        obtain ⟨data, -, hdata⟩ := (hmade.commits x hx).binary hsome
        exact ⟨data, hdata⟩

/-- The catalog stays well formed, whoever compacts it. -/
theorem Net.Run.wellFormed {P : Net → Act → Prop} {n n' : Net} (hn : n.remote.WellFormed)
    (h : Net.Run P n n') : n'.remote.WellFormed := by
  induction h with
  | refl => exact hn
  | tail _ hstep ih =>
    obtain ⟨a, -, hm⟩ := hstep
    cases hm with
    | publish => exact Remote.WellFormed.commitBatch ih _
    | compact => exact ih.compactCatalog fun _ hc => of_decide_eq_true (List.mem_filter.mp hc).2
    | other _ segments snapshots =>
      refine ⟨?_, ?_, ?_⟩
      · rw [snapshots]
        exact ih.latest
      · rw [snapshots]
        exact ih.generation
      · rw [segments]
        exact ih.segment
    | scan | absorb | work | record | drop | save | start | crash => exact ih

theorem World.Reachable.wellFormed (hcol : Collisionless) (h : w.Reachable S ok) :
    w.remote.WellFormed :=
  (h.run (P := fun _ _ => True) hcol.hex (fun _ _ _ => trivial) fun _ _ _ => trivial).wellFormed
    ⟨fun hd => by simp at hd, fun hd => by simp at hd, fun _ hs => by cases hs⟩

theorem World.Reachable.lawful (hcol : Collisionless) (hcdc : FastcdcTiles)
    (h : w.Reachable S ok) (c : String) : (w.realm c).Lawful S where
  archive := h.archive hcol
  snapshots := h.snapshots
  kinds := h.text_kind
  stored := h.inv.objects
  stocked := h.stocked hcol.digest hcdc
  wellFormed := h.wellFormed hcol

theorem World.respond_realm {s : RuntimeState} {q : Req} {a : Answer} {r : q.Resp} {w₁ : World}
    (hr : w.respond S c s q a = some (r, w₁)) (hlawful : (w₁.realm c).Lawful S) :
    (w.realm c).Serves S ⟨s, q, r⟩ (w₁.realm c) :=
  ⟨World.respond_serves hr, hlawful, (World.respond_accounts hr).1⟩

/-- A batch that is served is published. -/
theorem Realm.Serves.publishes {realm realm' : Realm} {s : RuntimeState} {batch : CommitBatch}
    (h : realm.Serves S ⟨s, .commitBatch batch, .ok ()⟩ realm') :
    ∀ x ∈ batch.commits, x ∈ realm'.published := by
  intro x hx
  rw [h.2.2]
  exact List.mem_append_right _ (List.mem_append_left _ hx)

/-- If `x`, run alone in a realm that a run has led to, returns without an error, `Q` holds. -/
def Concludes (S : Setting) (x : Sync α) (Q : Realm → RuntimeState → α → Prop) (realm : Realm)
    (s : RuntimeState) : Prop :=
  Comp.wp (Realm.Serves S) (fun _ _ _ => True) (fun _ _ _ => True) x Q realm s

theorem World.Calls.concludes {command : Command} {w' : World} {s : RuntimeState}
    (h : World.Calls S c command w w' s) (hcol : Collisionless) (hcdc : FastcdcTiles)
    (hw : w.Reachable S ok) {Q : Realm → RuntimeState → Unit → Prop}
    (hx : Concludes S (command.run ⟨c, S.policy c⟩) Q (w.realm c) (w.memory c)) :
    Q (w'.realm c) s () := by
  have hstep : ∀ {w w' : World} {l : Label}, w.Reachable S (fun _ _ => True) →
      w.step S l = some w' → w'.Reachable S (fun _ _ => True) :=
    fun hw hs => .tail hw ⟨_, trivial, hs⟩
  refine h.meets_run hstep (hw.mono fun _ _ _ => trivial) (fun w => w.realm c)
    (T := Realm.Serves S) (C := fun _ _ _ => True) (Q := fun realm s r =>
      match r with
      | .ok a => Q realm s a
      | .error _ => True) ?_ ?_
  · intro w s q k a r w₁ _ _ hr hnext
    have hrealm : (w₁.resume c s q r (k r)).realm c = w₁.realm c :=
      World.realm_setClient w₁ _ rfl
    rw [hrealm]
    exact World.respond_realm hr (hrealm ▸ hnext.lawful hcol hcdc c)
  · have hrealm : (w.setClient c ((w.clients c).start ⟨c, S.policy c⟩ command)).realm c =
        w.realm c := World.realm_setClient w _ rfl
    rw [hrealm]
    refine Prog.Meets.imp hx (fun _ _ _ _ => trivial) ?_
    intro realm s r hr
    cases r with
    | ok a => exact hr
    | error e => trivial

end Realms

section Concludes

variable [Crates] {S : Setting} {realm : Realm} {s : RuntimeState}

theorem Concludes.imp {x : Sync α} {Q Q' : Realm → RuntimeState → α → Prop}
    (hx : Concludes S x Q realm s) (hQ : ∀ realm s a, Q realm s a → Q' realm s a) :
    Concludes S x Q' realm s := Comp.wp_imp hx hQ

theorem Concludes.and {x : Sync α} {Q Q' : Realm → RuntimeState → α → Prop}
    (hx : Concludes S x Q realm s) (hx' : Concludes S x Q' realm s) :
    Concludes S x (fun realm s a => Q realm s a ∧ Q' realm s a) realm s := Comp.wp_and hx hx'

theorem Concludes.forall {ι : Type} [Nonempty ι] {x : Sync α}
    {Q : ι → Realm → RuntimeState → α → Prop} (hx : ∀ i, Concludes S x (Q i) realm s) :
    Concludes S x (fun realm s a => ∀ i, Q i realm s a) realm s := Comp.wp_forall hx

theorem Concludes.bind {x : Sync α} {f : α → Sync β} {Q : Realm → RuntimeState → α → Prop}
    {Q' : Realm → RuntimeState → β → Prop} (hx : Concludes S x Q realm s)
    (hf : ∀ realm s a, Q realm s a → Concludes S (f a) Q' realm s) :
    Concludes S (x >>= f) Q' realm s :=
  Comp.wp_bind.mpr (Comp.wp_imp hx hf)

theorem Concludes.request {q : Req} {f : q.Resp → Except SyncError α}
    {Q : Realm → RuntimeState → α → Prop} (hq : ∀ r a realm', realm.Serves S ⟨s, q, r⟩ realm' →
      f r = .ok a → Q realm' s a) : Concludes S (Comp.request q f) Q realm s :=
  Comp.wp_request.mpr ⟨trivial, fun r realm' hserves =>
    ⟨fun a ha => hq r a realm' hserves ha, fun _ _ => trivial⟩⟩

/-- A realm stays lawful, and nothing is unpublished. -/
structure Realm.Follows (S : Setting) (realm realm' : Realm) : Prop where
  lawful : realm'.Lawful S
  published : ∀ x ∈ realm.published, x ∈ realm'.published

theorem Realm.Lawful.follows (h : realm.Lawful S) : realm.Follows S realm := ⟨h, fun _ hx => hx⟩

theorem Realm.Follows.serves {realm' realm'' : Realm} {e : SyncEvent}
    (h : realm.Follows S realm') (he : realm'.Serves S e realm'') : realm.Follows S realm'' :=
  ⟨he.2.1, fun x hx => he.2.2 ▸ List.mem_append_left _ (h.published x hx)⟩

/-- What is known of a site is known of the realm. -/
theorem Returns.concludes {x : Sync α} {Q : Site → RuntimeState → α → Prop}
    (hlawful : realm.Lawful S) (hx : Returns S x Q realm.site s) :
    Concludes S x (fun realm' s' a => Q realm'.site s' a ∧ realm.Follows S realm') realm s := by
  have hview : Concludes S x (fun realm' s' a => Q realm'.site s' a) realm s :=
    Comp.wp_imp (Prog.Meets.view Realm.site hx fun _ _ _ he => he.1) fun _ _ _ hq => hq
  exact Comp.wp_and_invariant hview (fun _ _ _ he hf => hf.serves he) hlawful.follows

end Concludes

section Publishing

variable [Crates] {S : Setting} {realm : Realm} {s : RuntimeState}

/-- What the memory holds was published in a realm that a run has led to. -/
structure Realm.Hosts (S : Setting) (realm : Realm) (s : RuntimeState) : Prop where
  lawful : realm.Lawful S
  held : ∀ x ∈ s.commits, x ∈ realm.published

theorem World.Reachable.hosts (hcol : Collisionless) (hcdc : FastcdcTiles) {w : World}
    {ok : World → Label → Prop} (hw : w.Reachable S ok) (c : String) :
    (w.realm c).Hosts S (w.memory c) :=
  ⟨hw.lawful hcol hcdc c, (hw.inv.clients c).memory⟩

theorem Realm.Hosts.created (h : realm.Hosts S s) : ∀ x ∈ s.commits, x.Created :=
  fun x hx => h.lawful.archive.created x (h.held x hx)

theorem Realm.Hosts.binary (h : realm.Hosts S s) {key : ResourceKey}
    (hkind : S.kindOf key = .binary) : ∀ x ∈ s.commits, x.resource = key →
      x.change.isText = false := by
  intro x hx hres
  refine Bool.eq_false_iff.mpr fun htext => ?_
  have hlisted := h.lawful.kinds x (h.held x hx) htext
  rw [hres, hkind] at hlisted
  cases hlisted

theorem Realm.Hosts.follows {realm' : Realm} {s' : RuntimeState} (h : realm.Hosts S s)
    (hf : realm.Follows S realm') (hcommits : s'.commits = s.commits) : realm'.Hosts S s' :=
  ⟨hf.lawful, fun x hx => hf.published x (h.held x (hcommits ▸ hx))⟩

/-- `x`, made over all the heads of its resource, is published and recorded. -/
structure Supersedes (S : Setting) (x : Commit) (realm : Realm) (s : RuntimeState)
    (realm' : Realm) (s' : RuntimeState) : Prop where
  hosts : realm'.Hosts S s'
  commits : s'.commits = s.commits.insert x
  only : s'.heads x.resource = [x.id]
  baselines : s'.baselines = s.baselines
  files : realm'.site.files = realm.site.files
  stored : ∀ y ∈ realm.site.remote.commits, y ∈ realm'.site.remote.commits
  current : s.UpToDate realm.site.remote → s'.UpToDate realm'.site.remote

theorem Remote.announces_commitBatch {remote : Remote} {batch : CommitBatch} {event : CatalogEvent}
    (h : (remote.commitBatch batch).Announces event) :
    remote.Announces event ∨ ∃ x ∈ batch.commits, event = x.event := by
  rcases h with ⟨segment, hs, he⟩ | ⟨scope, snapshot, hcurrent, he⟩
  · rcases Remote.mem_segments_commitBatch.mp hs with hs | hs
    · exact Or.inl (Or.inl ⟨segment, hs, he⟩)
    · exact Or.inr ((Remote.batchSegment_spec hs).1 event he).1
  · exact Or.inl (Or.inr ⟨scope, snapshot, hcurrent, he⟩)

theorem Realm.Lawful.ids (hcol : Collisionless) (h : realm.Lawful S) :
    ∀ x ∈ realm.published, ∀ y ∈ realm.published, y.id = x.id → y = x :=
  fun x hx y hy e => (h.archive.created y hy).ext hcol (h.archive.created x hx) e

theorem RuntimeState.UpToDate.commitBatch {remote : Remote} (h : s.UpToDate remote)
    (batch : CommitBatch) {t : RuntimeState} (ht : t.commits = s.commits.insertAll batch.commits) :
    t.UpToDate (remote.commitBatch batch) := by
  intro event he
  rw [ht]
  rcases Remote.announces_commitBatch he with he | ⟨x, hx, rfl⟩
  · exact KeyedMap.isSome_get?_insertAll (h event he)
  · exact KeyedMap.isSome_get?_insertAll_of_mem hx

theorem Realm.Serves.saves {realm' : Realm} {r : (Req.saveRuntimeState).Resp}
    (h : realm.Serves S ⟨s, .saveRuntimeState, r⟩ realm') : realm'.site = realm.site := by
  have hsite := h.1
  cases r <;> exact hsite

/-- Commits made over the heads are the only heads, once they are published and recorded. -/
theorem Realm.Hosts.only_head (hcol : Collisionless) (h : realm.Hosts S s) {t : RuntimeState}
    {xs : List Commit} (hxs : ∀ y ∈ xs, y ∈ realm.published)
    (ht : t.commits = s.commits.insertAll xs) {x : Commit} (hx : x ∈ xs)
    (hother : ∀ y ∈ xs, y.resource = x.resource → y = x)
    (hparents : x.parents = sortDedup (s.heads x.resource)) :
    x ∈ t.commits ∧ t.heads x.resource = [x.id] := by
  have hids := h.lawful.ids hcol
  have hmem : x ∈ t.commits := by
    rw [ht]
    refine (KeyedMap.mem_insertAll (fun v hv u hu => hids v (hxs v hv) u (h.held u hu))
      fun v hv u hu => hids v (hxs v hv) u (hxs u hu)).mpr (Or.inr hx)
  exact ⟨hmem, h.lawful.archive.grounded.only_head hids h.held hxs ht hother hparents hmem⟩

end Publishing

section Contents

theorem Files.mutate_writePresent {files : Files} {key : ResourceKey} {data : Bytes}
    {p : MutationPrecondition} {versionToken : String} {tombstone : Bool} {file : Option File}
    (h : files.mutate versionToken tombstone (.writePresent key data p) = some file) :
    file = some ⟨some data, versionToken⟩ := by
  rw [Files.mutate] at h
  split at h
  · exact (Option.some.inj h).symm
  · cases h

theorem Files.mutate_applyDelete {files : Files} {key : ResourceKey} {p : MutationPrecondition}
    {versionToken : String} {tombstone : Bool} {file : Option File}
    (h : files.mutate versionToken tombstone (.applyDelete key p) = some file) :
    file.bind File.data = none := by
  rw [Files.mutate] at h
  split at h
  · obtain rfl := Option.some.inj h
    cases tombstone <;> rfl
  · cases h

variable [Crates] {S : Setting} {site : Site} {s : RuntimeState} {realm : Realm}

theorem fetchChunks_returns (hashes : List String) : Returns S (fetchChunks hashes)
    (fun site' s' data => site' = site ∧ s' = s ∧ site.remote.reassemble hashes = .ok data)
    site s := by
  refine Returns.bind (Q := fun site' s' locations => site' = site ∧ s' = s ∧
    locations = site.remote.lookupChunks hashes) (Returns.request ?_) ?_
  · intro r locations site' hserves hr
    obtain rfl : r = .ok locations := hr
    exact ⟨hserves.1, rfl, hserves.2⟩
  rintro site s _ ⟨rfl, rfl, rfl⟩
  refine Comp.wp_bind.mpr (Returns.ofExcept fun ranges hranges => ?_)
  refine Returns.bind (Q := fun site' s' found => site' = site ∧ s' = s ∧
    site.remote.readRanges ranges = .ok found) (Returns.request ?_) ?_
  · intro r found site' hserves hr
    obtain rfl : r = .ok found := hr
    exact ⟨hserves.1, rfl, hserves.2⟩
  rintro site s found ⟨rfl, rfl, hfound⟩
  refine Returns.ofExcept fun data hdata => ⟨rfl, rfl, ?_⟩
  simp only [Remote.reassemble, hranges, hfound, bind, Except.bind]
  exact hdata

/-- What is returned is the content at that version. -/
theorem contentForRemote_returns (key : ResourceKey) (selectedHead : Option String) :
    Returns S (contentForRemote key selectedHead) (fun site' s' data => site' = site ∧ s' = s ∧
      s.contentAt site.remote key selectedHead = .ok data) site s := by
  rw [contentForRemote]
  refine Comp.wp_bind.mpr (Comp.wp_get.mpr ?_)
  simp only [RuntimeState.contentAt, RuntimeState.versionAt]
  cases selectedHead.or (s.heads key).head? with
  | none => exact Returns.throw
  | some head =>
    cases hc : s.commits.get? head with
    | none =>
      simp only [hc]
      exact Returns.throw
    | some commit =>
      cases hx : commit.change with
      | delete =>
        simp only [hc, hx]
        exact Returns.throw
      | textDelta delta =>
        simp only [hc, hx]
        refine Comp.wp_bind.mpr (Returns.ofExcept fun doc hdoc => ?_)
        refine ⟨rfl, rfl, ?_⟩
        simp only [hdoc, bind, Except.bind]
        rfl
      | binarySnapshot contentId size hashes =>
        simp only [hc, hx]
        exact fetchChunks_returns hashes

/-- The content of a version that is no text. -/
def ResourceChange.Holds (change : ResourceChange) : Option Bytes → Prop
  | some data => change = Rollforward.binarySnapshot data
  | none => change = .delete

theorem Realm.Hosts.holds (h : realm.Hosts S s) {x : Commit} (hx : x ∈ s.commits)
    (htext : ¬ x.change.isText = true) : ∃ content, x.change.Holds content := by
  cases hchange : x.change with
  | delete => exact ⟨none, rfl⟩
  | textDelta => exact absurd (by rw [hchange]; rfl) htext
  | binarySnapshot contentId size hashes =>
    obtain ⟨data, hdata⟩ := h.lawful.snapshots x (h.held x hx) (by rw [hchange]; rfl)
    exact ⟨some data, hchange.symm.trans hdata⟩

/-- The bytes joined for a binary version are those it was made from. -/
theorem Realm.Lawful.content (h : realm.Lawful S) (hcol : Collisionless) (hcdc : FastcdcTiles)
    {x : Commit} (hx : x ∈ realm.published) (hsome : x.change.snapshot?.isSome) {data : Bytes}
    (hread : realm.site.remote.reassemble x.change.chunkHashes = .ok data) :
    x.change.Holds (some data) := by
  obtain ⟨data', hdata⟩ := h.snapshots x hx hsome
  have hlisted := (parts_of_reassemble hread).1
  rw [hdata] at hread hlisted
  rw [reassemble_binarySnapshot h.stocked hcol.digest hcdc hlisted] at hread
  rw [ResourceChange.Holds, hdata, Except.ok.inj hread]

/-- The remote content of a resource with one head. -/
theorem remoteState_of_only {key : ResourceKey} {x : Commit} {content : Option Bytes}
    (hx : x ∈ s.commits) (honly : s.heads key = [x.id]) (hholds : x.change.Holds content) :
    s.remoteState key = .ok (remoteOf content x.id) := by
  have hchanges : s.headChanges key = [x.change] := by
    rw [RuntimeState.headChanges, honly]
    simp [KeyedMap.mem_def.mp hx]
  rw [RuntimeState.remoteState, honly, if_neg (by simp), hchanges]
  cases content with
  | none =>
    replace hholds : x.change = .delete := hholds
    simp [hholds, ResourceChange.isDelete, remoteOf]
  | some data =>
    replace hholds : x.change = binarySnapshot data := hholds
    simp [hholds, binarySnapshot, ResourceChange.isDelete, ResourceChange.isText,
      ResourceChange.snapshot?, remoteOf, RemoteResourceState.mkPresent, sortDedup]

end Contents

end Rollforward
