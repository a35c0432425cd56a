import Rollforward.Catalog.Delivery
import Rollforward.Catalog.Feed
import Rollforward.Identity
import Rollforward.Spelled

/-! Every event of the catalog names a commit that can be loaded, as long as nobody writes
a snapshot from a memory that still holds commits which were given up by others. -/

namespace Rollforward

open Std Lib

section Conditions

variable [Crates]

/-- A compaction from a client that holds no commit of the scope that is not stored any
more, has read at least as far as the snapshot it replaces, and gives up only what it holds
and has read past. -/
structure Tidies (remote : Remote) (s : RuntimeState) (compaction : CatalogCompaction) : Prop where
  unused : ∀ dir, remote.snapshots[compaction.snapshot.scopeId]? = some dir →
    dir.generations[compaction.snapshot.generation]? = none
  clean : ∀ x ∈ s.commits, x.resource.scopeId = compaction.snapshot.scopeId →
    x.id ∉ compaction.obsoleteCommitIds → (remote.commits.get? x.id).isSome
  ahead : ∀ snapshot, remote.current compaction.snapshot.scopeId = some snapshot →
    ∀ cursor ∈ snapshot.cursors, cursor.counter ≤ reached (collectCursors s.cursors) cursor.lane
  within : ∀ id ∈ compaction.obsoleteCommitIds, ∃ x ∈ s.commits, x.id = id ∧
    x.resource.scopeId = compaction.snapshot.scopeId ∧
    x.clientCounter ≤ reached (collectCursors s.cursors) x.lane

/-- A compaction is served only where it tidies. -/
def World.Tidy (w : World) : Label → Prop
  | .answer c .serve =>
    match (w.clients c).prog with
    | .call s (.compactCatalog compaction) _ => Tidies w.remote s compaction
    | _ => True
  | _ => True

instance (remote : Remote) (s : RuntimeState) (compaction : CatalogCompaction) :
    Decidable (Tidies remote s compaction) :=
  decidable_of_iff
    ((remote.snapshots[compaction.snapshot.scopeId]?.all fun dir =>
        dir.generations[compaction.snapshot.generation]?.isNone) ∧
      (∀ x ∈ s.commits.values, x.resource.scopeId = compaction.snapshot.scopeId →
        x.id ∉ compaction.obsoleteCommitIds → (remote.commits.get? x.id).isSome) ∧
      ((remote.current compaction.snapshot.scopeId).all fun snapshot =>
        snapshot.cursors.all fun cursor =>
          cursor.counter ≤ reached (collectCursors s.cursors) cursor.lane) ∧
      ∀ id ∈ compaction.obsoleteCommitIds, ∃ x ∈ s.commits.values, x.id = id ∧
        x.resource.scopeId = compaction.snapshot.scopeId ∧
        x.clientCounter ≤ reached (collectCursors s.cursors) x.lane) <| by
    constructor
    · rintro ⟨hunused, hclean, hahead, hwithin⟩
      refine ⟨by simpa [Option.all_eq_true] using hunused, fun x hx => ?_, ?_, fun id hid => ?_⟩
      · exact hclean x (KeyedMap.mem_values.mpr hx)
      · simpa [Option.all_eq_true] using hahead
      · obtain ⟨x, hx, h⟩ := hwithin id hid
        exact ⟨x, KeyedMap.mem_values.mp hx, h⟩
    · rintro ⟨hunused, hclean, hahead, hwithin⟩
      refine ⟨by simpa [Option.all_eq_true] using hunused, fun x hx => ?_, ?_, fun id hid => ?_⟩
      · exact hclean x (KeyedMap.mem_values.mp hx)
      · simpa [Option.all_eq_true] using hahead
      · obtain ⟨x, hx, h⟩ := hwithin id hid
        exact ⟨x, KeyedMap.mem_values.mpr hx, h⟩

instance (w : World) : DecidablePred w.Tidy := fun l =>
  decidable_of_iff ((match l with
    | .answer c .serve =>
      match (w.clients c).prog with
      | .call s (.compactCatalog compaction) _ => decide (Tidies w.remote s compaction)
      | _ => true
    | _ => true) = true) <| by
    unfold World.Tidy
    split
    · split <;> simp
    · simp

end Conditions

section Remotes

variable [Crates] {remote remote' : Remote} {published : List Commit} {s : RuntimeState}
variable {compaction : CatalogCompaction} {batch : CommitBatch}

/-- The catalog lists published commits, each scope in its own directory, and what it lists
is stored. -/
structure Remote.Intact (remote : Remote) (published : List Commit) : Prop where
  wf : remote.WellFormed
  records : Records remote published
  placed : ∀ {scope snapshot}, remote.current scope = some snapshot →
    ∀ event ∈ snapshot.events, event.resource.scopeId = scope
  readable : ∀ event, remote.Lists [] ∅ event → (remote.commits.get? event.commitId).isSome

namespace Remote.Intact

theorem init : Remote.Intact {} [] where
  wf := Sound.empty.wf
  records := ⟨by simp [Remote.current], by simp⟩
  placed := by simp [Remote.current]
  readable := by
    rintro event (⟨hcur, -, -, -⟩ | ⟨hs, -, -, -⟩)
    · simp [Remote.current] at hcur
    · cases hs

/-- Packs and acknowledgements are not part of the catalog. -/
theorem congr (h : remote.Intact published) (hcommits : remote'.commits = remote.commits)
    (hsegments : remote'.segments = remote.segments)
    (hsnapshots : remote'.snapshots = remote.snapshots) : remote'.Intact published := by
  have hcurrent : ∀ scope, remote'.current scope = remote.current scope := fun scope => by
    rw [Remote.current, Remote.current, hsnapshots]
  have hcovered : ∀ lane, remote'.covered lane = remote.covered lane := fun lane => by
    rw [Remote.covered, Remote.covered, hcurrent]
  refine ⟨⟨?_, ?_, ?_⟩, ⟨?_, ?_⟩, ?_, ?_⟩
  · rw [hsnapshots]
    exact h.wf.latest
  · rw [hsnapshots]
    exact h.wf.generation
  · rw [hsegments]
    exact h.wf.segment
  · intro scope snapshot hcur
    exact h.records.snapshot (hcurrent scope ▸ hcur)
  · rw [hsegments]
    exact h.records.segment
  · intro scope snapshot hcur
    exact h.placed (hcurrent scope ▸ hcur)
  · rintro event hl
    rw [hcommits]
    apply h.readable
    cases hl with
    | snapshot hcur hscope he hc => exact .snapshot (hcurrent _ ▸ hcur) hscope he hc
    | segment hs he hc hb => exact .segment (hsegments ▸ hs) he hc (hcovered _ ▸ hb)

/-- A batch lists the commits that it stores. -/
theorem publish (h : remote.Intact published) :
    (remote.commitBatch batch).Intact (published ++ batch.commits) where
  wf := h.wf.commitBatch batch
  records := h.records.publish batch
  placed hcur := h.placed hcur
  readable := by
    intro event hl
    apply isSome_foldl_writeCommit
    cases hl with
    | snapshot hcur hscope he hc => exact Or.inl (h.readable event (.snapshot hcur hscope he hc))
    | segment hs he hc hb =>
      rcases Remote.mem_segments_commitBatch.mp hs with hs | hs
      · exact Or.inl (h.readable event (.segment hs he hc hb))
      · obtain ⟨⟨x, hx, rfl⟩, -⟩ := (Remote.batchSegment_spec hs).1 event he
        exact Or.inr ⟨x, hx, rfl⟩

section Compact

variable {scope : String} {generation : Nat} {O : List String}

theorem current_compactCatalog (ht : Tidies remote s (s.compaction scope generation O)) :
    (remote.compactCatalog (s.compaction scope generation O)).current scope =
      some (s.catalogSnapshot scope generation O) := Remote.current_compactCatalog ht.unused

/-- The new snapshot reaches in every lane as far as the old one. -/
theorem covered_le (ht : Tidies remote s (s.compaction scope generation O)) (lane : Lane) :
    remote.covered lane ≤ (remote.compactCatalog (s.compaction scope generation O)).covered lane ∧
      (lane.scopeId = scope →
        (remote.compactCatalog (s.compaction scope generation O)).covered lane =
          reached (collectCursors s.cursors) lane) := by
  by_cases hscope : lane.scopeId = scope
  · have hnew : (remote.compactCatalog (s.compaction scope generation O)).covered lane =
        reached (collectCursors s.cursors) lane := by
      rw [Remote.covered, hscope, current_compactCatalog ht,
        Option.map_some, Option.getD_some]
      exact (reached_catalogSnapshot lane).trans (if_pos hscope)
    refine ⟨?_, fun _ => hnew⟩
    rw [hnew, Remote.covered, hscope]
    cases hcur : remote.current scope with
    | none => exact Nat.zero_le _
    | some snapshot =>
      rw [Option.map_some, Option.getD_some]
      rcases Nat.eq_zero_or_pos (reached (collectCursors snapshot.cursors) lane) with hzero | hpos
      · rw [hzero]
        exact Nat.zero_le _
      · obtain ⟨cursor, hc, hlane, hcounter⟩ := exists_cursor_of_reached hpos.ne'
        rw [← hcounter, ← hlane]
        exact ht.ahead snapshot hcur cursor hc
  · refine ⟨?_, fun e => absurd e hscope⟩
    rw [Remote.covered, Remote.covered, Remote.current_compactCatalog_of_ne (Ne.symm hscope)]

/-- What stays in a compaction is still stored after it. -/
theorem isSome_compactCatalog {id : String} (hnot : id ∉ compaction.obsoleteCommitIds)
    (hsome : (remote.commits.get? id).isSome) :
    ((remote.compactCatalog compaction).commits.get? id).isSome := by
  obtain ⟨x, hx⟩ := Option.isSome_iff_exists.mp hsome
  have hid := KeyedMap.key_of_get? hx
  have hmem : x ∈ (remote.compactCatalog compaction).commits :=
    Remote.mem_commits_compactCatalog.mpr ⟨KeyedMap.mem_of_get? hx, hid.symm ▸ hnot⟩
  rw [← hid, KeyedMap.mem_def.mp hmem]
  rfl

theorem compact (h : remote.Intact published)
    (ht : Tidies remote s (s.compaction scope generation O))
    (hids : ∀ x ∈ published, ∀ y ∈ published, y.id = x.id → y = x)
    (held : ∀ x ∈ s.commits, x ∈ published) :
    (remote.compactCatalog (s.compaction scope generation O)).Intact published := by
  have hcovered := covered_le ht
  have hcurrent := current_compactCatalog ht
  -- an event that is given up belongs to the scope and is read past
  have hgone : ∀ event : CatalogEvent, (∃ x ∈ published, x.event = event) → event.commitId ∈ O →
      event.resource.scopeId = scope ∧
        event.counter ≤ reached (collectCursors s.cursors) event.lane := by
    rintro _ ⟨x, hx, rfl⟩ hin
    obtain ⟨y, hy, hid, hscope, hle⟩ := ht.within _ hin
    rw [hids x hx y (held y hy) hid] at hscope hle
    exact ⟨hscope, hle⟩
  refine ⟨h.wf.compactCatalog fun cursor hc => ?_, h.records.compact held ht.unused,
    fun {sc snapshot} hcur event he => ?_, ?_⟩
  · exact of_decide_eq_true (List.mem_filter.mp hc).2
  · by_cases hscope : scope = sc
    · subst hscope
      obtain rfl := Option.some.inj (hcurrent.symm.trans hcur)
      obtain ⟨x, hx, rfl⟩ := List.mem_map.mp he
      exact (of_decide_eq_true (List.mem_filter.mp hx).2).1
    · rw [Remote.current_compactCatalog_of_ne hscope] at hcur
      exact h.placed hcur event he
  · intro event hl
    cases hl with
    | @snapshot snapshot hcur hin he hc =>
      by_cases hscope : scope = snapshot.scopeId
      · rw [← hscope, hcurrent] at hcur
        obtain rfl := Option.some.inj hcur
        obtain ⟨x, hx, rfl⟩ := List.mem_map.mp he
        obtain ⟨hx, hp⟩ := List.mem_filter.mp hx
        obtain ⟨hres, hnot⟩ := of_decide_eq_true hp
        exact isSome_compactCatalog hnot (ht.clean x (KeyedMap.mem_values.mp hx) hres hnot)
      · rw [Remote.current_compactCatalog_of_ne hscope] at hcur
        refine isSome_compactCatalog (fun hO => hscope ?_)
          (h.readable event (.snapshot hcur hin he hc))
        rw [← (hgone event (h.records.snapshot hcur event he) hO).1]
        exact h.placed hcur event he
    | @segment segment hs he hc hb =>
      have hs := (Remote.mem_segments_compactCatalog.mp hs).1
      refine isSome_compactCatalog (fun hO => ?_)
        (h.readable event (.segment hs he hc ((hcovered _).1.trans_lt hb)))
      obtain ⟨hscope, hle⟩ := hgone event (h.records.segment segment hs event he) hO
      rw [(hcovered _).2 hscope] at hb
      omega

end Compact

/-- Whatever a scan shows can be loaded. -/
theorem loads (h : remote.Intact published) (hobjects : ∀ x ∈ remote.commits, x ∈ published)
    (hids : ∀ x ∈ published, ∀ y ∈ published, y.id = x.id → y = x) {request : CatalogScanRequest}
    {delta : CatalogDelta} (hscan : remote.scanCatalog request = .ok delta) {event : CatalogEvent}
    (he : event ∈ delta.events) :
    ∃ x, remote.commits.get? event.commitId = some x ∧ x.event = event := by
  obtain ⟨hl, -⟩ := (h.wf.mem_scan_events hscan).mp he
  have hany : remote.Lists [] ∅ event := by
    cases hl with
    | snapshot hcur _ he hc => exact .snapshot hcur rfl he (Nat.zero_lt_of_lt hc)
    | segment hs he hc hb => exact .segment hs he (Nat.zero_lt_of_lt hc) hb
  obtain ⟨x, hx⟩ := Option.isSome_iff_exists.mp (h.readable event hany)
  obtain ⟨y, hy, rfl⟩ := h.records.scan h.wf hscan event he
  rw [hids y hy x (hobjects x (KeyedMap.mem_of_get? hx)) (KeyedMap.key_of_get? hx)] at hx
  exact ⟨y, hx, rfl⟩

end Remote.Intact

end Remotes

section Runs

variable [Crates] {S : Setting} {w w' : World} {c : String}

theorem World.Reachable.intact (hcol : Collisionless) (h : w.Reachable S World.Tidy) :
    w.remote.Intact w.published := by
  induction h with
  | refl => exact .init
  | @tail w w' hv hstep ih =>
    have hinv := World.Reachable.inv hv
    have hids := World.Reachable.ids hcol hv
    obtain ⟨l, hok, hs⟩ := hstep
    cases l with
    | start c command =>
      rw [World.start_cases hs]
      exact ih
    | edit c key file | crash c =>
      obtain rfl := Option.some.inj hs
      exact ih
    | answer c a =>
      obtain ⟨s, q, k, r, w₁, hp, hr, rfl⟩ := World.answer_cases hs
      change w₁.remote.Intact w₁.published
      generalize he : (⟨s, q, r⟩ : SyncEvent) = e at *
      have heffect := World.respond_effect hr
      rw [he] at heffect
      cases heffect with
      | scan | load | save => exact ih
      | batch => exact ih.publish
      | other _ same _ =>
        rw [same.published]
        exact ih.congr same.commits same.segments same.snapshots
      | @compact compaction =>
        cases he
        have hserve : a = .serve := by
          cases a <;> first | rfl | cases hr
        subst hserve
        have hcall := (hinv.clients c).meets
        rw [hp] at hcall
        obtain ⟨⟨scope, generation, hask⟩, -⟩ := hcall.1.2
        have hmem := (hinv.clients c).memory
        rw [Client.memory, hp] at hmem
        rw [World.Tidy, hp] at hok
        generalize compaction.obsoleteCommitIds = O at hask
        subst hask
        exact ih.compact hok hids hmem

/-- In runs of tidy compactions every event that a scan shows names a commit that can be
loaded, so that every refresh of any client succeeds. -/
theorem World.catalog_names_stored_commits (hcol : Collisionless)
    (h : w.Reachable S World.Tidy) :
    (∀ request delta, w.remote.scanCatalog request = .ok delta → ∀ event ∈ delta.events,
      ∃ x, w.remote.loadCommits [event.commitId] = .ok [x] ∧ x.event = event) ∧
    ∀ scopes s, ∃ t, w.remote.Refreshes scopes s t (.ok ()) := by
  have hintact := h.intact hcol
  have hloads := fun {request delta} (hscan : w.remote.scanCatalog request = .ok delta)
    {event : CatalogEvent} (he : event ∈ delta.events) =>
    hintact.loads h.inv.objects (h.ids hcol) hscan he
  constructor
  · intro request delta hscan event he
    obtain ⟨x, hx, hevent⟩ := hloads hscan he
    refine ⟨x, ?_, hevent⟩
    simp only [Remote.loadCommits, List.mapM_cons, List.mapM_nil, hx]
    rfl
  · intro scopes s
    obtain ⟨delta, hscan⟩ := hintact.wf.scanCatalog_ok ⟨scopes, s.cursors⟩
    have hsome : ∀ id ∈ s.missingIds delta, (w.remote.commits.get? id).isSome := by
      intro id hid
      obtain ⟨event, he, rfl⟩ := List.mem_map.mp hid
      obtain ⟨x, hx, -⟩ := hloads hscan (List.mem_filter.mp he).1
      rw [hx]
      rfl
    obtain ⟨commits, hload⟩ := loadCommits_ok hsome
    exact ⟨_, Refreshed.refreshes ⟨hscan, hload, rfl⟩⟩

end Runs

section Scripts

open Sample

attribute [local instance] crates

/-- `A` has cut the history of one file.  `B` still holds it, and lists it again when it
cuts the history of another one. -/
theorem World.snapshot_lists_deleted_commit : ∃ w, World.Reachable {} World.Survives w ∧
    ∃ delta, w.remote.scanCatalog ⟨[], []⟩ = .ok delta ∧
      ∃ event ∈ delta.events, w.remote.commits.get? event.commitId = none := by
  obtain ⟨w, hw, hp⟩ := exists_reachable {} World.Survives
    (upload "A" "a" "1" "t1" ++ upload "A" "a" "2" "t2" ++ sync "B" ++ tidy "A" ++ tidy "A" ++
      upload "B" "b" "3" "t3" ++ upload "B" "b" "4" "t4" ++ tidy "B" ++ tidy "B")
    (fun w => (w.remote.scanCatalog ⟨[], []⟩).toOption.any fun delta => delta.events.any fun event =>
      (w.remote.commits.get? event.commitId).isNone) (by decide +kernel)
  obtain ⟨delta, hscan, hp⟩ := (Option.any_eq_true _ _).mp hp
  obtain ⟨event, he, hnone⟩ := List.any_eq_true.mp hp
  refine ⟨w, hw, delta, ?_, event, he, Option.isNone_iff_eq_none.mp hnone⟩
  cases hscan' : w.remote.scanCatalog ⟨[], []⟩ with
  | ok delta' =>
    rw [hscan'] at hscan
    exact congrArg Except.ok (Option.some.inj hscan)
  | error e =>
    rw [hscan'] at hscan
    cases hscan

end Scripts

section Tidy

open Sample

attribute [local instance] spelled

/-- `A` cuts the history of a file while nobody else holds it. -/
theorem World.catalog_names_stored_commits_tidy : ∃ w, World.Reachable {} World.Tidy w ∧
    w.obsoleted ≠ [] ∧
    ∀ request delta, w.remote.scanCatalog request = .ok delta → ∀ event ∈ delta.events,
      ∃ x, w.remote.loadCommits [event.commitId] = .ok [x] ∧ x.event = event := by
  obtain ⟨w, hw, hp⟩ := exists_reachable {} World.Tidy
    (upload "A" "a" "1" "t1" ++ upload "A" "a" "2" "t2" ++ tidy "A" ++ tidy "A")
    (fun w => w.obsoleted ≠ []) (by decide +kernel)
  exact ⟨w, hw, of_decide_eq_true hp,
    (World.catalog_names_stored_commits spelled_collisionless hw).1⟩

end Tidy

end Rollforward
