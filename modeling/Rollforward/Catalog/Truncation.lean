import Rollforward.Catalog.Net
import Rollforward.Heads

/-! Truncation: a compaction may give up commits as long as the live ones stay a cut
of everything published.  A reader that is not left behind then holds a cut of what
it was shown. -/

namespace Rollforward

open Std Lib

variable [Crates]

/-- A live commit that stays, and has a live child, keeps one. -/
def LeavesChild (published : List Commit) (obsoleted O : List String) : Prop :=
  ∀ x ∈ published, x.id ∉ obsoleted → x.id ∉ O →
    (∃ y ∈ published, y.id ∉ obsoleted ∧ x.Over y) →
    ∃ z ∈ published, z.id ∉ obsoleted ∧ z.id ∉ O ∧ x.Over z

/-- What a compaction may give up: no head, no text, and not the last live child of a
commit that stays.  Its client holds nothing given up before. -/
structure Trims (published : List Commit) (obsoleted : List String) (s : RuntimeState)
    (scope : String) (O : List String) : Prop where
  heads : ∀ x ∈ published, x.id ∈ O → ∃ y ∈ published, x.Over y
  child : LeavesChild published obsoleted O
  text : ∀ x ∈ published, x.id ∈ O → x.change.isText = false
  clean : O ≠ [] → ∀ x ∈ s.commits.values, x.resource.scopeId = scope → x.id ∉ obsoleted

/-- The reader is not left behind: a head of its own that is not one any more still has
a live child. -/
def CatchesUp (published : List Commit) (obsoleted : List String) (s : RuntimeState)
    (scopes : List String) : Prop :=
  ∀ x ∈ s.commits.values, inScopes scopes x.resource.scopeId →
    (∀ y ∈ s.commits.values, ¬ x.Over y) → (∃ y ∈ published, x.Over y) →
    ∃ z ∈ published, z.id ∉ obsoleted ∧ x.Over z

/-- A list that was once everything published. -/
structure Past (published X : List Commit) : Prop where
  sub : ∀ x ∈ X, x ∈ published
  closed : ∀ y ∈ X, ∀ p ∈ y.parents, ∃ x ∈ X, x.id = p

/-- The events of the catalog are those of published commits. -/
structure Records (remote : Remote) (published : List Commit) : Prop where
  snapshot : ∀ {scope snapshot}, remote.current scope = some snapshot →
    ∀ event ∈ snapshot.events, ∃ x ∈ published, x.event = event
  segment : ∀ segment ∈ remote.segments, ∀ event ∈ segment.events,
    ∃ x ∈ published, x.event = event

section Sets

variable {published batch X : List Commit} {obsoleted O : List String}

theorem Past.append (h : Past published X) : Past (published ++ batch) X :=
  ⟨fun x hx => List.mem_append_left _ (h.sub x hx), h.closed⟩

theorem Past.nil : Past published [] := ⟨by simp, by simp⟩

/-- The part of a history that lies in some scopes. -/
def inScope (scopes : List String) (X : Set Commit) : Set Commit :=
  { x | x ∈ X ∧ inScopes scopes x.resource.scopeId = true }

theorem isHead_inScope {scopes : List String} {X : Set Commit} {x : Commit}
    (hx : inScopes scopes x.resource.scopeId = true) :
    IsHead Commit.Over (inScope scopes X) x ↔ IsHead Commit.Over X x := by
  constructor
  · rintro ⟨hmem, hno⟩
    exact ⟨hmem.1, fun y hy hxy => hno y ⟨hy, hxy.1.symm ▸ hx⟩ hxy⟩
  · rintro ⟨hmem, hno⟩
    exact ⟨⟨hmem, hx⟩, fun y hy => hno y hy.1⟩

theorem Records.scan {remote : Remote} (hr : Records remote published) (wf : remote.WellFormed)
    {request : CatalogScanRequest} {delta : CatalogDelta}
    (h : remote.scanCatalog request = .ok delta) :
    ∀ event ∈ delta.events, ∃ x ∈ published, x.event = event := by
  intro event he
  obtain ⟨hl, -⟩ := (wf.mem_scan_events h).mp he
  cases hl with
  | snapshot hcur _ hev _ => exact hr.snapshot hcur event hev
  | segment hs hev _ _ => exact hr.segment _ hs event hev

theorem Records.publish {remote : Remote} (hr : Records remote published) (batch : CommitBatch) :
    Records (remote.commitBatch batch) (published ++ batch.commits) where
  snapshot hcur event he := by
    rw [Remote.current_commitBatch] at hcur
    obtain ⟨x, hx, hev⟩ := hr.snapshot hcur event he
    exact ⟨x, List.mem_append_left _ hx, hev⟩
  segment segment hs event he := by
    rcases Remote.mem_segments_commitBatch.mp hs with hs | hs
    · obtain ⟨x, hx, hev⟩ := hr.segment segment hs event he
      exact ⟨x, List.mem_append_left _ hx, hev⟩
    · obtain ⟨⟨x, hx, hev⟩, -⟩ := (Remote.batchSegment_spec hs).1 event he
      exact ⟨x, List.mem_append_right _ hx, hev.symm⟩

theorem Records.compact {remote : Remote} (hr : Records remote published) {s : RuntimeState}
    (held : ∀ x ∈ s.commits, x ∈ published) {scope : String} {generation : Nat}
    (hunused : ∀ dir, remote.snapshots[scope]? = some dir → dir.generations[generation]? = none) :
    Records (remote.compactCatalog (s.compaction scope generation O)) published where
  snapshot := by
    intro sc snapshot hcur event he
    by_cases hsc : scope = sc
    · subst hsc
      have hcur' : (remote.compactCatalog (s.compaction scope generation O)).current scope =
          some (s.compaction scope generation O).snapshot := Remote.current_compactCatalog hunused
      obtain rfl := Option.some.inj (hcur.symm.trans hcur')
      obtain ⟨x, hx, rfl⟩ := List.mem_map.mp he
      exact ⟨x, held x (KeyedMap.mem_values.mp (List.mem_filter.mp hx).1), rfl⟩
    · rw [Remote.current_compactCatalog_of_ne hsc] at hcur
      exact hr.snapshot hcur event he
  segment segment hs := hr.segment segment (Remote.mem_segments_compactCatalog.mp hs).1

end Sets

/-- The live commits, as a set. -/
def Net.live (n : Net) : Set Commit := { x | Live n.published n.obsoleted x }

def Net.all (n : Net) : Set Commit := { x | x ∈ n.published }

/-- A scan on its way: what it was asked of, and what it will leave the client with. -/
structure Fetching (obsoleted : List String) (m : Member) (delta : CatalogDelta) : Prop where
  listed : ∀ event ∈ delta.events, ∃ x ∈ m.asked.2, x.event = event
  held : ∀ x ∈ m.memory.commits, x ∈ m.asked.2
  known : ∀ x ∈ m.asked.2, inScopes m.asked.1 x.resource.scopeId = true → x.id ∉ obsoleted →
    x ∈ m.memory.commits ∨ x.event ∈ delta.events

/-- The commits held once a scan is loaded: a cut of what was published.  Whatever is
given up meanwhile cannot be loaded any more. -/
def Promise (obsoleted : List String) (m : Member) (delta : CatalogDelta) : Prop :=
  ∃ N, Cut Commit.Over N (inScope m.asked.1 { x | x ∈ m.asked.2 }) ∧
    (∀ x ∈ N, x ∈ m.memory.commits ∨ x.event ∈ delta.events) ∧
    ∀ x ∈ m.asked.2, inScopes m.asked.1 x.resource.scopeId = true →
      x ∈ m.memory.commits ∨ x.event ∈ delta.events ∧ x.id ∉ obsoleted → x ∈ N

structure Member.Keeps (published : List Commit) (obsoleted : List String) (m : Member) :
    Prop where
  asked : Past published m.asked.2
  seen : ∀ scope, Past published (m.seen scope)
  savedSeen : ∀ scope, Past published (m.savedSeen scope)
  memory : ∀ x ∈ m.seen x.resource.scopeId, x.id ∉ obsoleted → x ∈ m.memory.commits
  saved : ∀ x ∈ m.savedSeen x.resource.scopeId, x.id ∉ obsoleted → x ∈ m.saved.commits
  pending : ∀ delta, m.pending = some delta → Fetching obsoleted m delta

/-- What the reader we follow is promised, and gets. -/
structure Member.Follows (obsoleted : List String) (m : Member) : Prop where
  pending : ∀ delta, m.pending = some delta → Promise obsoleted m delta
  current : m.current = true →
    Cut Commit.Over (inScope m.asked.1 m.memory.held) (inScope m.asked.1 { x | x ∈ m.asked.2 }) ∧
      ∀ scope, inScopes m.asked.1 scope = true → m.seen scope = m.asked.2

theorem Member.Keeps.append {published batch : List Commit} {obsoleted : List String} {m : Member}
    (h : m.Keeps published obsoleted) : m.Keeps (published ++ batch) obsoleted :=
  ⟨h.asked.append, fun scope => (h.seen scope).append, fun scope => (h.savedSeen scope).append,
    h.memory, h.saved, h.pending⟩

theorem Member.Keeps.obsolete {published : List Commit} {obsoleted : List String} {m : Member}
    (h : m.Keeps published obsoleted) (O : List String) : m.Keeps published (obsoleted ++ O) := by
  have hl : ∀ {id}, id ∉ obsoleted ++ O → id ∉ obsoleted := fun hn hin =>
    hn (List.mem_append_left _ hin)
  refine ⟨h.asked, h.seen, h.savedSeen, fun x hx hn => h.memory x hx (hl hn),
    fun x hx hn => h.saved x hx (hl hn), fun delta hd => ?_⟩
  have hf := h.pending delta hd
  exact ⟨hf.listed, hf.held, fun x hx hs hn => hf.known x hx hs (hl hn)⟩

theorem Member.Follows.obsolete {obsoleted : List String} {m : Member} (h : m.Follows obsoleted)
    (O : List String) : m.Follows (obsoleted ++ O) := by
  refine ⟨fun delta hd => ?_, h.current⟩
  obtain ⟨N, hcut, hN, hin⟩ := h.pending delta hd
  refine ⟨N, hcut, hN, fun x hx hs hk => hin x hx hs (hk.imp_right fun hk => ⟨hk.1, ?_⟩)⟩
  exact fun ho => hk.2 (List.mem_append_left _ ho)

namespace Net

/-- Compactions trim, and the reader `R` is never left behind. -/
def Trimmed (R : String) (n : Net) : Act → Prop
  | .compact c scope _ obsolete => Trims n.published n.obsoleted (n.member c).memory scope obsolete
  | .scan c scopes => c = R → CatchesUp n.published n.obsoleted (n.member c).memory scopes
  | _ => True

structure Cutting (R : String) (n : Net) : Prop where
  closed : Past n.published n.published
  cut : Cut Commit.Over n.live n.all
  text : ∀ x ∈ n.published, x.change.isText = true → x.id ∉ n.obsoleted
  records : Records n.remote n.published
  keeps : ∀ c, (n.member c).Keeps n.published n.obsoleted
  follows : (n.member R).Follows n.obsoleted

variable {R c : String} {n n' : Net}

theorem Cutting.init : Cutting R {} where
  closed := .nil
  cut := by
    refine ⟨?_, ?_, ?_⟩
    · rintro x ⟨hx, -⟩
      cases hx
    · rintro x ⟨hx, -⟩
      cases hx
    · rintro x ⟨hx, -⟩
      cases hx
  text := by simp
  records := ⟨by simp [Remote.current], by simp⟩
  keeps _ := ⟨.nil, fun _ => .nil, fun _ => .nil, by simp, by simp, by simp⟩
  follows := ⟨by simp, by simp⟩

theorem Cutting.set (h : n.Cutting R) {m : Member} (hk : m.Keeps n.published n.obsoleted)
    (hf : c = R → m.Follows n.obsoleted) : (n.set c m).Cutting R where
  closed := h.closed
  cut := h.cut
  text := h.text
  records := h.records
  keeps := (Function.forall_update_iff _ fun _ (m : Member) => m.Keeps n.published n.obsoleted).mpr
    ⟨hk, fun c _ => h.keeps c⟩
  follows := by
    by_cases hc : c = R
    · subst hc
      rw [show (n.set c m).member c = m from Function.update_self ..]
      exact hf rfl
    · rw [show (n.set c m).member R = n.member R from Function.update_of_ne (Ne.symm hc) ..]
      exact h.follows

theorem Cutting.live_known (hv : n.Valid) {scopes : List String} {delta : CatalogDelta}
    (answer : n.remote.scanCatalog ⟨scopes, (n.member c).memory.cursors⟩ = .ok delta) {x : Commit}
    (hx : Live n.published n.obsoleted x) (hscope : inScopes scopes x.resource.scopeId = true) :
    x ∈ (n.member c).memory.commits ∨ x.event ∈ delta.events := by
  by_cases hread : x.clientCounter ≤
      reached (collectCursors (n.member c).memory.cursors) x.lane
  · exact Or.inl ((hv.members c).memory.knows x hx hread)
  · exact Or.inr ((hv.catalog.listed x hx).mem_scan hv.catalog.wf answer hscope
      (Nat.not_le.mp hread))

theorem Cutting.promise (h : n.Cutting R) (hv : n.Valid) {scopes : List String}
    {delta : CatalogDelta}
    (answer : n.remote.scanCatalog ⟨scopes, (n.member c).memory.cursors⟩ = .ok delta)
    (hup : CatchesUp n.published n.obsoleted (n.member c).memory scopes) {m : Member}
    (hmem : m.memory = (n.member c).memory) (hasked : m.asked = (scopes, n.published)) :
    Promise n.obsoleted m delta := by
  rw [Promise, hmem, hasked]
  have hheld := (hv.members c).memory.held
  refine ⟨inScope scopes { x | x ∈ n.published ∧ (x ∈ (n.member c).memory.commits ∨
    x.event ∈ delta.events ∧ x.id ∉ n.obsoleted) }, ⟨?_, ?_, ?_⟩, ?_, ?_⟩
  · exact fun x hx => ⟨hx.1.1, hx.2⟩
  · rintro x ⟨⟨hx, hin⟩, hscope⟩ y ⟨hy, -⟩ hxy
    -- a live child is known, and becomes part of the cut
    have hlive : ∀ z, Live n.published n.obsoleted z → x.Over z → ∃ z ∈ inScope scopes
        { x | x ∈ n.published ∧ (x ∈ (n.member c).memory.commits ∨
          x.event ∈ delta.events ∧ x.id ∉ n.obsoleted) }, x.Over z := by
      intro z hz hxz
      have hzs : inScopes scopes z.resource.scopeId = true := hxz.1.symm ▸ hscope
      refine ⟨z, ⟨⟨hz.1, ?_⟩, hzs⟩, hxz⟩
      exact (Cutting.live_known hv answer hz hzs).imp_right fun he => ⟨he, hz.2⟩
    rcases hin with hin | ⟨-, hnot⟩
    · by_cases hchild : ∃ z ∈ (n.member c).memory.commits, x.Over z
      · obtain ⟨z, hz, hxz⟩ := hchild
        exact ⟨z, ⟨⟨hheld z hz, Or.inl hz⟩, hxz.1.symm ▸ hscope⟩, hxz⟩
      · obtain ⟨z, hz, hzl, hxz⟩ := hup x (KeyedMap.mem_values.mpr hin) hscope
          (fun z hz hxz => hchild ⟨z, KeyedMap.mem_values.mp hz, hxz⟩) ⟨y, hy, hxy⟩
        exact hlive z ⟨hz, hzl⟩ hxz
    · obtain ⟨z, hz, hxz⟩ := h.cut.child x ⟨hx, hnot⟩ y hy hxy
      exact hlive z hz hxz
  · intro x hx
    have hscope := hx.1.2
    have hlive := h.cut.head x ((isHead_inScope hscope).mp hx)
    refine ⟨⟨hlive.1, ?_⟩, hscope⟩
    exact (Cutting.live_known hv answer hlive hscope).imp_right fun he => ⟨he, hlive.2⟩
  · rintro x ⟨⟨-, hx⟩, -⟩
    exact hx.imp_right And.left
  · exact fun x hx hscope hin => ⟨⟨hx, hin⟩, hscope⟩

theorem Cutting.absorb (h : n.Cutting R) (hv : n.Valid) {delta : CatalogDelta}
    {commits : List Commit} (scanned : (n.member c).pending = some delta)
    (answer : n.remote.loadCommits ((n.member c).memory.missingIds delta) = .ok commits) :
    (n.set c { n.member c with
      memory := (n.member c).memory.absorb commits delta
      pending := none
      current := true
      seen := refreshSeen (n.member c).asked (n.member c).seen }).Cutting R := by
  have hk := h.keeps c
  have hf := hk.pending delta scanned
  have hs := (hv.members c).memory
  have hmem := fun x => hv.catalog.mem_absorb hv.ids hs answer (x := x)
  refine h.set ⟨hk.asked, ?_, hk.savedSeen, ?_, hk.saved, by simp⟩ ?_
  · intro scope
    simp only [refreshSeen]
    split
    · exact hk.asked
    · exact hk.seen scope
  · intro x hx hlive
    simp only [refreshSeen] at hx
    split at hx
    · next hscope =>
      rcases hf.known x hx hscope hlive with hx' | hev
      · exact (hmem x).mpr (Or.inl hx')
      · exact hv.catalog.mem_absorb_of_event hv.ids hs answer (hk.asked.sub x hx) hev
    · exact (hmem x).mpr (Or.inl (hk.memory x hx hlive))
  · rintro rfl
    refine ⟨by simp, fun _ => ⟨?_, ?_⟩⟩
    · obtain ⟨N, hcut, hN, hin⟩ := h.follows.pending delta scanned
      have hset : inScope (n.member c).asked.1 ((n.member c).memory.absorb commits delta).held = N := by
        ext x
        constructor
        · rintro ⟨hx, hscope⟩
          rcases (hmem x).mp hx with hx | hx
          · exact hin x (hf.held x hx) hscope (Or.inl hx)
          · -- a loaded commit is the one whose event was shown
            obtain ⟨hobj, hid⟩ := (mem_loadCommits answer).1 x hx
            have hlive := (hv.catalog.objects x).mp hobj
            obtain ⟨event, he, hid⟩ := List.mem_map.mp hid
            obtain ⟨z, hz, rfl⟩ := hf.listed event (List.mem_filter.mp he).1
            obtain rfl := hv.ids x hlive.1 z (hk.asked.sub z hz) hid
            exact hin z hz hscope (Or.inr ⟨(List.mem_filter.mp he).1, hlive.2⟩)
        · intro hx
          have hsub := hcut.sub hx
          refine ⟨?_, hsub.2⟩
          rcases hN x hx with hx | hev
          · exact (hmem x).mpr (Or.inl hx)
          · exact hv.catalog.mem_absorb_of_event hv.ids hs answer (hk.asked.sub x hsub.1) hev
      rw [hset]
      exact hcut
    · intro scope hscope
      exact if_pos hscope

theorem Cutting.publish (h : n.Cutting R) (hv : n.Valid) (hv' : n'.Valid) {batch : CommitBatch}
    (may : Publishable c (n.member c) batch.commits)
    (hpub : n'.published = n.published ++ batch.commits) (hob : n'.obsoleted = n.obsoleted)
    (hremote : n'.remote = n.remote.commitBatch batch)
    (hkeeps : ∀ c, (n'.member c).Keeps n'.published n'.obsoleted)
    (hfollows : (n'.member R).Follows n'.obsoleted) : n'.Cutting R := by
  have hf := may.fresh (hv.counted c)
  have hids := hv'.ids
  rw [hpub] at hids
  have hnew := hv.not_obsoleted hf hids
  refine ⟨?_, ?_, ?_, ?_, hkeeps, hfollows⟩
  · rw [hpub]
    refine ⟨fun _ hx => hx, fun y hy p hp => ?_⟩
    rcases List.mem_append.mp hy with hy | hy
    · obtain ⟨x, hx, hid⟩ := h.closed.closed y hy p hp
      exact ⟨x, List.mem_append_left _ hx, hid⟩
    · obtain ⟨x, hx⟩ := Option.isSome_iff_exists.mp (may.parents y hy p hp)
      exact ⟨x, List.mem_append_left _ ((hv.members c).memory.held x (KeyedMap.mem_of_get? hx)),
        KeyedMap.key_of_get? hx⟩
  · have hlive : n'.live = n.live ∪ { x | x ∈ batch.commits } := by
      ext x
      simp only [live, Live, hpub, hob, List.mem_append, Set.mem_union, Set.mem_ofPred_eq]
      constructor
      · rintro ⟨hx | hx, hl⟩
        · exact Or.inl ⟨hx, hl⟩
        · exact Or.inr hx
      · rintro (⟨hx, hl⟩ | hx)
        · exact ⟨Or.inl hx, hl⟩
        · exact ⟨Or.inr hx, hnew x hx⟩
    have hall : n'.all = n.all ∪ { x | x ∈ batch.commits } := by
      ext x
      simp only [all, hpub, List.mem_append, Set.mem_union, Set.mem_ofPred_eq]
    rw [hlive, hall]
    refine h.cut.union fun x hx y hy hxy => ?_
    obtain ⟨z, hz, hid⟩ := h.closed.closed y hy x.id hxy.2
    obtain rfl := hids x (List.mem_append_right _ hx) z (List.mem_append_left _ hz) hid
    exact absurd rfl ((hf z hx).2 z hz rfl).ne
  · rw [hpub, hob]
    intro x hx ht
    rcases List.mem_append.mp hx with hx | hx
    · exact h.text x hx ht
    · exact hnew x hx
  · rw [hpub, hremote]
    exact h.records.publish batch

theorem Cutting.compact (h : n.Cutting R) (hv : n.Valid) {scope : String} {generation : Nat}
    {O : List String} (hup : UpToDate n.remote n.obsoleted (n.member c).memory scope generation)
    (htrim : Trims n.published n.obsoleted (n.member c).memory scope O)
    (hpub : n'.published = n.published) (hob : n'.obsoleted = n.obsoleted ++ O)
    (hremote : n'.remote = n.remote.compactCatalog
      ((n.member c).memory.compaction scope generation O))
    (hkeeps : ∀ c, (n'.member c).Keeps n'.published n'.obsoleted)
    (hfollows : (n'.member R).Follows n'.obsoleted) : n'.Cutting R := by
  refine ⟨?_, ?_, ?_, ?_, hkeeps, hfollows⟩
  · rw [hpub]
    exact h.closed
  · have hlive : ∀ x, x ∈ n'.live ↔ x ∈ n.live ∧ x.id ∉ O := by
      intro x
      simp only [live, Live, hpub, hob, List.mem_append, Set.mem_ofPred_eq, not_or, and_assoc]
    rw [show n'.all = n.all by simp only [all, hpub]]
    refine Cut.trans ⟨fun x hx => ((hlive x).mp hx).1, ?_, ?_⟩ h.cut
    · intro x hx y hy hxy
      obtain ⟨⟨hp, hl⟩, hO⟩ := (hlive x).mp hx
      obtain ⟨z, hz, hzl, hzO, hxz⟩ := htrim.child x hp hl hO ⟨y, hy.1, hy.2, hxy⟩
      exact ⟨z, (hlive z).mpr ⟨⟨hz, hzl⟩, hzO⟩, hxz⟩
    · intro x hx
      refine (hlive x).mpr ⟨hx.1, fun hO => ?_⟩
      obtain ⟨y, hy, hxy⟩ := htrim.heads x hx.1.1 hO
      exact (h.cut.isHead_iff.mp hx).2 y hy hxy
  · rw [hpub, hob]
    intro x hx ht hin
    rcases List.mem_append.mp hin with hin | hin
    · exact h.text x hx ht hin
    · simp [htrim.text x hx hin] at ht
  · rw [hpub, hremote]
    exact h.records.compact (hv.members c).memory.held hup.unused

/-- The member of the reader after one of `c` changed. -/
theorem follows_set {m : Member} {obsoleted : List String} (hself : c = R → m.Follows obsoleted)
    (hother : c ≠ R → (n.member R).Follows obsoleted) :
    ((n.set c m).member R).Follows obsoleted := by
  by_cases hc : c = R
  · subst hc
    rw [show (n.set c m).member c = m from Function.update_self ..]
    exact hself rfl
  · rw [show (n.set c m).member R = n.member R from Function.update_of_ne (Ne.symm hc) ..]
    exact hother hc

theorem Cutting.move (h : n.Cutting R) (hv : n.Valid) (hv' : n'.Valid) {a : Act}
    (hup : n.Compacts a) (htrim : n.Trimmed R a) (hm : Move n a n') : n'.Cutting R := by
  cases hm with
  | @scan c scopes delta answer =>
    have hk := h.keeps c
    refine h.set ⟨h.closed, hk.seen, hk.savedSeen, hk.memory, hk.saved, ?_⟩ fun hc => ⟨?_, by simp⟩
    · intro delta' hd
      obtain rfl := Option.some.inj hd
      refine ⟨h.records.scan hv.catalog.wf answer, (hv.members c).memory.held, ?_⟩
      exact fun x hx hs hl => Cutting.live_known hv answer ⟨hx, hl⟩ hs
    · intro delta' hd
      obtain rfl := Option.some.inj hd
      exact h.promise hv answer (htrim hc) rfl rfl
  | absorb scanned answer => exact h.absorb hv scanned answer
  | @publish c batch may =>
    refine h.publish hv hv' may rfl rfl rfl ?_ (follows_set (fun _ => ⟨by simp, by simp⟩) ?_)
    · have hk : (n.member c).Keeps (n.published ++ batch.commits) n.obsoleted := (h.keeps c).append
      exact (Function.forall_update_iff _ fun _ (m : Member) =>
        m.Keeps (n.published ++ batch.commits) n.obsoleted).mpr
          ⟨⟨hk.asked, hk.seen, hk.savedSeen, hk.memory, hk.saved, by simp⟩,
            fun c' _ => (h.keeps c').append⟩
    · exact fun _ => h.follows
  | @compact c scope generation O held =>
    refine h.compact hv hup htrim rfl rfl rfl ?_ (follows_set (fun _ => ⟨by simp, by simp⟩) ?_)
    · have hk := (h.keeps c).obsolete O
      refine (Function.forall_update_iff _ fun _ (m : Member) =>
        m.Keeps n.published (n.obsoleted ++ O)).mpr ⟨⟨hk.asked, hk.seen, hk.savedSeen, ?_, hk.saved,
          by simp⟩, fun c' _ => (h.keeps c').obsolete O⟩
      intro x hx hl
      refine KeyedMap.mem_eraseAll.mpr ⟨hk.memory x hx hl, fun hin => ?_⟩
      exact hl (List.mem_append_right _ hin)
    · exact fun _ => h.follows.obsolete O
  | @work c s grown =>
    have hk := h.keeps c
    obtain ⟨xs, hxs, hcommits⟩ := grown.commits
    obtain rfl : xs = [] := List.eq_nil_iff_forall_not_mem.mpr fun x hx => by simpa using hxs x hx
    have hheld : s.held = (n.member c).memory.held := by
      ext x
      simp only [RuntimeState.held, hcommits, KeyedMap.insertAll_nil]
    refine h.set ⟨hk.asked, hk.seen, hk.savedSeen, ?_, hk.saved, ?_⟩ fun hc => ?_
    · rw [hcommits]
      exact hk.memory
    · intro delta hd
      have hf := hk.pending delta hd
      exact ⟨hf.listed, by rw [hcommits]; exact hf.held, by rw [hcommits]; exact hf.known⟩
    · subst hc
      refine ⟨fun delta hd => ?_, ?_⟩
      · have hp := h.follows.pending delta hd
        rw [Promise] at hp ⊢
        rw [hcommits]
        exact hp
      · rw [hheld]
        exact h.follows.current
  | @record c s idle stale grown =>
    have hk := h.keeps c
    obtain ⟨xs, hxs, hcommits⟩ := grown.commits
    refine h.set ⟨hk.asked, hk.seen, hk.savedSeen, ?_, hk.saved, by simp [idle]⟩ fun _ =>
      ⟨by simp [idle], by simp [stale]⟩
    intro x hx hl
    rw [hcommits, (hv.members c).memory.mem_insertAll hv.ids]
    · exact Or.inl (hk.memory x hx hl)
    · exact fun y hy => (List.mem_filter.mp (hxs y hy)).1
  | @drop c =>
    have hk := h.keeps c
    exact h.set ⟨hk.asked, hk.seen, hk.savedSeen, hk.memory, hk.saved, by simp⟩ fun _ =>
      ⟨by simp, by simp⟩
  | @save c =>
    have hk := h.keeps c
    refine h.set ⟨hk.asked, hk.seen, hk.seen, hk.memory, hk.memory, fun delta hd => ?_⟩ ?_
    · have hf := hk.pending delta hd
      exact ⟨hf.listed, hf.held, hf.known⟩
    · rintro rfl
      exact ⟨h.follows.pending, h.follows.current⟩
  | @start c =>
    have hk := h.keeps c
    refine h.set ⟨hk.asked, hk.seen, hk.savedSeen, hk.memory, hk.saved, fun delta hd => ?_⟩ ?_
    · have hf := hk.pending delta hd
      exact ⟨hf.listed, hf.held, hf.known⟩
    · rintro rfl
      exact ⟨h.follows.pending, h.follows.current⟩
  | @crash c =>
    have hk := h.keeps c
    exact h.set ⟨hk.asked, hk.savedSeen, hk.savedSeen, hk.saved, hk.saved, by simp⟩ fun _ =>
      ⟨by simp, by simp⟩
  | @other remote commits segments snapshots =>
    have hcurrent : remote.current = n.remote.current := by
      funext scope
      rw [Remote.current, snapshots, ← Remote.current]
    refine ⟨h.closed, h.cut, h.text, ⟨?_, ?_⟩, h.keeps, h.follows⟩
    · intro scope snapshot hcur
      exact h.records.snapshot (hcurrent ▸ hcur)
    · exact segments ▸ h.records.segment

end Net

end Rollforward
