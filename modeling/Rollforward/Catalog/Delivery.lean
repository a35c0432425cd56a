import Rollforward.Catalog.Refinement
import Rollforward.Sample

/-! Counters and delivery over whole runs: when no publication is lost in a crash,
counters tell commits apart, and when no compaction comes from a client that is
behind, every live commit reaches every reader. -/

namespace Rollforward

open Std Lib

section Conditions

variable [Crates]

/-- No client crashes between a batch and the save that records it. -/
def World.Survives (w : World) : Label → Prop
  | .crash c => (w.clients c).unsaved = false
  | _ => True

/-- A compaction is served only while its client is not behind the snapshot it replaces. -/
def World.Compacts (w : World) : Label → Prop
  | .answer c .serve =>
    match (w.clients c).prog with
    | .call s (.compactCatalog compaction) _ => UpToDate w.remote w.obsoleted s
        compaction.snapshot.scopeId compaction.snapshot.generation
    | _ => True
  | _ => True

def World.Harmless (w : World) (l : Label) : Prop := w.Survives l ∧ w.Compacts l

instance (remote : Remote) (obsoleted : List String) (s : RuntimeState) (scope : String)
    (generation : Nat) : Decidable (UpToDate remote obsoleted s scope generation) :=
  decidable_of_iff
    ((remote.snapshots[scope]?.all fun dir => dir.generations[generation]?.isNone) ∧
      (remote.current scope).all fun snapshot => snapshot.events.all fun event =>
        event.commitId ∈ obsoleted ∨ (s.commits.get? event.commitId).isSome ∨
          remote.segments.any fun segment => event ∈ segment.events) <| by
    constructor
    · rintro ⟨hunused, hholds⟩
      refine ⟨by simpa [Option.all_eq_true] using hunused, ?_⟩
      intro snapshot hs event he hlive
      simp only [Option.all_eq_true, List.all_eq_true, decide_eq_true_eq, List.any_eq_true] at hholds
      exact (hholds snapshot hs event he).resolve_left hlive
    · rintro ⟨hunused, hholds⟩
      refine ⟨by simpa [Option.all_eq_true] using hunused, ?_⟩
      simp only [Option.all_eq_true, List.all_eq_true, decide_eq_true_eq, List.any_eq_true]
      intro snapshot hs event he
      by_cases hlive : event.commitId ∈ obsoleted
      · exact Or.inl hlive
      · exact Or.inr (hholds snapshot hs event he hlive)

instance (w : World) : DecidablePred w.Survives := fun l =>
  match l with
  | .crash c => inferInstanceAs (Decidable ((w.clients c).unsaved = false))
  | .start .. | .answer .. | .edit .. => inferInstanceAs (Decidable True)

instance (w : World) : DecidablePred w.Compacts := fun l => by
  unfold World.Compacts
  split
  · split <;> infer_instance
  · infer_instance

instance (w : World) : DecidablePred w.Harmless := fun l =>
  inferInstanceAs (Decidable (w.Survives l ∧ w.Compacts l))

end Conditions

section Runs

variable [Crates] {S : Setting} {w : World}

theorem World.Survives.net {l : Label} (h : w.Survives l) : w.net.Survives (w.act l) := by
  unfold World.act
  split
  · exact h
  · split <;> exact trivial
  · exact trivial

theorem World.Compacts.net {l : Label} (h : w.Compacts l) : w.net.Compacts (w.act l) := by
  unfold World.act
  split
  · exact trivial
  · next c =>
    split
    · exact trivial
    · next s compaction k hp =>
      rw [World.Compacts, hp] at h
      have hmem : (w.net.member c).memory = s := by
        rw [show (w.net.member c).memory = (w.clients c).prog.memory from rfl, hp]
        rfl
      rw [Net.Compacts, hmem]
      exact h
    · exact trivial
  · exact trivial

theorem Act.Free.survives {n : Net} {a : Act} (h : a.Free) : n.Survives a := by
  cases a <;> first | exact trivial | exact h.elim

theorem Act.Free.compacts {n : Net} {a : Act} (h : a.Free) : n.Compacts a := by
  cases a <;> first | exact trivial | exact h.elim

theorem World.Reachable.counted (hex : ∀ data, ':' ∉ (blake3 data).toList)
    (h : w.Reachable S World.Survives) : w.net.Counted :=
  Net.Run.counted .init (fun _ _ hP => hP)
    (h.run hex (fun _ _ hfree => hfree.survives) fun _ _ hok => hok.net)

theorem World.Reachable.valid (hex : ∀ data, ':' ∉ (blake3 data).toList)
    (h : w.Reachable S World.Harmless) : w.net.Valid :=
  Net.Run.valid .init (fun _ _ hP => hP)
    (h.run (P := fun n a => n.Survives a ∧ n.Compacts a) hex
      (fun _ _ hfree => ⟨hfree.survives, hfree.compacts⟩) fun _ _ hok => ⟨hok.1.net, hok.2.net⟩)

/-- A scan delivers a commit of a scope it asks for. -/
def Remote.Delivers (remote : Remote) (cursors : List CatalogCursor) (x : Commit) : Prop :=
  ∀ scopes, inScopes scopes x.resource.scopeId →
    ∃ delta, remote.scanCatalog ⟨scopes, cursors⟩ = .ok delta ∧ x.event ∈ delta.events

theorem Sound.delivers {remote : Remote} {published : List Commit} {obsoleted : List String}
    (h : Sound remote published obsoleted) {x : Commit} (hx : Live published obsoleted x)
    {cursors : List CatalogCursor}
    (hunread : reached (collectCursors cursors) x.lane < x.clientCounter) :
    remote.Delivers cursors x := by
  intro scopes hscope
  obtain ⟨delta, hscan⟩ := h.wf.scanCatalog_ok ⟨scopes, cursors⟩
  exact ⟨delta, hscan, (h.listed x hx).mem_scan h.wf hscan hscope hunread⟩

/-- Counters tell the commits of one author and scope apart in every run that loses no
publication; if compactions are up to date as well, every live commit is held by a
client or delivered by its next scan. -/
theorem World.counters_survive_restarts (hex : ∀ data, ':' ∉ (blake3 data).toList)
    (h : w.Reachable S World.Survives) :
    (∀ x ∈ w.published, ∀ y ∈ w.published, x.author = y.author →
      x.resource.scopeId = y.resource.scopeId → x.clientCounter = y.clientCounter → x = y) ∧
    (w.Reachable S World.Harmless → ∀ x, Live w.published w.obsoleted x → ∀ peer,
      x ∈ (w.memory peer).commits ∨ w.remote.Delivers (w.memory peer).cursors x) := by
  constructor
  · intro x hx y hy ha _ hc
    exact (h.counted hex).counters x hx y hy ha hc
  · intro h x hx peer
    have hv := h.valid hex
    by_cases hread : x.clientCounter ≤ reached (collectCursors (w.memory peer).cursors) x.lane
    · exact Or.inl ((hv.members peer).memory.knows x hx hread)
    · exact Or.inr (hv.catalog.delivers hx (Nat.not_le.mp hread))

/-- Compactions from clients that are not behind never hide a live commit. -/
theorem World.compaction_hides_no_live_commit (hex : ∀ data, ':' ∉ (blake3 data).toList)
    (h : w.Reachable S World.Harmless) (x : Commit) (hx : Live w.published w.obsoleted x) :
    w.remote.Delivers [] x ∧ w.remote.loadCommits [x.id] = .ok [x] := by
  have hv := h.valid hex
  refine ⟨hv.catalog.delivers hx ?_, ?_⟩
  · simpa [collectCursors] using hv.positive x hx.1
  · have hget : w.remote.commits.get? x.id = some x :=
      KeyedMap.mem_def.mp ((hv.catalog.objects x).mpr hx)
    simp only [Remote.loadCommits, List.mapM_cons, List.mapM_nil, hget]
    rfl

end Runs

section Scripts

open Sample

attribute [local instance] crates

theorem World.compaction_hides_no_live_commit_tidy : ∃ w x, World.Reachable {} World.Harmless w ∧
    Live w.published w.obsoleted x ∧ w.obsoleted ≠ [] ∧
    w.remote.Delivers [] x ∧ w.remote.loadCommits [x.id] = .ok [x] := by
  obtain ⟨w, hw, hp⟩ := exists_reachable {} World.Harmless
    (upload "A" "a" "1" "t1" ++ upload "A" "a" "2" "t2" ++ tidy "A" ++ tidy "A")
    (fun w => w.obsoleted ≠ [] ∧ w.published.any fun x => x.id ∉ w.obsoleted)
    (by decide +kernel)
  simp only [List.any_eq_true, decide_eq_true_eq] at hp
  obtain ⟨hob, x, hx, hlive⟩ := hp
  exact ⟨w, x, hw, ⟨hx, hlive⟩, hob,
    World.compaction_hides_no_live_commit colon_notMem_hex hw x ⟨hx, hlive⟩⟩

/-- `B` compacts between the refresh and the compaction of `A`: the snapshot of `A`
replaces the one of `B` without the file that only `B` had seen. -/
theorem World.stale_compaction_hides_commit : ¬ ∀ (S : Setting) (w : World),
    w.Reachable S (fun _ _ => True) → ∀ x, Live w.published w.obsoleted x →
      w.remote.Delivers [] x := by
  obtain ⟨w, hw, hp⟩ := exists_reachable {} (fun _ _ => True)
    (upload "A" "a" "1" "t1" ++ upload "A" "a" "2" "t2" ++ tidy "A" ++
      upload "B" "b" "3" "t3" ++ upload "B" "b" "4" "t4" ++ tidy "B" ++
      [.step (.start "A" (.maintain ⟨[], 1⟩)), .answers "A" 2] ++
      upload "B" "c" "5" "t5" ++ tidy "B" ++ [.answers "A" 40])
    (fun w => (w.remote.scanCatalog ⟨[], []⟩).toOption.any fun delta =>
      w.published.any fun x => x.id ∉ w.obsoleted ∧ x.event ∉ delta.events)
    (by decide +kernel)
  intro h
  cases hscan : w.remote.scanCatalog ⟨[], []⟩ with
  | error e => simp [hscan, Except.toOption] at hp
  | ok delta =>
    simp only [hscan, Except.toOption, Option.any_some, List.any_eq_true, decide_eq_true_eq] at hp
    obtain ⟨x, hx, hlive, hmiss⟩ := hp
    obtain ⟨delta', hscan', hev⟩ := h {} w hw x ⟨hx, hlive⟩ [] rfl
    rw [hscan] at hscan'
    exact hmiss (Except.ok.inj hscan' ▸ hev)

theorem World.counters_survive_restarts_saved : ∃ w, World.Reachable {} World.Survives w ∧
    2 ≤ w.published.length ∧
    (∀ x ∈ w.published, ∀ y ∈ w.published, x.author = y.author →
      x.resource.scopeId = y.resource.scopeId → x.clientCounter = y.clientCounter → x = y) ∧
    (w.Reachable {} World.Harmless → ∀ x, Live w.published w.obsoleted x → ∀ peer,
      x ∈ (w.memory peer).commits ∨ w.remote.Delivers (w.memory peer).cursors x) := by
  obtain ⟨w, hw, hp⟩ := exists_reachable {} World.Survives
    (upload "A" "a" "1" "t1" ++ [.step (.crash "A")] ++ upload "A" "b" "2" "t2")
    (fun w => 2 ≤ w.published.length) (by decide +kernel)
  exact ⟨w, hw, of_decide_eq_true hp, World.counters_survive_restarts colon_notMem_hex hw⟩

/-- `A` crashes after its batch went out and before it saves.  The counter comes back,
and `B`, which has read past it, is never shown the second commit. -/
theorem World.counter_reused_after_crash : ∃ w, World.Reachable {} (fun _ _ => True) w ∧
    ∃ x ∈ w.published, ∃ y ∈ w.published, x.author = y.author ∧
      x.resource.scopeId = y.resource.scopeId ∧ x.clientCounter = y.clientCounter ∧ x.id ≠ y.id ∧
      (w.memory "B").commits.get? y.id = none ∧
      ¬ w.remote.Delivers (w.memory "B").cursors y := by
  obtain ⟨w, hw, hp⟩ := exists_reachable {} (fun _ _ => True)
    ([.step (.edit "A" (key "a") (text "1" "t1")),
      .step (.start "A" (.reconcile ⟨["s"]⟩)), .answers "A" 8, .step (.crash "A")] ++
      sync "B" ++ upload "A" "b" "2" "t2")
    (fun w => (w.remote.scanCatalog ⟨[], (w.memory "B").cursors⟩).toOption.any fun delta =>
      w.published.any fun x => w.published.any fun y => x.author = y.author ∧
        x.resource.scopeId = y.resource.scopeId ∧ x.clientCounter = y.clientCounter ∧ x.id ≠ y.id ∧
        ((w.memory "B").commits.get? y.id).isNone ∧ y.event ∉ delta.events)
    (by decide +kernel)
  cases hscan : w.remote.scanCatalog ⟨[], (w.memory "B").cursors⟩ with
  | error e => simp [hscan, Except.toOption] at hp
  | ok delta =>
    simp only [hscan, Except.toOption, Option.any_some, List.any_eq_true, decide_eq_true_eq,
      Option.isNone_iff_eq_none] at hp
    obtain ⟨x, hx, y, hy, ha, hs, hc, hid, hnone, hmiss⟩ := hp
    refine ⟨w, hw, x, hx, y, hy, ha, hs, hc, hid, hnone, fun hd => ?_⟩
    obtain ⟨delta', hscan', hev⟩ := hd [] rfl
    rw [hscan] at hscan'
    exact hmiss (Except.ok.inj hscan' ▸ hev)

end Scripts

end Rollforward
