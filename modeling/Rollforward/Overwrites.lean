import Rollforward.Spelled
import Rollforward.Published

/-! What `reconcile` may publish over: a version that its client has integrated, as the
client's own baseline says.  Everything else that is a head stays one. -/

namespace Rollforward

open Std Lib

section Rounds

variable [Crates] {S : Setting} {w w' : World} {c : String} {ok : World → Label → Prop}
variable {s : RuntimeState} {batch : CommitBatch}
variable {k : Except SyncError Unit → Prog host RuntimeState (Except SyncError Unit)}

/-- The batches of a call are those of rounds. -/
def InRounds (S : Setting) (versions : List (ResourceKey × File)) (h : List SyncEvent)
    (s : RuntimeState) : Req → Prop
  | .commitBatch batch => ∃ round : Round, round.Publishes S versions h s batch
  | _ => True

/-- The round whose batch a `reconcile` is about to publish. -/
theorem World.Relies.round (h : w.Relies S) {request : SyncRequest}
    (hcommand : (w.clients c).command = some (.reconcile request))
    (hp : (w.clients c).prog = .call s (.commitBatch batch) k) :
    ∃ round : Round, round.Publishes S (w.clients c).versions (w.clients c).trace s batch := by
  have hspec : ∀ s₀, (Command.run ⟨c, S.policy c⟩ (.reconcile request) s₀).Meets
      (Prog.fairly (Fair S w.published (w.clients c).versions))
      (InRounds S (w.clients c).versions) (fun _ _ _ => True) [] := by
    intro s₀
    have hrun : Comp.wp (Prog.fairly (Fair S w.published (w.clients c).versions))
        (InRounds S (w.clients c).versions) (fun _ _ _ => True)
        (Command.run ⟨c, S.policy c⟩ (.reconcile request)) (fun _ _ _ => True) [] s₀ := by
      rw [Command.run, Comp.wp_bind]
      refine Comp.wp_imp (reconcile_publishes ?_ ?_ _ request [] s₀) fun _ _ _ _ => trivial
      · intro h s q hq
        cases q <;> first | exact trivial | exact hq.elim
      · exact fun round h s batch hround => ⟨round, hround⟩
    exact Prog.Meets.imp hrun (fun _ _ _ hq => hq) fun _ _ _ _ => trivial
  have hcall := h.call hcommand (hspec _) fun _ _ hfair => hfair
  rw [hp] at hcall
  exact hcall.1

/-- Only text resources get text versions. -/
theorem World.Reachable.text_kind (h : w.Reachable S ok) :
    ∀ x ∈ w.published, x.change.isText = true → S.kindOf x.resource = .text := by
  induction h with
  | refl => simp
  | tail hv hstep ih =>
    obtain ⟨l, -, hs⟩ := hstep
    rcases World.step_published hs with e | ⟨c, s, batch, k, -, hp, e⟩
    · rw [e]
      exact ih
    · rw [e]
      intro x hx ht
      rcases List.mem_append.mp hx with hx | hx
      · exact ih x hx ht
      · obtain ⟨files, existing, hmade⟩ := (World.Reachable.relies hv).publishes hp
        rcases (hmade.commits x hx).text ht with hkind | ⟨y, hy, hr, hty⟩
        · exact hkind
        · -- it was made from a text version that its client holds
          have hmem := ((World.Reachable.inv hv).clients c).memory y
          rw [Client.memory, hp] at hmem
          exact hr ▸ ih y (hmem hy) hty

/-- Nothing is merged in the plan of a binary resource. -/
theorem Planned.of_binary {locals : List LocalResource} {operation : PlanOperation}
    {scopes : List String} (hinv : Inventoried S scopes locals)
    (hplan : Planned s locals operation) (hkind : S.kindOf operation.key = .binary) :
    ∃ l b r, Considers s locals operation.key l b r ∧
      operation = planResource operation.key l b r := by
  obtain ⟨l, b, r, hconsiders, hop⟩ := hplan
  refine ⟨l, b, r, hconsiders, hop.trans ?_⟩
  have hkey : (planResource operation.key l b r).key = operation.key := planResource_key
  generalize planResource operation.key l b r = planned at hkey ⊢
  cases planned with
  | conflict record =>
    simp only [mergeTextConflict]
    refine if_neg fun hmerge => ?_
    obtain ⟨resource, hmem, he⟩ := List.mem_map.mp (Map.mem_of_get?_ofList hmerge.2)
    obtain ⟨hres, htext⟩ := Prod.mk.inj he
    have hlisted := (hinv resource hmem).2
    rw [htext, hres, show record.resource = operation.key from hkey, hkind] at hlisted
    cases hlisted
  | _ => rfl

end Rounds

section Overwrites

variable [Crates] {S : Setting} {w w' : World} {c : String} {ok : World → Label → Prop}
variable {s : RuntimeState} {batch : CommitBatch}
variable {k : Except SyncError Unit → Prog host RuntimeState (Except SyncError Unit)}

/-- The baseline of the resource is this very version. -/
def RuntimeState.Integrated (s : RuntimeState) (y : Commit) : Prop :=
  (∃ contentId size chunkHashes localVersion remoteHeads,
    y.change = .binarySnapshot contentId size chunkHashes ∧
      ⟨y.resource, .present contentId localVersion remoteHeads⟩ ∈ s.baselines) ∨
  y.change = .delete ∧ ∃ remoteHeads, ⟨y.resource, .deleted remoteHeads⟩ ∈ s.baselines

/-- Whatever the plan publishes a version over, the baseline says. -/
theorem Considers.integrated {locals : List LocalResource} {key : ResourceKey} {l : ReplicaState}
    {b : Option BaselineState} {r : RemoteResourceState} (hc : Considers s locals key l b r)
    (hup : (planResource key l b r).isUpload = true) {y : Commit}
    (hy : IsHead Commit.Over s.held y) (hres : y.resource = key)
    (hbin : y.change.isText = false) : s.Integrated y := by
  have hshows := RuntimeState.shows_of_remoteState hc.remote
  cases hplan : planResource key l b r with
  | upload key' l' =>
    obtain ⟨-, huploads⟩ := uploads_of_planResource hplan
    cases huploads with
    | first => exact (hshows.no_head hy hres).elim
    | edited =>
      obtain ⟨size, hashes, hchange⟩ := hshows.snapshot_of_head hy hres hbin
      exact Or.inl ⟨_, size, hashes, _, _, hchange, hres ▸ hc.baseline _ rfl⟩
    | revived =>
      exact Or.inr ⟨hshows.delete_of_head hy hres, _, hres ▸ hc.baseline _ rfl⟩
  | publishDelete key' =>
    obtain ⟨-, base, version, heads, size, rheads, rfl, rfl⟩ := absent_of_planResource hplan
    obtain ⟨size, hashes, hchange⟩ := hshows.snapshot_of_head hy hres hbin
    exact Or.inl ⟨_, size, hashes, _, _, hchange, hres ▸ hc.baseline _ rfl⟩
  | _ => rw [hplan] at hup; cases hup

/-- The parents of what a round publishes for a binary resource. -/
theorem Round.Publishes.integrated {round : Round} {versions : List (ResourceKey × File)}
    {h : List SyncEvent} (hround : round.Publishes S versions h s batch)
    (hbin : ∀ y ∈ s.commits, y.change.isText = true → S.kindOf y.resource = .text) {x : Commit}
    (hx : x ∈ batch.commits) (hkind : S.kindOf x.resource = .binary) {p : String}
    (hp : p ∈ x.parents) : ∃ y ∈ s.commits, y.id = p ∧ y.resource = x.resource ∧ s.Integrated y := by
  obtain ⟨operation, hop, hup, hu⟩ := hround.uploaded x hx
  rw [hu.parents, mem_sortDedup, RuntimeState.mem_heads_iff_isHead] at hp
  obtain ⟨y, hy, hres, rfl⟩ := hp
  refine ⟨y, hy.1, rfl, hres.trans hu.resource.symm, ?_⟩
  obtain ⟨l, b, r, hc, hplan⟩ := (hround.planned operation hop).of_binary hround.inventory
    (hu.resource ▸ hkind)
  rw [hplan] at hup
  refine hc.integrated hup hy hres (Bool.eq_false_iff.mpr fun ht => ?_)
  have htext := hbin y hy.1 ht
  rw [hres, ← hu.resource, hkind] at htext
  cases htext

/-- `reconcile` publishes over nothing but versions that its client has integrated, and only
these stop being heads when its batch goes out. -/
theorem World.reconcile_overwrites_only_integrated (hcol : Collisionless) (h : w.Reachable S ok)
    {request : SyncRequest} (hcommand : (w.clients c).command = some (.reconcile request))
    (hcall : (w.clients c).prog = .call s (.commitBatch batch) k) :
    (∀ x ∈ batch.commits, S.kindOf x.resource = .binary → ∀ p ∈ x.parents,
      ∃ y ∈ s.commits, y.id = p ∧ y.resource = x.resource ∧ s.Integrated y) ∧
    ∀ a w', w.step S (.answer c a) = some w' →
      ∀ y ∈ w.published, S.kindOf y.resource = .binary → (∀ z ∈ w.published, ¬ y.Over z) →
        (∃ z ∈ w'.published, y.Over z) → s.Integrated y := by
  obtain ⟨round, hround⟩ := h.relies.round hcommand hcall
  have hmem : ∀ y ∈ s.commits, y ∈ w.published := by
    have hmem := (h.inv.clients c).memory
    rw [Client.memory, hcall] at hmem
    exact hmem
  have hparents : ∀ x ∈ batch.commits, S.kindOf x.resource = .binary → ∀ p ∈ x.parents,
      ∃ y ∈ s.commits, y.id = p ∧ y.resource = x.resource ∧ s.Integrated y := fun x hx hkind p hp =>
    hround.integrated (fun y hy ht => h.text_kind y (hmem y hy) ht) hx hkind hp
  refine ⟨hparents, fun a w' hs y hy hkind hhead hover => ?_⟩
  obtain ⟨z, hz, hyz⟩ := hover
  rcases World.step_published hs with e | ⟨c', s', batch', k', hl, hcall', e⟩
  · exact absurd hyz (hhead z (e ▸ hz))
  · obtain ⟨rfl, -⟩ := Label.answer.inj hl
    rw [hcall] at hcall'
    cases hcall'
    rw [e] at hz
    rcases List.mem_append.mp hz with hz | hz
    · exact absurd hyz (hhead z hz)
    · obtain ⟨y', hy', hid, -, hint⟩ := hparents z hz (hyz.1 ▸ hkind) _ hyz.2
      rwa [h.ids hcol y hy y' (hmem y' hy') hid] at hint

end Overwrites

section Scripts

open Sample

attribute [local instance] spelled

/-- `A` is about to publish its second version of a file. -/
theorem World.reconcile_overwrites_only_integrated_edited : ∃ w s batch k request,
    World.Reachable {} (fun _ _ => True) w ∧
      (w.clients "A").command = some (.reconcile request) ∧
      (w.clients "A").prog = .call s (.commitBatch batch) k ∧
      (∃ x ∈ batch.commits, x.parents ≠ []) ∧
      ∀ x ∈ batch.commits, ∀ p ∈ x.parents,
        ∃ y ∈ s.commits, y.id = p ∧ y.resource = x.resource ∧ s.Integrated y := by
  obtain ⟨w, hw, hp⟩ := exists_reachable {} (fun _ _ => True)
    (upload "A" "a" "1" "t1" ++ [.step (.edit "A" (key "a") (text "2" "t2")),
      .step (.start "A" (.reconcile ⟨["s"]⟩)), .answers "A" 7])
    (fun w => (reconciling w "A").isSome ∧ ∃ batch ∈ (batchOf w "A").toList,
      ∃ x ∈ batch.commits, x.parents ≠ []) (by decide +kernel)
  obtain ⟨hsome, batch, hbatch, hparents⟩ := of_decide_eq_true hp
  obtain ⟨request, hrequest⟩ := Option.isSome_iff_exists.mp hsome
  obtain ⟨s, k, hcall⟩ := call_of_batchOf (Option.mem_toList.mp hbatch)
  have hcommand := command_of_reconciling hrequest
  exact ⟨w, s, batch, k, request, hw, hcommand, hcall, hparents, fun x hx =>
    (World.reconcile_overwrites_only_integrated spelled_collisionless hw hcommand hcall).1 x hx rfl⟩

end Scripts

end Rollforward
