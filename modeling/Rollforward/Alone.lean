import Rollforward.Runs
import Rollforward.Runtime.Footprint

/-! One call with nobody else moving: the remote and the files of the client answer it. -/

namespace Rollforward

open Std Lib

section Alone

variable [Crates] {S : Setting} {w w₁ w₂ : World} {c : String}

/-- Only the calls of `c` are answered. -/
def World.Alone (c : String) (_ : World) : Label → Prop
  | .answer c' _ => c' = c
  | _ => False

instance (c : String) (w : World) : DecidablePred (w.Alone c) := fun l => by
  cases l <;> simp only [World.Alone] <;> infer_instance

/-- A call of `command` by `c` that returns, with nobody else moving. -/
structure World.Calls (S : Setting) (c : String) (command : Command) (w w' : World)
    (s : RuntimeState) : Prop where
  run : ∃ w₁, w.step S (.start c command) = some w₁ ∧
    Relation.ReflTransGen (World.Next S (World.Alone c)) w₁ w'
  returned : (w'.clients c).prog = .done s (.ok ())

/-- What every step preserves holds when the call returns. -/
theorem World.Calls.keeps {command : Command} {s : RuntimeState} (h : World.Calls S c command w w₂ s)
    {J : World → Prop} (hJ : ∀ {w w' l}, J w → w.step S l = some w' → J w') (hw : J w) : J w₂ := by
  obtain ⟨⟨w₁, hstart, hrun⟩, -⟩ := h
  induction hrun with
  | refl => exact hJ hw hstart
  | tail _ hstep ih =>
    obtain ⟨l, -, hs⟩ := hstep
    exact hJ ih hs

/-- What a command promises against what it sees of the world, which may be the calls that
were answered as well. -/
theorem World.Calls.meets_run {command : Command} {s : RuntimeState}
    (h : World.Calls S c command w w₂ s) {J : World → Prop}
    (hJ : ∀ {w w' l}, J w → w.step S l = some w' → J w') (hw : J w) {H : Type} (view : World → H)
    {T : H → SyncEvent → H → Prop} {C : H → RuntimeState → Req → Prop}
    {Q : H → RuntimeState → Except SyncError Unit → Prop}
    (hT : ∀ {w : World} {s q k a r w₁}, J w → (w.clients c).prog = .call s q k →
      w.respond S c s q a = some (r, w₁) → J (w₁.resume c s q r (k r)) →
      T (view w) ⟨s, q, r⟩ (view (w₁.resume c s q r (k r))))
    (hmeets : (command.run ⟨c, S.policy c⟩ (w.memory c)).Meets T C Q
      (view (w.setClient c ((w.clients c).start ⟨c, S.policy c⟩ command)))) :
    Q (view w₂) s (.ok ()) := by
  obtain ⟨⟨w₁, hstart, hrun⟩, hdone⟩ := h
  obtain rfl := World.start_cases hstart
  have hinv : ∀ w', Relation.ReflTransGen (World.Next S (World.Alone c))
      (w.setClient c ((w.clients c).start ⟨c, S.policy c⟩ command)) w' →
      J w' ∧ (w'.clients c).prog.Meets T C Q (view w') := by
    intro w' hrun
    induction hrun with
    | refl =>
      refine ⟨hJ hw hstart, ?_⟩
      rw [World.setClient_self]
      exact hmeets
    | @tail v v' _ hstep ih =>
      obtain ⟨l, halone, hs⟩ := hstep
      refine ⟨hJ ih.1 hs, ?_⟩
      cases l with
      | answer c' a =>
        obtain rfl : c' = c := halone
        have hJ' := hJ ih.1 hs
        obtain ⟨s', q, k, r, v₁, hp, hr, rfl⟩ := World.answer_cases hs
        have hm := ih.2
        rw [hp] at hm
        have hnext := hm.2 r _ (hT ih.1 hp hr hJ')
        rw [World.resume, World.setClient_self]
        exact hnext
      | start | edit | crash => exact halone.elim
  have hm := (hinv w₂ hrun).2
  rw [hdone] at hm
  exact hm

/-- The same where the answered calls are not looked at. -/
theorem World.Calls.meets {command : Command} {s : RuntimeState} (h : World.Calls S c command w w₂ s)
    {J : World → Prop} (hJ : ∀ {w w' l}, J w → w.step S l = some w' → J w') (hw : J w)
    {H : Type} (view : World → H)
    {T : H → SyncEvent → H → Prop} {C : H → RuntimeState → Req → Prop}
    {Q : H → RuntimeState → Except SyncError Unit → Prop}
    (hview : ∀ (w : World) client, client.files = (w.clients c).files →
      view (w.setClient c client) = view w)
    (hT : ∀ {w : World} {s q a r w₁}, J w → w.respond S c s q a = some (r, w₁) →
      T (view w) ⟨s, q, r⟩ (view w₁))
    (hmeets : (command.run ⟨c, S.policy c⟩ (w.memory c)).Meets T C Q (view w)) :
    Q (view w₂) s (.ok ()) := by
  refine h.meets_run hJ hw view ?_ ?_ (T := T) (C := C)
  · intro w s q k a r w₁ hj _ hr _
    rw [World.resume, hview]
    · exact hT hj hr
    · rfl
  · rw [hview]
    · exact hmeets
    · rfl

end Alone

section Sites

variable [Crates] {S : Setting} {w w₁ : World} {c : String}

/-- What a call of one client meets: the remote, and the files of the client. -/
structure Site where
  remote : Remote
  files : Files

def World.site (w : World) (c : String) : Site := ⟨w.remote, (w.clients c).files⟩

theorem World.site_setClient (w : World) (client : Client)
    (h : client.files = (w.clients c).files) : (w.setClient c client).site c = w.site c := by
  rw [World.site, World.site, World.setClient_self, h]
  rfl

/-- What is left of the files once mutations are applied one after the other. -/
inductive Files.Applied : Files → List LocalMutation → List LocalApplyResult → Files → Prop
  | nil {files} : Applied files [] [] files
  | applied {files mutation versionToken tombstone file mutations results files'}
      (admitted : files.mutate versionToken tombstone mutation = some file)
      (rest : Applied (files.set mutation.key file) mutations results files') :
      Applied files (mutation :: mutations)
        (⟨mutation.key, .applied, some versionToken, none⟩ :: results) files'
  | refused {files mutation result mutations results files'} (status : result.status ≠ .applied)
      (rest : Applied files mutations results files') :
      Applied files (mutation :: mutations) (result :: results) files'

/-- How a site answers. -/
def Site.Serves (S : Setting) (site : Site) (e : SyncEvent) (site' : Site) : Prop :=
  match e with
  | ⟨_, .scanCatalog request, .ok delta⟩ =>
    site' = site ∧ site.remote.scanCatalog request = .ok delta
  | ⟨_, .loadCommits ids, .ok commits⟩ =>
    site' = site ∧ site.remote.loadCommits ids = .ok commits
  | ⟨_, .commitBatch batch, .ok _⟩ => site' = { site with remote := site.remote.commitBatch batch }
  | ⟨_, .lookupChunks hashes, .ok locations⟩ =>
    site' = site ∧ locations = site.remote.lookupChunks hashes
  | ⟨_, .readRanges ranges, .ok data⟩ => site' = site ∧ site.remote.readRanges ranges = .ok data
  | ⟨_, .writeAcknowledgements acks, .ok _⟩ =>
    site' = { site with remote := site.remote.writeAcknowledgements acks }
  | ⟨_, .deletePackObjects ids, .ok _⟩ =>
    site' = { site with remote := site.remote.deletePackObjects ids }
  | ⟨_, .compactCatalog compaction, .ok _⟩ =>
    site' = { site with remote := site.remote.compactCatalog compaction }
  | ⟨_, .listResources scopes, .ok resources⟩ =>
    site' = site ∧ ∃ shown, resources = S.list site.files scopes shown
  | ⟨_, .readResources keys, .ok contents⟩ => site' = site ∧ contents = S.read site.files keys
  | ⟨_, .applyMutations mutations, .ok results⟩ =>
    site'.remote = site.remote ∧ site.files.Applied mutations results site'.files
  | _ => site' = site

theorem Files.Applied.of_client {client : Client} {versionToken : String} {tombstone : Bool}
    {mutations : List LocalMutation} : client.files.Applied mutations
      (client.applyMutations versionToken tombstone mutations).1
      (client.applyMutations versionToken tombstone mutations).2.files := by
  induction mutations generalizing client with
  | nil => exact .nil
  | cons mutation mutations ih =>
    rw [Client.applyMutations]
    split
    · exact .refused (by simp [Rollforward.refused]) ih
    · next file hm => exact .applied hm (@ih (client.setFile mutation.key file))

omit [Crates] in
theorem Files.Applied.of_refused {files : Files} {error : Option String}
    {mutations : List LocalMutation} : files.Applied mutations
      (mutations.map fun mutation => Rollforward.refused mutation .failed error) files := by
  induction mutations with
  | nil => exact .nil
  | cons mutation mutations ih => exact .refused (by simp [Rollforward.refused]) ih

theorem World.respond_serves {s : RuntimeState} {q : Req} {a : Answer} {r : q.Resp}
    (h : w.respond S c s q a = some (r, w₁)) :
    (w.site c).Serves S ⟨s, q, r⟩ (w₁.site c) := by
  cases a with
  | fail error =>
    simp only [World.respond, Option.map_eq_some_iff, Prod.mk.injEq] at h
    obtain ⟨_, hf, rfl, rfl⟩ := h
    cases q <;> cases hf <;> exact rfl
  | serve =>
    cases q with
    | scanCatalog request =>
      simp only [World.respond] at h
      split at h
      · next hscan =>
        cases h
        exact ⟨w.site_setClient _ rfl, hscan⟩
      · cases h
        exact rfl
    | loadCommits ids =>
      simp only [World.respond] at h
      split at h
      · next hload =>
        cases h
        exact ⟨w.site_setClient _ rfl, hload⟩
      · cases h
        exact rfl
    | commitBatch batch =>
      cases h
      exact World.site_setClient _ _ rfl
    | readRanges ranges =>
      simp only [World.respond, Option.some.injEq, Prod.mk.injEq] at h
      obtain ⟨rfl, rfl⟩ := h
      cases hr : w.remote.readRanges ranges with
      | error e => exact rfl
      | ok data => exact ⟨rfl, hr⟩
    | saveRuntimeState =>
      cases h
      exact w.site_setClient _ rfl
    | _ =>
      cases h
      all_goals first | exact rfl | exact ⟨rfl, rfl⟩
  | token versionToken tombstone =>
    cases q with
    | applyMutations mutations =>
      cases h
      refine ⟨rfl, ?_⟩
      rw [World.site, World.site, World.setClient_self]
      exact Files.Applied.of_client
    | _ => cases h
  | refuse error =>
    cases q with
    | applyMutations mutations =>
      cases h
      exact ⟨rfl, Files.Applied.of_refused⟩
    | _ => cases h
  | shown withId =>
    cases q with
    | listResources scopes =>
      cases h
      exact ⟨rfl, withId, rfl⟩
    | _ => cases h
  | _ =>
    cases q <;> cases h
    all_goals exact rfl

/-- If `x`, run alone, returns without an error, `Q` holds. -/
def Returns (S : Setting) (x : Sync α) (Q : Site → RuntimeState → α → Prop) (site : Site)
    (s : RuntimeState) : Prop :=
  Comp.wp (Site.Serves S) (fun _ _ _ => True) (fun _ _ _ => True) x Q site s

/-- What a command promises of a site, it keeps when it is called alone. -/
theorem World.Calls.returns {command : Command} {w' : World} {s : RuntimeState}
    (h : World.Calls S c command w w' s) {Q : Site → RuntimeState → Unit → Prop}
    (hx : Returns S (command.run ⟨c, S.policy c⟩) Q (w.site c) (w.memory c)) :
    Q (w'.site c) s () :=
  h.meets (J := fun _ => True) (fun _ _ => trivial) trivial (fun w => w.site c)
    (fun w client hfiles => w.site_setClient client hfiles)
    (fun _ hr => World.respond_serves hr) hx

end Sites

section Returns

variable [Crates] {S : Setting} {site : Site} {s : RuntimeState}

theorem Returns.imp {x : Sync α} {Q Q' : Site → RuntimeState → α → Prop}
    (hx : Returns S x Q site s) (hQ : ∀ site s a, Q site s a → Q' site s a) :
    Returns S x Q' site s := Comp.wp_imp hx hQ

theorem Returns.any {x : Sync α} : Returns S x (fun _ _ _ => True) site s := Comp.wp_any x

theorem Returns.bind {x : Sync α} {f : α → Sync β} {Q : Site → RuntimeState → α → Prop}
    {Q' : Site → RuntimeState → β → Prop} (hx : Returns S x Q site s)
    (hf : ∀ site s a, Q site s a → Returns S (f a) Q' site s) : Returns S (x >>= f) Q' site s :=
  Comp.wp_bind.mpr (Comp.wp_imp hx hf)

/-- A call that answers with an error ends everything. -/
theorem Returns.request {q : Req} {f : q.Resp → Except SyncError α}
    {Q : Site → RuntimeState → α → Prop} (hq : ∀ r a site', site.Serves S ⟨s, q, r⟩ site' →
      f r = .ok a → Q site' s a) : Returns S (Comp.request q f) Q site s :=
  Comp.wp_request.mpr ⟨trivial, fun r site' hserves =>
    ⟨fun a ha => hq r a site' hserves ha, fun _ _ => trivial⟩⟩

theorem Returns.ofExcept {x : Except SyncError α} {Q : Site → RuntimeState → α → Prop}
    (hx : ∀ a, x = .ok a → Q site s a) : Returns S (Comp.ofExcept x) Q site s :=
  Comp.wp_ofExcept.mpr ⟨hx, fun _ _ => trivial⟩

theorem Returns.throw {e : SyncError} {Q : Site → RuntimeState → α → Prop} :
    Returns S (Comp.throw e) Q site s := trivial

theorem Site.Serves.read {site' : Site} {e : SyncEvent} (h : site.Serves S e site')
    (hq : IsRead e.req) : site' = site := by
  unfold Site.Serves at h
  split at h <;> first | exact h | exact h.1 | exact hq.elim

/-- What only reads leaves the site and the memory. -/
theorem Reads.returns {x : Sync α} (hx : Reads x) :
    Returns S x (fun site' s' _ => site' = site ∧ s' = s) site s := by
  refine Comp.wp_mono (hx.wp (J := fun site' s' => site' = site ∧ s' = s) ?_ ?_ ?_ ⟨rfl, rfl⟩)
    (fun _ _ _ _ => trivial) fun _ _ _ hj => hj
  · rintro _ _ _ hj rfl
    exact hj
  · exact fun _ _ _ _ _ => trivial
  · rintro _ _ q r site' ⟨rfl, rfl⟩ hq hserves
    exact ⟨hserves.read hq, rfl⟩

omit [Crates] in
theorem Files.Applied.single {files files' : Files} {mutation : LocalMutation}
    {result : LocalApplyResult} {results : List LocalApplyResult}
    (h : files.Applied [mutation] (result :: results) files') :
    (result.status ≠ .applied ∧ files' = files) ∨ ∃ versionToken tombstone file,
      files.mutate versionToken tombstone mutation = some file ∧
      files' = files.set mutation.key file ∧ result.versionToken = some versionToken := by
  cases h with
  | applied admitted rest =>
    cases rest
    exact Or.inr ⟨_, _, _, admitted, rfl, rfl⟩
  | refused status rest =>
    cases rest
    exact Or.inl ⟨status, rfl⟩

/-- A single mutation that is applied. -/
theorem applyMutation_returns (mutation : LocalMutation) (noResult : String)
    (refused : Option String → String) : Returns S (applyMutation mutation noResult refused)
      (fun site' s' result => s' = s ∧ ∃ versionToken tombstone file,
        site.files.mutate versionToken tombstone mutation = some file ∧
        site' = { site with files := site.files.set mutation.key file } ∧
        result.versionToken = some versionToken) site s := by
  refine Returns.bind (Q := fun site' s' results => s' = s ∧ site'.remote = site.remote ∧
    site.files.Applied [mutation] results site'.files) (Returns.request ?_) ?_
  · rintro r results site' hserves hr
    obtain rfl : r = .ok results := hr
    exact ⟨rfl, hserves⟩
  · rintro ⟨remote, files⟩ _ results ⟨rfl, rfl, happlied⟩
    cases results with
    | nil => exact Returns.throw
    | cons result results =>
      refine Comp.wp_ite.mpr ⟨fun hstatus => ?_, fun _ => trivial⟩
      rcases happlied.single with ⟨hne, -⟩ | ⟨versionToken, tombstone, file, hm, rfl, ht⟩
      · exact absurd hstatus hne
      · exact ⟨rfl, versionToken, tombstone, file, hm, rfl, ht⟩

end Returns

end Rollforward
