import Rollforward.Solo

/-! What one client meets while all the others move: its files, the versions that they ever
had, and what is published.  A host that gives no token twice makes a token tell its version. -/

namespace Rollforward

open Std Lib

section Scenes

variable [Crates] {S : Setting} {w w₁ w' : World} {c : String} {key : ResourceKey}

structure Scene where
  files : Files
  versions : List (ResourceKey × File)
  published : List Commit

def Client.scene (client : Client) (published : List Commit) : Scene :=
  ⟨client.files, client.versions, published⟩

def World.scene (w : World) (c : String) : Scene := (w.clients c).scene w.published

/-- No resource was given one token twice. -/
def TellsApart (versions : List (ResourceKey × File)) : Prop :=
  (versions.map fun version => (version.1, version.2.versionToken)).Nodup

instance (versions : List (ResourceKey × File)) : Decidable (TellsApart versions) :=
  inferInstanceAs (Decidable (List.Nodup _))

omit [Crates] in
theorem TellsApart.of_append {new versions : List (ResourceKey × File)}
    (h : TellsApart (new ++ versions)) : TellsApart versions := by
  rw [TellsApart, List.map_append] at h
  exact h.of_append_right

omit [Crates] in
theorem TellsApart.eq {versions : List (ResourceKey × File)} (h : TellsApart versions)
    {file file' : File} (hfile : (key, file) ∈ versions) (hfile' : (key, file') ∈ versions)
    (htoken : file.versionToken = file'.versionToken) : file = file' := by
  have heq := List.inj_on_of_nodup_map h hfile hfile' (by rw [htoken])
  exact (Prod.mk.inj heq).2

namespace Scene

/-- The resource had a version with the token. -/
def Used (scene : Scene) (key : ResourceKey) (versionToken : String) : Prop :=
  ∃ file : File, (key, file) ∈ scene.versions ∧ file.versionToken = versionToken

/-- What holds of every scene of a run with a host that tells versions apart. -/
structure Lawful (S : Setting) (scene : Scene) : Prop where
  created : ∀ x ∈ scene.published, x.Created
  snapshots : ∀ x ∈ scene.published, x.change.snapshot?.isSome →
    ∃ data, x.change = binarySnapshot data
  kinds : ∀ x ∈ scene.published, x.change.isText = true → S.kindOf x.resource = .text
  files : scene.files.Within scene.versions
  apart : TellsApart scene.versions

/-- What becomes of a scene while anybody moves: a file whose token was there before is the
file that was there before. -/
structure Until (scene later : Scene) : Prop where
  published : ∀ x ∈ scene.published, x ∈ later.published
  versions : ∀ version ∈ scene.versions, version ∈ later.versions
  files : ∀ key file, later.files[key]? = some file → scene.Used key file.versionToken →
    scene.files[key]? = some file

/-- What is listed and read are the files of the scene. -/
def Shown (S : Setting) (scene : Scene) : SyncEvent → Prop
  | ⟨_, .listResources scopes, .ok resources⟩ =>
    ∃ withId, resources = S.list scene.files scopes withId
  | ⟨_, .readResources keys, .ok contents⟩ => contents = S.read scene.files keys
  | _ => True

/-- A call that is answered some time later. -/
structure Answers (S : Setting) (scene : Scene) (e : SyncEvent) (later : Scene) : Prop where
  since : scene.Until later
  lawful : later.Lawful S
  memory : ∀ x ∈ e.memory.commits, x ∈ later.published
  fair : Fair S later.published later.versions e
  shown : later.Shown S e

variable {scene later : Scene}

theorem Used.mono {versionToken : String} (h : scene.Used key versionToken)
    (hl : scene.Until later) : later.Used key versionToken := by
  obtain ⟨file, hfile, htoken⟩ := h
  exact ⟨file, hl.versions _ hfile, htoken⟩

theorem Until.refl (scene : Scene) : scene.Until scene :=
  ⟨fun _ hx => hx, fun _ hv => hv, fun _ _ hfile _ => hfile⟩

theorem Until.trans {last : Scene} (h : scene.Until later) (h' : later.Until last) :
    scene.Until last where
  published x hx := h'.published x (h.published x hx)
  versions v hv := h'.versions v (h.versions v hv)
  files key file hfile hused := h.files key file (h'.files key file hfile (hused.mono h)) hused

instance : IsPreorder Scene Until where
  refl := Until.refl
  trans _ _ _ := Until.trans

theorem Answers.until {last : Scene} {e : SyncEvent} (h : scene.Until later)
    (he : later.Answers S e last) : scene.Answers S e last :=
  ⟨h.trans he.since, he.lawful, he.memory, he.fair, he.shown⟩

end Scene

/-- A new version has a new token. -/
theorem Client.setFile_until {client : Client} {file : Option File} {published : List Commit}
    (hapart : TellsApart (client.setFile key file).versions) :
    (client.scene published).Until ((client.setFile key file).scene published) where
  published _ hx := hx
  versions _ hv := List.mem_append_right _ hv
  files key' file' hfile hused := by
    rw [Client.scene, Client.setFile, Files.get?_set] at hfile
    split at hfile
    · next heq =>
      subst heq
      obtain rfl : file = some file' := hfile
      obtain ⟨old, hold, htoken⟩ := hused
      have hfirst := (List.nodup_cons.mp hapart).1
      exact absurd (List.mem_map.mpr ⟨_, hold, by rw [htoken]⟩) hfirst
    · exact hfile

theorem Client.versions_applyMutations (client : Client) (versionToken : String) (tombstone : Bool)
    (mutations : List LocalMutation) : ∃ new,
      (client.applyMutations versionToken tombstone mutations).2.versions = new ++ client.versions := by
  induction mutations generalizing client with
  | nil => exact ⟨[], rfl⟩
  | cons mutation mutations ih =>
    rw [Client.applyMutations]
    split
    · exact ih client
    · next file _ =>
      obtain ⟨new, hnew⟩ := ih (client.setFile mutation.key file)
      exact ⟨new ++ (file.map fun file => (mutation.key, file)).toList, by
        rw [List.append_assoc]
        exact hnew⟩

theorem Client.applyMutations_until {client : Client} {versionToken : String} {tombstone : Bool}
    {mutations : List LocalMutation} {published : List Commit}
    (hapart : TellsApart (client.applyMutations versionToken tombstone mutations).2.versions) :
    (client.scene published).Until
      ((client.applyMutations versionToken tombstone mutations).2.scene published) := by
  induction mutations generalizing client with
  | nil => exact .refl _
  | cons mutation mutations ih =>
    rw [Client.applyMutations] at hapart ⊢
    split at hapart
    · exact ih hapart
    · next file _ =>
      obtain ⟨new, hnew⟩ := (client.setFile mutation.key file).versions_applyMutations
        versionToken tombstone mutations
      refine Scene.Until.trans (Client.setFile_until ?_) (ih hapart)
      exact TellsApart.of_append (hnew ▸ hapart)

theorem Site.Serves.files {site site' : Site} {e : SyncEvent} (h : site.Serves S e site')
    (hq : NoWrite e.req) : site'.files = site.files := by
  unfold Site.Serves at h
  split at h <;> first | exact hq.elim | exact h ▸ rfl | exact h.1 ▸ rfl

theorem Site.Serves.shown {site site' : Site} {e : SyncEvent} (h : site.Serves S e site')
    (versions : List (ResourceKey × File)) (published : List Commit) :
    (⟨site'.files, versions, published⟩ : Scene).Shown S e := by
  unfold Scene.Shown
  split
  · obtain ⟨rfl, hshown⟩ := h
    exact hshown
  · obtain ⟨rfl, hread⟩ := h
    exact hread
  · trivial

/-- Where no file is touched, it is the others that publish. -/
theorem Scene.Until.of_files {scene later : Scene} (hfiles : later.files = scene.files)
    (hversions : ∀ v ∈ scene.versions, v ∈ later.versions)
    (hpublished : ∀ x ∈ scene.published, x ∈ later.published) : scene.Until later :=
  ⟨hpublished, hversions, fun _ _ hfile _ => hfiles ▸ hfile⟩

/-- Calls are answered in the scene that they lead to. -/
theorem World.respond_scene {s : RuntimeState} {q : Req} {a : Answer} {r : q.Resp}
    (hrelies : w.Relies S) (hinv : w.Inv) (hmemory : w.memory c = s)
    (hr : w.respond S c s q a = some (r, w₁)) (hlawful : (w₁.scene c).Lawful S) :
    (w.scene c).Answers S ⟨s, q, r⟩ (w₁.scene c) := by
  obtain ⟨hans, hfair⟩ := World.respond_fair (hrelies c).files hinv.objects hr
  have hserves := World.respond_serves hr
  have hheld : ∀ x ∈ s.commits, x ∈ w₁.published := by
    rw [← hmemory]
    exact fun x hx => hans.published x ((hinv.clients c).memory x hx)
  refine ⟨?_, hlawful, hheld, hfair, hserves.shown _ _⟩
  by_cases hq : NoWrite q
  · exact .of_files (hserves.files hq) hans.versions hans.published
  · cases q with
    | applyMutations mutations =>
      cases a with
      | token versionToken tombstone =>
        cases hr
        have hapart := hlawful.apart
        rw [World.scene, World.setClient_self] at hapart
        rw [World.scene, World.scene, World.setClient_self]
        exact Client.applyMutations_until hapart
      | refuse error =>
        cases hr
        exact .refl _
      | fail error =>
        cases hr
        exact .refl _
      | _ => cases hr
    | _ => exact absurd trivial hq

/-- Everybody else only publishes. -/
theorem World.respond_scene_other {s : RuntimeState} {q : Req} {a : Answer} {r : q.Resp}
    {c' : String} (hne : c ≠ c') (hrelies : w.Relies S) (hinv : w.Inv)
    (hr : w.respond S c' s q a = some (r, w₁)) : (w.scene c).Until (w₁.scene c) := by
  obtain ⟨hans, -⟩ := World.respond_fair (hrelies c').files hinv.objects hr
  have hsame := hans.others c hne
  refine .of_files ?_ ?_ hans.published
  · rw [World.scene, hsame]
    rfl
  · rw [World.scene, World.scene, hsame]
    exact fun _ hv => hv

/-- No version is forgotten. -/
theorem World.respond_versions {s : RuntimeState} {q : Req} {a : Answer} {r : q.Resp}
    (hr : w.respond S c s q a = some (r, w₁)) :
    ∃ new, (w₁.clients c).versions = new ++ (w.clients c).versions := by
  have hsame : ∀ {client : Client}, client.versions = (w.clients c).versions →
      ∃ new, ((w.setClient c client).clients c).versions = new ++ (w.clients c).versions :=
    fun he => ⟨[], by rw [World.setClient_self, he]; rfl⟩
  cases a with
  | fail error =>
    simp only [World.respond, Option.map_eq_some_iff, Prod.mk.injEq] at hr
    obtain ⟨_, -, -, rfl⟩ := hr
    exact ⟨[], rfl⟩
  | token versionToken tombstone =>
    cases q with
    | applyMutations mutations =>
      cases hr
      rw [World.setClient_self]
      exact (w.clients c).versions_applyMutations versionToken tombstone mutations
    | _ => cases hr
  | serve =>
    cases q with
    | scanCatalog request =>
      simp only [World.respond] at hr
      split at hr
      · cases hr
        exact hsame rfl
      · cases hr
        exact ⟨[], rfl⟩
    | loadCommits ids =>
      simp only [World.respond] at hr
      split at hr
      · cases hr
        exact hsame rfl
      · cases hr
        exact ⟨[], rfl⟩
    | commitBatch batch =>
      cases hr
      rw [World.setClient_self]
      exact ⟨[], rfl⟩
    | saveRuntimeState =>
      cases hr
      exact hsame rfl
    | _ =>
      cases hr
      all_goals exact ⟨[], rfl⟩
  | _ =>
    cases q <;> cases hr
    all_goals exact ⟨[], rfl⟩

end Scenes

section Runs

variable [Crates] {S : Setting} {w w' : World} {c : String} {ok : World → Label → Prop}

theorem World.Reachable.scene_lawful (hw : w.Reachable S ok)
    (hapart : TellsApart (w.clients c).versions) : (w.scene c).Lawful S :=
  ⟨hw.created, hw.snapshots, hw.text_kind, (hw.relies c).files, hapart⟩

theorem World.step_versions {l : Label} (hrelies : w.Relies S) (hinv : w.Inv)
    (hs : w.step S l = some w') : ∃ new, (w'.clients c).versions = new ++ (w.clients c).versions := by
  have hset : ∀ {c' : String} {client : Client},
      (∃ new, client.versions = new ++ (w.clients c').versions) →
      ∃ new, ((w.setClient c' client).clients c).versions = new ++ (w.clients c).versions := by
    intro c' client hclient
    by_cases hc : c = c'
    · subst hc
      rwa [World.setClient_self]
    · rw [World.setClient_of_ne _ _ hc]
      exact ⟨[], rfl⟩
  cases l with
  | start c' command =>
    rw [World.start_cases hs]
    exact hset ⟨[], rfl⟩
  | edit c' key file =>
    obtain rfl := Option.some.inj hs
    exact hset ⟨_, rfl⟩
  | crash c' =>
    obtain rfl := Option.some.inj hs
    exact hset ⟨[], rfl⟩
  | answer c' a =>
    obtain ⟨s, q, k, r, w₁, -, hr, rfl⟩ := World.answer_cases hs
    by_cases hc : c = c'
    · subst hc
      rw [World.resume, World.setClient_self]
      exact World.respond_versions hr
    · obtain ⟨hans, -⟩ := World.respond_fair (hrelies c').files hinv.objects hr
      rw [World.resume, World.setClient_of_ne _ _ hc, hans.others c hc]
      exact ⟨[], rfl⟩

variable {J : Scene → RuntimeState → Prop} {C : Command → Scene → RuntimeState → Req → Prop}

/-- Every command, started where `J` holds, makes only the calls of `C` and ends where `J`
holds, whatever the others do in between. -/
structure Discipline (S : Setting) (J : Scene → RuntimeState → Prop)
    (C : Command → Scene → RuntimeState → Req → Prop) : Prop where
  empty : ∀ scene, J scene {}
  stable : ∀ {scene later s}, scene.Until later → J scene s → J later s
  calls : ∀ {command scene later s q}, scene.Until later → C command scene s q →
    C command later s q
  saves : ∀ {command scene s q}, C command scene s q → J scene s
  runs : ∀ c (command : Command) scene s, scene.Lawful S → J scene s →
    (command.run ⟨c, S.policy c⟩ s).Meets (Scene.Answers S) (C command) (fun scene s _ => J scene s)
      scene

/-- What the client saved and what it remembers satisfy `J`, and what is left of its command
makes only the calls of `C`. -/
structure Client.Upholds (S : Setting) (J : Scene → RuntimeState → Prop)
    (C : Command → Scene → RuntimeState → Req → Prop) (scene : Scene) (client : Client) : Prop where
  store : J scene client.store
  before : client.command = none → J scene client.before
  rest : ∀ command, client.command = some command →
    client.prog.Meets (Scene.Answers S) (C command) (fun scene s _ => J scene s) scene

theorem Client.Upholds.stable (h : Discipline S J C) {scene later : Scene} {client : Client}
    (hclient : client.Upholds S J C scene) (hlater : scene.Until later) :
    client.Upholds S J C later where
  store := h.stable hlater hclient.store
  before hcommand := h.stable hlater (hclient.before hcommand)
  rest command hcommand := (hclient.rest command hcommand).stable
    (fun _ _ _ _ hr he => he.until hr) (fun _ _ _ _ hr hc => h.calls hr hc)
    (fun _ _ _ _ hr hj => h.stable hr hj) hlater

/-- A client that runs nothing remembers what `J` holds of. -/
theorem Client.Upholds.memory {scene : Scene} {client : Client}
    (hclient : client.Upholds S J C scene) (hresumes : client.Resumes S c) {s : RuntimeState}
    {r : Except SyncError Unit} (hp : client.prog = .done s r) : J scene s := by
  cases hcommand : client.command with
  | none =>
    rw [Client.Resumes, hcommand] at hresumes
    obtain ⟨-, r', hdone⟩ := hresumes
    rw [hp] at hdone
    cases hdone
    exact hclient.before hcommand
  | some command =>
    have hrest := hclient.rest command hcommand
    rwa [hp] at hrest

/-- The client that gets an answer goes on in the scene that the answer leaves. -/
theorem Client.Upholds.answer (h : Discipline S J C) (hw : w.Reachable S ok) {s : RuntimeState}
    {q : Req} {k : q.Resp → Prog host RuntimeState (Except SyncError Unit)} {a : Answer}
    {r : q.Resp} {w₁ : World} (hp : (w.clients c).prog = .call s q k)
    (hr : w.respond S c s q a = some (r, w₁)) (hlawful : (w₁.scene c).Lawful S)
    (hclient : (w.clients c).Upholds S J C (w.scene c)) :
    ((w₁.resume c s q r (k r)).clients c).Upholds S J C (w₁.scene c) := by
  have hmemory : w.memory c = s := by rw [World.memory, Client.memory, hp, Prog.memory]
  have hanswers := World.respond_scene hw.relies hw.inv hmemory hr hlawful
  obtain ⟨hans, -⟩ := World.respond_fair (hw.relies c).files hw.inv.objects hr
  obtain ⟨command, hcommand⟩ := hw.relies.calling hp
  have hrest := hclient.rest command hcommand
  rw [hp] at hrest
  have hcommand₁ : (w₁.clients c).command = some command := hans.command.trans hcommand
  rw [World.resume, World.setClient_self]
  refine ⟨?_, ?_, ?_⟩
  · exact World.respond_store hr (h.stable hanswers.since hclient.store)
      (h.stable hanswers.since (h.saves hrest.1))
  · intro hnone
    rw [hcommand₁] at hnone
    cases hnone
  · intro command' hcommand'
    obtain rfl := Option.some.inj (hcommand₁.symm.trans hcommand')
    exact hrest.2 r _ hanswers

theorem World.Reachable.upholds (h : Discipline S J C) (hw : w.Reachable S ok)
    (hapart : TellsApart (w.clients c).versions) : (w.clients c).Upholds S J C (w.scene c) := by
  replace hw : w.Reachable S (fun _ _ => True) := hw.mono fun _ _ _ => trivial
  induction hw with
  | refl =>
    refine ⟨h.empty _, fun _ => h.empty _, fun command hcommand => ?_⟩
    cases hcommand
  | @tail v v' hv hstep ih =>
    obtain ⟨l, -, hs⟩ := hstep
    have hv' : World.Reachable S (fun _ _ => True) v' := .tail hv ⟨l, trivial, hs⟩
    have hrelies := World.Reachable.relies hv
    have hinv := World.Reachable.inv hv
    obtain ⟨new, hnew⟩ := World.step_versions (c := c) hrelies hinv hs
    have hclient := ih (TellsApart.of_append (hnew ▸ hapart))
    have hlawful := hv'.scene_lawful hapart
    -- a step of another client only publishes
    have hother : ∀ {c' : String} {client : Client}, c ≠ c' →
        ((v.setClient c' client).clients c).Upholds S J C ((v.setClient c' client).scene c) := by
      intro c' client hne
      rw [World.scene, World.setClient_of_ne _ _ hne]
      exact hclient
    cases l with
    | start c' command =>
      obtain rfl := World.start_cases hs
      by_cases hc : c = c'
      · subst hc
        rw [World.scene, World.setClient_self] at hlawful ⊢
        have hmemory : J (v.scene c) (v.memory c) := by
          rw [World.step] at hs
          split at hs
          · next s r hp =>
            have hj := hclient.memory (hrelies c).resumes hp
            rwa [World.memory, Client.memory, hp]
          · cases hs
        refine ⟨hclient.store, fun hnone => ?_, fun command' hcommand' => ?_⟩
        · cases hnone
        · obtain rfl := Option.some.inj hcommand'
          exact h.runs c command _ _ hlawful hmemory
      · exact hother hc
    | answer c' a =>
      obtain ⟨s, q, k, r, v₁, hp, hr, rfl⟩ := World.answer_cases hs
      by_cases hc : c = c'
      · subst hc
        have hscene : (v₁.resume c s q r (k r)).scene c = v₁.scene c := by
          rw [World.scene, World.resume, World.setClient_self]
          rfl
        rw [hscene] at hlawful ⊢
        exact hclient.answer h hv hp hr hlawful
      · have hscene := World.respond_scene_other hc hrelies hinv hr
        obtain ⟨hans, -⟩ := World.respond_fair (hrelies c').files hinv.objects hr
        have hsame : ((v₁.resume c' s q r (k r)).clients c) = v.clients c := by
          rw [World.resume, World.setClient_of_ne _ _ hc, hans.others c hc]
        have hscene' : (v₁.resume c' s q r (k r)).scene c = v₁.scene c := by
          rw [World.scene, World.scene, hsame, hans.others c hc]
          rfl
        rw [hsame, hscene']
        exact hclient.stable h hscene
    | edit c' key file =>
      obtain rfl := Option.some.inj hs
      by_cases hc : c = c'
      · subst hc
        rw [World.setClient_self] at hapart
        rw [World.scene, World.setClient_self]
        have hnext := hclient.stable h (Client.setFile_until hapart)
        exact ⟨hnext.store, hnext.before, hnext.rest⟩
      · exact hother hc
    | crash c' =>
      obtain rfl := Option.some.inj hs
      by_cases hc : c = c'
      · subst hc
        rw [World.scene, World.setClient_self]
        refine ⟨hclient.store, fun _ => hclient.store, fun command hcommand => ?_⟩
        cases hcommand
      · exact hother hc

end Runs

end Rollforward
