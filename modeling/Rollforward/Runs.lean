import Rollforward.Catalog.Refinement

/-! What a client can rely on in every run: its program is what is left of its command,
and the answers it got so far were given by this environment. -/

namespace Rollforward

open Std Lib

variable [Crates]

/-- Every version in `files` is among `versions`. -/
def Files.Within (files : Files) (versions : List (ResourceKey × File)) : Prop :=
  ∀ key file, files[key]? = some file → (key, file) ∈ versions

/-- The version that an applied mutation made. -/
def LocalMutation.Made (versions : List (ResourceKey × File)) (versionToken : String) :
    LocalMutation → Prop
  | .writePresent key data _ | .createCopy key data => (key, ⟨some data, versionToken⟩) ∈ versions
  | .applyDelete .. => True

/-- What the environment keeps to when it answers. -/
def Fair (S : Setting) (published : List Commit) (versions : List (ResourceKey × File)) :
    SyncEvent → Prop
  | ⟨_, .listResources scopes, .ok resources⟩ =>
    ∃ files shown, Files.Within files versions ∧ resources = S.list files scopes shown
  | ⟨_, .readResources keys, .ok contents⟩ =>
    ∃ files, Files.Within files versions ∧ contents = S.read files keys
  | ⟨_, .applyMutations mutations, .ok results⟩ =>
    List.Forall₂ (fun mutation result => result.status = .applied →
      ∃ versionToken, result.versionToken = some versionToken ∧
        mutation.Made versions versionToken) mutations results
  | ⟨_, .loadCommits ids, .ok commits⟩ =>
    (∀ x ∈ commits, x ∈ published) ∧ ∀ x ∈ commits, x.id ∈ ids
  | ⟨_, .commitBatch batch, .ok _⟩ => ∀ x ∈ batch.commits, x ∈ published
  | ⟨_, .readRanges ranges, .ok data⟩ =>
    List.Forall₂ (fun range part => part.hash = range.hash ∧ blake3 part.data = range.hash)
      ranges data
  | _ => True

/-- The program of a client is what its command has still to do. -/
def Client.Resumes (S : Setting) (c : String) (client : Client) : Prop :=
  match client.command with
  | none => client.trace = [] ∧ ∃ r, client.prog = .done client.before r
  | some command =>
    Prog.After (command.run ⟨c, S.policy c⟩ client.before) client.trace client.prog

structure Client.Relies (S : Setting) (published : List Commit) (c : String) (client : Client) :
    Prop where
  resumes : client.Resumes S c
  files : client.files.Within client.versions
  fair : ∀ e ∈ client.trace, Fair S published client.versions e

section Fair

variable {S : Setting} {published published' : List Commit}
variable {versions versions' : List (ResourceKey × File)}

omit [Crates] in
theorem Files.Within.mono {files : Files} (h : files.Within versions)
    (hv : ∀ v ∈ versions, v ∈ versions') : files.Within versions' :=
  fun key file hf => hv _ (h key file hf)

theorem Fair.mono {e : SyncEvent} (h : Fair S published versions e)
    (hp : ∀ x ∈ published, x ∈ published') (hv : ∀ v ∈ versions, v ∈ versions') :
    Fair S published' versions' e := by
  unfold Fair at h ⊢
  split at h
  · obtain ⟨files, shown, hf, rfl⟩ := h
    exact ⟨files, shown, hf.mono hv, rfl⟩
  · obtain ⟨files, hf, rfl⟩ := h
    exact ⟨files, hf.mono hv, rfl⟩
  · refine List.Forall₂.imp (fun mutation result hm hs => ?_) h
    obtain ⟨versionToken, ht, hmade⟩ := hm hs
    refine ⟨versionToken, ht, ?_⟩
    cases mutation with
    | writePresent | createCopy => exact hv _ hmade
    | applyDelete => trivial
  · exact ⟨fun x hx => hp x (h.1 x hx), h.2⟩
  · exact fun x hx => hp x (h x hx)
  · exact h
  · exact trivial

theorem Fair.failed {s : RuntimeState} {q : Req} {error : SyncError} {r : q.Resp}
    (hr : q.failure error = some r) : Fair S published versions ⟨s, q, r⟩ := by
  cases q <;> cases hr <;> exact trivial

end Fair

section Answer

variable {S : Setting} {w w₁ w' : World} {c : String}

/-- What any answer leaves of the client that gets it, and of the others. -/
structure Answers (w : World) (c : String) (w₁ : World) : Prop where
  published : ∀ x ∈ w.published, x ∈ w₁.published
  others : ∀ c' ≠ c, w₁.clients c' = w.clients c'
  command : (w₁.clients c).command = (w.clients c).command
  before : (w₁.clients c).before = (w.clients c).before
  trace : (w₁.clients c).trace = (w.clients c).trace
  versions : ∀ v ∈ (w.clients c).versions, v ∈ (w₁.clients c).versions
  files : (w.clients c).files.Within (w.clients c).versions →
    (w₁.clients c).files.Within (w₁.clients c).versions

theorem Answers.refl (w : World) (c : String) : Answers w c w :=
  ⟨fun _ h => h, fun _ _ => rfl, rfl, rfl, rfl, fun _ h => h, fun h => h⟩

theorem Answers.set {client : Client} (hcommand : client.command = (w.clients c).command)
    (hbefore : client.before = (w.clients c).before) (htrace : client.trace = (w.clients c).trace)
    (hversions : client.versions = (w.clients c).versions)
    (hfiles : client.files = (w.clients c).files) : Answers w c (w.setClient c client) := by
  refine ⟨fun _ h => h, fun _ hne => World.setClient_of_ne _ _ hne, ?_, ?_, ?_, ?_, ?_⟩ <;>
    rw [World.setClient_self]
  · exact hcommand
  · exact hbefore
  · exact htrace
  · rw [hversions]
    exact fun _ h => h
  · rw [hversions, hfiles]
    exact id

omit [Crates] in
theorem Files.Within.set {files : Files} {versions : List (ResourceKey × File)}
    (h : files.Within versions) (key : ResourceKey) (file : Option File) :
    (files.set key file).Within ((file.map fun file => (key, file)).toList ++ versions) := by
  intro key' file' hf
  cases file with
  | none =>
    rw [Files.set, Map.get?_erase] at hf
    split at hf
    · cases hf
    · exact h key' file' hf
  | some file =>
    rw [Files.set, Map.get?_insert] at hf
    split at hf
    · next e =>
      obtain rfl := Option.some.inj hf
      exact List.mem_cons.mpr (Or.inl (by rw [e]))
    · exact List.mem_cons_of_mem _ (h key' file' hf)

/-- Applying mutations: files stay among the versions, the rest of the client is as it
was, and each applied mutation made its version. -/
theorem Client.applyMutations_spec (client : Client) (versionToken : String) (tombstone : Bool)
    (mutations : List LocalMutation) :
    let after := client.applyMutations versionToken tombstone mutations
    (∃ files versions, after.2 = { client with files, versions }) ∧
      (∀ v ∈ client.versions, v ∈ after.2.versions) ∧
      (client.files.Within client.versions → after.2.files.Within after.2.versions) ∧
      List.Forall₂ (fun mutation result => result.status = .applied →
        ∃ versionToken, result.versionToken = some versionToken ∧
          mutation.Made after.2.versions versionToken) mutations after.1 := by
  induction mutations generalizing client with
  | nil => exact ⟨⟨_, _, rfl⟩, fun _ h => h, fun h => h, .nil⟩
  | cons mutation mutations ih =>
    rw [Client.applyMutations]
    split
    · obtain ⟨heq, hversions, hfiles, hresults⟩ := ih client
      refine ⟨heq, hversions, hfiles, .cons (fun hs => ?_) hresults⟩
      cases hs
    · next file hmutate =>
      obtain ⟨⟨files, versions, heq⟩, hversions, hfiles, hresults⟩ :=
        ih (client.setFile mutation.key file)
      have hgrow : ∀ v ∈ client.versions, v ∈ (client.setFile mutation.key file).versions :=
        fun v hv => List.mem_append_right _ hv
      refine ⟨⟨files, versions, heq⟩, fun v hv => hversions v (hgrow v hv),
        fun hw => hfiles (hw.set _ _), .cons (fun _ => ⟨versionToken, rfl, ?_⟩) hresults⟩
      cases mutation with
      | writePresent key data precondition | createCopy key data =>
        simp only [Files.mutate] at hmutate
        split at hmutate
        · obtain rfl := Option.some.inj hmutate
          exact hversions _ List.mem_cons_self
        · cases hmutate
      | applyDelete => trivial

theorem readRanges_fair {remote : Remote} {ranges : List PackRange} {data : List RangeData}
    (h : remote.readRanges ranges = .ok data) :
    List.Forall₂ (fun range part => part.hash = range.hash ∧ blake3 part.data = range.hash)
      ranges data := by
  refine List.Forall₂.imp (fun range part hr => ?_) (mapM_eq_ok.mp h)
  rw [Remote.readRange] at hr
  split at hr
  · cases hr
  · dsimp only at hr
    split at hr
    · cases hr
    · split at hr
      · cases hr
      · next hhash =>
        obtain rfl := Except.ok.inj hr
        exact ⟨rfl, not_not.mp hhash⟩

theorem World.respond_fair {s : RuntimeState} {q : Req} {a : Answer} {r : q.Resp}
    (hfiles : (w.clients c).files.Within (w.clients c).versions)
    (hobjects : ∀ x ∈ w.remote.commits, x ∈ w.published)
    (h : w.respond S c s q a = some (r, w₁)) :
    Answers w c w₁ ∧ Fair S w₁.published (w₁.clients c).versions ⟨s, q, r⟩ := by
  cases a with
  | fail error =>
    simp only [World.respond, Option.map_eq_some_iff, Prod.mk.injEq] at h
    obtain ⟨r', hr, rfl, rfl⟩ := h
    exact ⟨.refl .., .failed hr⟩
  | serve =>
    cases q with
    | scanCatalog request =>
      simp only [World.respond] at h
      split at h
      · cases h
        exact ⟨.set rfl rfl rfl rfl rfl, trivial⟩
      · cases h
        exact ⟨.refl .., trivial⟩
    | loadCommits ids =>
      simp only [World.respond] at h
      split at h
      · next commits hl =>
        cases h
        have hmem := (mem_loadCommits hl).1
        exact ⟨.set rfl rfl rfl rfl rfl, fun x hx => hobjects x (hmem x hx).1,
          fun x hx => (hmem x hx).2⟩
      · cases h
        exact ⟨.refl .., trivial⟩
    | commitBatch batch =>
      cases h
      refine ⟨⟨fun _ hx => List.mem_append_left _ hx, fun _ hne => World.setClient_of_ne _ _ hne,
        ?_, ?_, ?_, ?_, ?_⟩, fun x hx => List.mem_append_right _ hx⟩ <;>
        simp only [World.setClient_self]
      · exact fun _ hv => hv
      · exact fun hw => hw
    | readRanges ranges =>
      simp only [World.respond, Option.some.injEq, Prod.mk.injEq] at h
      obtain ⟨rfl, rfl⟩ := h
      refine ⟨.refl .., ?_⟩
      cases hr : w.remote.readRanges ranges with
      | ok data => exact readRanges_fair hr
      | error => exact trivial
    | readResources keys =>
      cases h
      exact ⟨.refl .., _, hfiles, rfl⟩
    | saveRuntimeState =>
      cases h
      exact ⟨.set rfl rfl rfl rfl rfl, trivial⟩
    | compactCatalog compaction =>
      cases h
      exact ⟨⟨fun _ hx => hx, fun _ _ => rfl, rfl, rfl, rfl, fun _ hv => hv, fun hw => hw⟩, trivial⟩
    | writeAcknowledgements acks =>
      cases h
      exact ⟨⟨fun _ hx => hx, fun _ _ => rfl, rfl, rfl, rfl, fun _ hv => hv, fun hw => hw⟩, trivial⟩
    | deletePackObjects ids =>
      cases h
      exact ⟨⟨fun _ hx => hx, fun _ _ => rfl, rfl, rfl, rfl, fun _ hv => hv, fun hw => hw⟩, trivial⟩
    | _ => cases h <;> exact ⟨.refl .., trivial⟩
  | shown withId =>
    cases q with
    | listResources scopes =>
      cases h
      exact ⟨.refl .., _, withId, hfiles, rfl⟩
    | _ => cases h
  | token versionToken tombstone =>
    cases q with
    | applyMutations mutations =>
      cases h
      obtain ⟨⟨files, versions, heq⟩, hversions, hwithin, hresults⟩ :=
        (w.clients c).applyMutations_spec versionToken tombstone mutations
      refine ⟨⟨fun _ hx => hx, fun _ hne => World.setClient_of_ne _ _ hne, ?_, ?_, ?_, ?_, ?_⟩, ?_⟩ <;>
        simp only [World.setClient_self]
      · rw [heq]
      · rw [heq]
      · rw [heq]
      · exact hversions
      · exact hwithin
      · exact hresults
    | _ => cases h
  | refuse error =>
    cases q with
    | applyMutations mutations =>
      cases h
      refine ⟨.refl .., ?_⟩
      rw [Fair, List.forall₂_map_right_iff, List.forall₂_same]
      intro mutation _ hs
      cases hs
    | _ => cases h
  | _ =>
    cases q <;> cases h
    exact ⟨.refl .., trivial⟩

end Answer

section Run

variable {S : Setting} {w w' : World} {c : String}

theorem Client.Relies.mono {published published' : List Commit} {client : Client}
    (h : client.Relies S published c) (hp : ∀ x ∈ published, x ∈ published') :
    client.Relies S published' c :=
  ⟨h.resumes, h.files, fun e he => (h.fair e he).mono hp fun _ hv => hv⟩

theorem Client.Resumes.answer {client client' : Client} (h : client.Resumes S c)
    {s : RuntimeState} {q : Req} {k : q.Resp → Prog host RuntimeState (Except SyncError Unit)}
    (hp : client.prog = .call s q k) (r : q.Resp) (hcommand : client'.command = client.command)
    (hbefore : client'.before = client.before) (hprog : client'.prog = k r)
    (htrace : client'.trace = ⟨s, q, r⟩ :: client.trace) : client'.Resumes S c := by
  rw [Client.Resumes] at h ⊢
  rw [hcommand, hbefore, hprog, htrace]
  cases hc : client.command with
  | none =>
    rw [hc] at h
    obtain ⟨r', hr⟩ := h.2
    rw [hp] at hr
    cases hr
  | some command =>
    rw [hc, hp] at h
    exact .cons h

/-- Every client relies on its environment. -/
def World.Relies (S : Setting) (w : World) : Prop :=
  ∀ c, (w.clients c).Relies S w.published c

theorem World.Relies.set {client : Client} (h : w.Relies S)
    (hc : client.Relies S w.published c) : (w.setClient c client).Relies S :=
  (Function.forall_update_iff _ fun c (client : Client) =>
    client.Relies S w.published c).mpr ⟨hc, fun c _ => h c⟩

theorem World.Relies.answer (h : w.Relies S) (hinv : w.Inv) {a : Answer}
    (hs : w.answer S c a = some w') : w'.Relies S := by
  obtain ⟨s, q, k, r, w₁, hp, hr, rfl⟩ := World.answer_cases hs
  have hc := h c
  obtain ⟨hans, hfair⟩ := World.respond_fair hc.files hinv.objects hr
  refine (Function.forall_update_iff _ fun c (client : Client) =>
    client.Relies S w₁.published c).mpr ⟨⟨?_, hans.files hc.files, ?_⟩, ?_⟩
  · exact hc.resumes.answer hp r hans.command hans.before rfl (by rw [hans.trace])
  · rw [hans.trace]
    refine List.forall_mem_cons.mpr ⟨hfair, fun e he => ?_⟩
    exact (hc.fair e he).mono hans.published hans.versions
  · intro c' hne
    rw [hans.others c' hne]
    exact (h c').mono hans.published

theorem World.Relies.step (h : w.Relies S) (hinv : w.Inv) {l : Label}
    (hs : w.step S l = some w') : w'.Relies S := by
  cases l with
  | start c command =>
    rw [World.step] at hs
    split at hs
    · obtain rfl := Option.some.inj hs
      exact h.set ⟨.nil, (h c).files, fun e he => absurd he List.not_mem_nil⟩
    · cases hs
  | answer c a => exact h.answer hinv hs
  | edit c key file =>
    obtain rfl := Option.some.inj hs
    have hc := h c
    refine h.set ⟨hc.resumes, hc.files.set key file, fun e he => ?_⟩
    exact (hc.fair e he).mono (fun _ hx => hx) fun _ hv => List.mem_append_right _ hv
  | crash c =>
    obtain rfl := Option.some.inj hs
    exact h.set ⟨⟨rfl, _, rfl⟩, (h c).files, fun e he => absurd he List.not_mem_nil⟩

theorem World.Reachable.relies {ok : World → Label → Prop} (h : w.Reachable S ok) :
    w.Relies S := by
  induction h with
  | refl =>
    refine fun c => ⟨⟨rfl, _, rfl⟩, fun key file hf => ?_, fun e he => absurd he List.not_mem_nil⟩
    rw [ExtTreeMap.getElem?_empty] at hf
    cases hf
  | tail hv hstep ih =>
    obtain ⟨l, -, hs⟩ := hstep
    exact ih.step (World.Reachable.inv hv) hs

theorem World.Reachable.mono {ok ok' : World → Label → Prop} (hok : ∀ w l, ok w l → ok' w l)
    (h : w.Reachable S ok) : w.Reachable S ok' :=
  Relation.ReflTransGen.mono (fun _ _ ⟨l, hl, hs⟩ => ⟨l, hok _ l hl, hs⟩) _ _ h

/-- What a command promises of its calls against a fair environment, it keeps in every run. -/
theorem World.Relies.call (h : w.Relies S) {command : Command}
    (hcommand : (w.clients c).command = some command) {F : SyncEvent → Prop}
    {C : List SyncEvent → RuntimeState → Req → Prop}
    {Q : List SyncEvent → RuntimeState → Except SyncError Unit → Prop}
    (hmeets : (command.run ⟨c, S.policy c⟩ (w.clients c).before).Meets (Prog.fairly F) C Q [])
    (hF : ∀ e ∈ (w.clients c).trace, Fair S w.published (w.clients c).versions e → F e) :
    (w.clients c).prog.Meets (Prog.fairly F) C Q (w.clients c).trace := by
  have hr := (h c).resumes
  rw [Client.Resumes, hcommand] at hr
  exact hmeets.after hr fun e he => hF e he ((h c).fair e he)

/-- It kept it at the calls that were answered, too. -/
theorem World.Relies.past (h : w.Relies S) {command : Command}
    (hcommand : (w.clients c).command = some command) {F : SyncEvent → Prop}
    {C : List SyncEvent → RuntimeState → Req → Prop}
    {Q : List SyncEvent → RuntimeState → Except SyncError Unit → Prop}
    (hmeets : (command.run ⟨c, S.policy c⟩ (w.clients c).before).Meets (Prog.fairly F) C Q [])
    (hF : ∀ e ∈ (w.clients c).trace, Fair S w.published (w.clients c).versions e → F e)
    {e : SyncEvent} {h₀ : List SyncEvent} (he : e :: h₀ <:+ (w.clients c).trace) :
    C h₀ e.memory e.req := by
  have hr := (h c).resumes
  rw [Client.Resumes, hcommand] at hr
  exact hmeets.past hr (fun e he => hF e he ((h c).fair e he)) he

/-- A client that made a call runs a command. -/
theorem World.Relies.command (h : w.Relies S) {e : SyncEvent} (he : e ∈ (w.clients c).trace) :
    ∃ command, (w.clients c).command = some command := by
  have hr := (h c).resumes
  rw [Client.Resumes] at hr
  cases hc : (w.clients c).command with
  | some command => exact ⟨command, rfl⟩
  | none =>
    rw [hc] at hr
    rw [hr.1] at he
    cases he

theorem World.Relies.calling (h : w.Relies S) {s : RuntimeState} {q : Req}
    {k : q.Resp → Prog host RuntimeState (Except SyncError Unit)}
    (hp : (w.clients c).prog = .call s q k) : ∃ command, (w.clients c).command = some command := by
  have hr := (h c).resumes
  rw [Client.Resumes] at hr
  cases hc : (w.clients c).command with
  | some command => exact ⟨command, rfl⟩
  | none =>
    rw [hc] at hr
    obtain ⟨r, hr⟩ := hr.2
    rw [hp] at hr
    cases hr

theorem World.start_cases {command : Command} (h : w.step S (.start c command) = some w') :
    w' = w.setClient c ((w.clients c).start ⟨c, S.policy c⟩ command) := by
  rw [World.step] at h
  split at h
  · exact (Option.some.inj h).symm
  · cases h

/-- How a step can add to what is published. -/
theorem World.step_published {l : Label} (hs : w.step S l = some w') :
    w'.published = w.published ∨ ∃ c s batch k, l = .answer c .serve ∧
      (w.clients c).prog = .call s (.commitBatch batch) k ∧
      w'.published = w.published ++ batch.commits := by
  cases l with
  | start c command =>
    rw [World.step] at hs
    split at hs
    · obtain rfl := Option.some.inj hs
      exact Or.inl rfl
    · cases hs
  | answer c a =>
    obtain ⟨s, q, k, r, w₁, hp, hr, rfl⟩ := World.answer_cases hs
    cases World.respond_effect hr with
    | @batch batch =>
      refine Or.inr ⟨c, s, batch, k, ?_, hp, rfl⟩
      cases a <;> first | rfl | cases hr
    | other _ same _ => exact Or.inl same.published
    | scan | load | compact | save => exact Or.inl rfl
  | edit c key file | crash c =>
    obtain rfl := Option.some.inj hs
    exact Or.inl rfl

/-- What an answered call saves is the memory. -/
theorem World.respond_store {P : RuntimeState → Prop} {s : RuntimeState} {q : Req} {a : Answer}
    {r : q.Resp} (hr : w.respond S c s q a = some (r, w')) (hstore : P (w.clients c).store)
    (hs : P s) : P (w'.clients c).store := by
  cases World.respond_effect hr with
  | scan | load | batch => rwa [World.setClient_self]
  | compact => exact hstore
  | save => rwa [World.setClient_self]
  | other _ same =>
    obtain ⟨files, versions, e⟩ := same.self
    rwa [e]

/-- What every command keeps, whatever it is answered, holds of all that a client remembers
or has saved. -/
theorem World.Reachable.kept {ok : World → Label → Prop} {P : RuntimeState → Prop}
    (hempty : P {}) (hrun : ∀ c (command : Command) s, P s →
      (command.run ⟨c, S.policy c⟩ s).Meets (Prog.fairly fun _ => True) (fun _ s _ => P s)
        (fun _ s _ => P s) [])
    (hw : w.Reachable S ok) (c : String) :
    P (w.clients c).store ∧ P (w.clients c).before ∧ P (w.memory c) := by
  have hmemory : ∀ {v : World}, v.Reachable S ok → ∀ c, P (v.clients c).before → P (v.memory c) := by
    intro v hv c hbefore
    cases hcommand : (v.clients c).command with
    | none =>
      have hresumes := (hv.relies c).resumes
      rw [Client.Resumes, hcommand] at hresumes
      obtain ⟨-, r, hp⟩ := hresumes
      rw [World.memory, Client.memory, hp]
      exact hbefore
    | some command =>
      have hmeets := hv.relies.call hcommand (hrun c command _ hbefore) fun _ _ _ => trivial
      rw [World.memory, Client.memory]
      cases hp : (v.clients c).prog with
      | done s r =>
        rw [hp] at hmeets
        exact hmeets
      | call s q k =>
        rw [hp] at hmeets
        exact hmeets.1
  have hall : ∀ c, P (w.clients c).store ∧ P (w.clients c).before := by
    induction hw with
    | refl => exact fun c => ⟨hempty, hempty⟩
    | @tail v v' hv hstep ih =>
      have hset : ∀ {c : String} {client : Client}, P client.store ∧ P client.before →
          ∀ c', P ((v.setClient c client).clients c').store ∧
            P ((v.setClient c client).clients c').before := fun hclient =>
        (Function.forall_update_iff _ fun _ (client : Client) =>
          P client.store ∧ P client.before).mpr ⟨hclient, fun c' _ => ih c'⟩
      obtain ⟨l, -, hs⟩ := hstep
      cases l with
      | start c command =>
        rw [World.start_cases hs]
        exact hset ⟨(ih c).1, hmemory hv c (ih c).2⟩
      | answer c a =>
        obtain ⟨s, q, k, r, v₁, hp, hr, rfl⟩ := World.answer_cases hs
        obtain ⟨hans, -⟩ := World.respond_fair ((World.Reachable.relies hv) c).files
          (World.Reachable.inv hv).objects hr
        refine (Function.forall_update_iff _ fun _ (client : Client) =>
          P client.store ∧ P client.before).mpr ⟨⟨?_, ?_⟩, fun c' hne => ?_⟩
        · have hmem := hmemory hv c (ih c).2
          rw [World.memory, Client.memory, hp] at hmem
          exact World.respond_store hr (ih c).1 hmem
        · exact hans.before ▸ (ih c).2
        · rw [hans.others c' hne]
          exact ih c'
      | edit c key file =>
        obtain rfl := Option.some.inj hs
        exact hset ⟨(ih c).1, (ih c).2⟩
      | crash c =>
        obtain rfl := Option.some.inj hs
        exact hset ⟨(ih c).1, (ih c).1⟩
  exact ⟨(hall c).1, (hall c).2, hmemory hw c (hall c).2⟩

end Run

end Rollforward
