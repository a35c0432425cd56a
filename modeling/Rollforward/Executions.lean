import Rollforward.Rounds

/-! Runs of `execute` that come to their end: what they go through, and where. -/

namespace Rollforward

open Std Lib

variable [Crates]

/-- Any call may be answered in any way. -/
abbrev AnyAnswer : List SyncEvent → SyncEvent → List SyncEvent → Prop :=
  Prog.fairly fun _ => True

/-- However the calls are answered, `Q` holds if `x` comes to its end. -/
abbrev Ends (x : Sync α) (Q : List SyncEvent → RuntimeState → α → Prop) (h : List SyncEvent)
    (s : RuntimeState) : Prop :=
  Comp.wp AnyAnswer (fun _ _ _ => True) (fun _ _ _ => True) x Q h s

/-- A call of `execute` that came to its end with the answers of `trace`. -/
structure Executed where
  rt : SyncRuntime
  request : SyncRequest
  locals : List LocalResource
  plan : List PlanOperation
  before : RuntimeState
  trace : List SyncEvent
  after : RuntimeState
  report : SyncReport
  distinct : (plan.map PlanOperation.key).Nodup
  ran : Prog.Exec AnyAnswer [] (execute rt request locals plan before) trace after (.ok report)

namespace Executed

/-- The run came through `x`, with `a`. -/
def Passed (run : Executed) (x : Sync α) (a : α) : Prop :=
  ∃ h s, h <:+ run.trace ∧ Prog.Exec AnyAnswer [] (x run.before) h s (.ok a)

def uploads (run : Executed) : List PlanOperation := run.plan.filter PlanOperation.isUpload

def plannedConflicts (run : Executed) : List PlanOperation :=
  run.plan.filter PlanOperation.isConflict

/-- What the local replica returned for the uploads. -/
def Read (run : Executed) (contents : List ResourceContent) : Prop :=
  run.Passed (do
    startRun run.request run.plan
    Sync.readResources (uploadKeys run.uploads)) contents

/-- The run as far as the operations of `before`. -/
def upTo (run : Executed) (before : List PlanOperation) : Sync Tally := do
  startRun run.request run.plan
  let conflicts := run.plannedConflicts.length
  let tally ← runUploads run.rt run.locals run.plan { report := { conflicts } }
  before.foldlM (runOperation run.locals) tally

end Executed

/-- What becomes of an upload before anything is published. -/
inductive UploadVerdict
  | unread | conflicted | ready
  deriving DecidableEq

def uploadVerdict (rt : SyncRuntime) (state : RuntimeState)
    (contents : Map ResourceKey ResourceContent) : PlanOperation → UploadVerdict
  | .upload key localState =>
    match contents[key]? with
    | none => .unread
    | some content =>
      if localState.versionToken ≠ some content.versionToken then .unread
      else
        match askPolicy rt state key content with
        | .ok (.conflict _) => .conflicted
        | _ => .ready
  | _ => .ready

section Calls

variable {h h' : List SyncEvent} {s s' : RuntimeState}

theorem request_exec {q : Req} {f : q.Resp → Except SyncError α} {a : α} :
    Prog.Exec AnyAnswer h ((Comp.request q f : Sync α) s) h' s' (.ok a) ↔
      ∃ r, f r = .ok a ∧ h' = ⟨s, q, r⟩ :: h ∧ s' = s := by
  constructor
  · intro hexec
    cases hexec with
    | call ht hk =>
      obtain ⟨rfl, rfl, e⟩ := Prog.exec_done.mp hk
      exact ⟨_, e.symm, ht.1, rfl⟩
  · rintro ⟨r, hr, rfl, rfl⟩
    have hdone : Prog.Exec AnyAnswer (⟨s', q, r⟩ :: h) (.done s' (f r)) (⟨s', q, r⟩ :: h) s'
        (.ok a) := by
      rw [hr]
      exact .done
    exact .call ⟨rfl, trivial⟩ hdone

/-- A turn of the loop: the operation, a save, and a count of either kind. -/
theorem runOperation_exec {h h' : List SyncEvent} {s s' : RuntimeState} {tally tally' : Tally} :
    Prog.Exec AnyAnswer h (runOperation locals tally operation s) h' s' (.ok tally') ↔
      ∃ h₁ outcome, Prog.Exec AnyAnswer h (applyOperation locals tally operation s) h₁ s' outcome ∧
        h' = ⟨s', .saveRuntimeState, .ok ()⟩ :: h₁ ∧
        tally' = match outcome with
          | .ok tally => tally
          | .error _ => tally.fail operation.key.scopeId := by
  rw [runOperation, Comp.exec_bind_ok]
  constructor
  · rintro ⟨h₁, s₁, outcome, happly, hsave⟩
    obtain ⟨_, e, happly⟩ := Comp.exec_attempt.mp happly
    obtain rfl := Except.ok.inj e
    obtain ⟨h₂, s₂, ⟨⟩, hcall, hlast⟩ := Comp.exec_bind_ok.mp hsave
    cases hcall with
    | call ht hk =>
      obtain ⟨rfl, rfl, hr⟩ := Prog.exec_done.mp hk
      subst hr
      cases outcome with
      | ok t =>
        obtain ⟨rfl, rfl, e⟩ := Prog.exec_done.mp hlast
        exact ⟨h₁, _, happly, ht.1, Except.ok.inj e⟩
      | error e =>
        obtain ⟨rfl, rfl, e⟩ := Prog.exec_done.mp hlast
        exact ⟨h₁, _, happly, ht.1, Except.ok.inj e⟩
  · rintro ⟨h₁, outcome, happly, rfl, rfl⟩
    refine ⟨h₁, s', outcome, Comp.exec_attempt.mpr ⟨outcome, rfl, happly⟩, ?_⟩
    refine Comp.exec_bind_ok.mpr ⟨_, s', (), .call ⟨rfl, trivial⟩ .done, ?_⟩
    cases outcome with
    | ok t => exact .done
    | error e => exact .done

theorem startRun_base (request : SyncRequest) (plan : List PlanOperation) :
    Comp.Within NoWrite SameBase (startRun request plan) :=
  .bind (.modify fun _ => ⟨⟨rfl, rfl, le_rfl⟩, rfl, rfl, rfl⟩) fun _ => .request (by exact trivial) _

variable {rt : SyncRuntime} {s₀ : RuntimeState}

theorem askPolicy_of_sameBase (hs : SameBase s₀ s) (key : ResourceKey) (content : ResourceContent) :
    askPolicy rt s key content = askPolicy rt s₀ key content := by
  simp only [askPolicy, mergeInput, hs.baselines, hs.textStates,
    RuntimeState.heads_of_commits hs.commits, RuntimeState.textDoc_of_commits hs.commits]

end Calls

namespace Executed

variable {run : Executed}

theorem Passed.unique {x : Sync α} {a a' : α} (h : run.Passed x a) (h' : run.Passed x a') :
    a = a' := by
  obtain ⟨h₁, s₁, hsuffix₁, hexec₁⟩ := h
  obtain ⟨h₂, s₂, hsuffix₂, hexec₂⟩ := h'
  exact Except.ok.inj (hexec₁.determined hsuffix₁ hexec₂ hsuffix₂).2.2

/-- The verdict on an operation, given what the replica returned. -/
def verdict (run : Executed) (contents : List ResourceContent) : PlanOperation → UploadVerdict :=
  uploadVerdict run.rt run.before (contentMap contents)

/-- The run, cut where its two loops begin and end. -/
structure Stages (run : Executed) (s₁ : RuntimeState) (tally₂ tally₃ : Tally)
    (s₂ s₃ : RuntimeState) (h₁ h₂ h₃ : List SyncEvent) : Prop where
  start : Prog.Exec AnyAnswer [] (startRun run.request run.plan run.before) h₁ s₁ (.ok ())
  uploads : Prog.Exec AnyAnswer h₁
    (runUploads run.rt run.locals run.plan
      { report := { conflicts := run.plannedConflicts.length } } s₁) h₂ s₂ (.ok tally₂)
  loop : Prog.Exec AnyAnswer h₂ (run.plan.foldlM (runOperation run.locals) tally₂ s₂) h₃ s₃
    (.ok tally₃)
  trace : ∃ added, run.trace = added ++ h₃ ∧ ∀ e ∈ added, NoWrite e.req
  after : run.after = { s₃ with activeRun := none }
  saved : run.trace.head? = some ⟨run.after, .saveRuntimeState, .ok ()⟩
  report : run.report =
    { tally₃.report with scopes := reportScopes run.request run.plan tally₃.failures }

theorem stages (run : Executed) :
    ∃ s₁ tally₂ tally₃ s₂ s₃ h₁ h₂ h₃, run.Stages s₁ tally₂ tally₃ s₂ s₃ h₁ h₂ h₃ := by
  have hran := run.ran
  rw [execute] at hran
  obtain ⟨h₁, s₁, ⟨⟩, hstart, hran⟩ := Comp.exec_bind_ok.mp hran
  obtain ⟨h₂, s₂, tally₂, huploads, hran⟩ := Comp.exec_bind_ok.mp hran
  obtain ⟨h₃, s₃, tally₃, hloop, hran⟩ := Comp.exec_bind_ok.mp hran
  obtain ⟨h₄, s₄, ⟨⟩, hack, hran⟩ := Comp.exec_bind_ok.mp hran
  obtain ⟨h₅, s₅, ⟨⟩, hmodify, hran⟩ := Comp.exec_bind_ok.mp hran
  obtain ⟨h₆, s₆, ⟨⟩, hsave, hran⟩ := Comp.exec_bind_ok.mp hran
  obtain ⟨_, _, state, hget, hack⟩ := Comp.exec_bind_ok.mp hack
  obtain ⟨rfl, rfl, e⟩ := Prog.exec_done.mp hget
  obtain rfl := Except.ok.inj e
  obtain ⟨r, -, rfl, rfl⟩ := request_exec.mp hack
  obtain ⟨rfl, rfl, -⟩ := Prog.exec_done.mp hmodify
  obtain ⟨r', hr', rfl, rfl⟩ := request_exec.mp hsave
  obtain rfl : r' = .ok () := hr'
  obtain ⟨htrace, hafter, e⟩ := Prog.exec_done.mp hran
  refine ⟨s₁, tally₂, tally₃, s₂, _, h₁, h₂, _, hstart, huploads, hloop, ⟨[_, _], htrace, ?_⟩,
    hafter, ?_, Except.ok.inj e⟩
  · exact List.forall_mem_cons.mpr ⟨trivial, List.forall_mem_singleton.mpr trivial⟩
  · rw [htrace, hafter]
    rfl

variable {s₁ s₂ s₃ : RuntimeState} {tally₂ tally₃ : Tally} {h₁ h₂ h₃ : List SyncEvent}

theorem Stages.suffix (hstages : run.Stages s₁ tally₂ tally₃ s₂ s₃ h₁ h₂ h₃) :
    h₃ <:+ run.trace := by
  obtain ⟨added, htrace, -⟩ := hstages.trace
  exact ⟨added, htrace.symm⟩

end Executed

section Reconcile

variable {S : Setting} {w : World} {c : String} {request : SyncRequest}

/-- `reconcile` up to its plan. -/
def planRun (rt : SyncRuntime) (request : SyncRequest) :
    Sync (List LocalResource × List PlanOperation) := do
  Comp.modify fun state => { state with activeRun := none }
  refreshRemote request.scopes
  snapshotLargeCatalogs rt
  let locals ← localInventory request.scopes
  Comp.modify fun state => state.recordKinds locals
  let plan ← Comp.ofExcept ((← Comp.get).buildPlan rt request.scopes locals)
  return (locals, plan)

/-- Where a plan comes from. -/
structure MadePlan (scopes : List String) (rt : SyncRuntime) (s : RuntimeState)
    (locals : List LocalResource) (plan : List PlanOperation) : Prop where
  inside : ∀ resource ∈ locals, inScopes scopes resource.key.scopeId = true
  built : s.buildPlan rt scopes locals = .ok plan

theorem reconcile_eq (rt : SyncRuntime) (request : SyncRequest) : reconcile rt request = (do
    let (locals, plan) ← planRun rt request
    execute rt request locals plan) := by
  simp only [reconcile, planRun, bind_assoc, pure_bind]

/-- What comes out of `planRun` is a plan made on the memory it leaves. -/
theorem planRun_made {rt : SyncRuntime} {published : List Commit}
    {versions : List (ResourceKey × File)} {h h' : List SyncEvent} {s s' : RuntimeState}
    {locals : List LocalResource} {plan : List PlanOperation}
    (hexec : Prog.Exec (Prog.fairly (Fair S published versions)) h (planRun rt request s) h' s'
      (.ok (locals, plan))) : MadePlan request.scopes rt s' locals plan := by
  rw [planRun] at hexec
  obtain ⟨h₁, s₁, _, -, hexec⟩ := Comp.exec_bind_ok.mp hexec
  obtain ⟨h₂, s₂, _, -, hexec⟩ := Comp.exec_bind_ok.mp hexec
  obtain ⟨h₃, s₃, _, -, hexec⟩ := Comp.exec_bind_ok.mp hexec
  obtain ⟨h₄, s₄, locals', hlocals, hexec⟩ := Comp.exec_bind_ok.mp hexec
  obtain ⟨h₅, s₅, _, -, hexec⟩ := Comp.exec_bind_ok.mp hexec
  obtain ⟨h₆, s₆, state, hget, hexec⟩ := Comp.exec_bind_ok.mp hexec
  obtain ⟨h₇, s₇, plan', hplan, hlast⟩ := Comp.exec_bind_ok.mp hexec
  clear hexec
  obtain ⟨rfl, rfl, e⟩ := Prog.exec_done.mp hget
  obtain rfl := Except.ok.inj e
  obtain ⟨rfl, rfl, hbuilt⟩ := Prog.exec_done.mp hplan
  obtain ⟨rfl, rfl, hpair⟩ := Prog.exec_done.mp hlast
  obtain ⟨rfl, rfl⟩ := Prod.mk.inj (Except.ok.inj hpair)
  have hinv : Inventoried S request.scopes locals :=
    ((localInventory_inventoried (C := fun _ _ _ => True) (fun _ _ _ _ => trivial) _ _).exec
      hlocals).2.2
  exact ⟨fun resource hr => (hinv resource hr).1, hbuilt.symm⟩

/-- A `reconcile` that came to its end planned and executed. -/
theorem reconcile_exec {rt : SyncRuntime} {published : List Commit}
    {versions : List (ResourceKey × File)} {h h' : List SyncEvent} {s s' : RuntimeState}
    {report : SyncReport}
    (hexec : Prog.Exec (Prog.fairly (Fair S published versions)) h (reconcile rt request s) h' s'
      (.ok report)) : ∃ h₁ s₁ locals plan, MadePlan request.scopes rt s₁ locals plan ∧
        Prog.Exec (Prog.fairly (Fair S published versions)) h (planRun rt request s) h₁ s₁
          (.ok (locals, plan)) ∧
        Prog.Exec (Prog.fairly (Fair S published versions)) h₁
          (execute rt request locals plan s₁) h' s' (.ok report) := by
  rw [reconcile_eq] at hexec
  obtain ⟨h₁, s₁, ⟨locals, plan⟩, hplan, hexecute⟩ := Comp.exec_bind_ok.mp hexec
  exact ⟨h₁, s₁, locals, plan, planRun_made hplan, hplan, hexecute⟩

/-- The client has reconciled, and `run` is how its plan was executed. -/
structure Client.Reconciled (S : Setting) (c : String) (client : Client) (request : SyncRequest)
    (run : Executed) : Prop where
  rt : run.rt = ⟨c, S.policy c⟩
  asked : run.request = request
  planned : MadePlan request.scopes run.rt run.before run.locals run.plan
  trace : ∃ h, client.trace = run.trace ++ h ∧ Prog.Exec AnyAnswer []
    (planRun run.rt request client.before) h run.before (.ok (run.locals, run.plan))
  after : client.prog = .done run.after (.ok ())

theorem World.Relies.reconciled (h : w.Relies S) {s : RuntimeState}
    (hcommand : (w.clients c).command = some (.reconcile request))
    (hdone : (w.clients c).prog = .done s (.ok ())) :
    ∃ run, (w.clients c).Reconciled S c request run := by
  have hresumes := (h c).resumes
  rw [Client.Resumes, hcommand, hdone] at hresumes
  have hexec := hresumes.exec (h c).fair .done
  obtain ⟨h₁, s₁, report, hexec, hunit⟩ := Comp.exec_bind_ok.mp hexec
  obtain ⟨rfl, rfl, -⟩ := Prog.exec_done.mp hunit
  obtain ⟨h₂, s₂, locals, plan, hmade, hplan, hexec⟩ := reconcile_exec hexec
  have hany : ∀ {versions} (h : List SyncEvent) e h',
      Prog.fairly (Fair S w.published versions) h e h' → AnyAnswer h e h' :=
    fun _ _ _ ht => ⟨ht.1, trivial⟩
  obtain ⟨added, htrace, hshift⟩ := hexec.shift
  have hran := hshift []
  rw [List.append_nil] at hran
  exact ⟨⟨_, request, locals, plan, s₂, added, _, report, buildPlan_nodup hmade.built,
    hran.mono hany⟩, rfl, rfl, hmade, ⟨h₂, htrace, hplan.mono hany⟩, hdone⟩

end Reconcile

end Rollforward
