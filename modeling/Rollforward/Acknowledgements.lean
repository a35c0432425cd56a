import Rollforward.Conflicts
import Rollforward.Reports
import Rollforward.Settled

/-! What a run acknowledges: the heads that it has seen, integrated or not. -/

namespace Rollforward

open Std Lib

section Coverage

variable [Crates] {s t : RuntimeState} {key : ResourceKey} {h : List SyncEvent}
variable {locals : List LocalResource} {operation : PlanOperation} {tally : Tally}

def BaselineState.remoteHeads : BaselineState → List String
  | .present _ _ heads | .deleted heads => heads

/-- The heads that the baseline of a resource stands for. -/
def RuntimeState.integrated (s : RuntimeState) (key : ResourceKey) : Option (List String) :=
  (s.baselines.get? key.encoded).map fun baseline => baseline.state.remoteHeads

/-- If the resource has any heads, its baseline stands for them. -/
def RuntimeState.Covers (s : RuntimeState) (key : ResourceKey) : Prop :=
  s.heads key ≠ [] → s.integrated key = some (s.heads key)

theorem RuntimeState.Covers.congr (hs : s.Covers key) (hheads : t.heads key = s.heads key)
    (hbaseline : t.baselines.get? key.encoded = s.baselines.get? key.encoded) : t.Covers key := by
  rw [Covers, integrated, hheads, hbaseline]
  exact hs

theorem Spares.covers (hst : Spares key s t) (hcreated : ∀ x ∈ s.commits, x.Created)
    (hs : s.Covers key) : t.Covers key := by
  obtain ⟨hkeeps, hbaseline, -⟩ := hst hcreated
  exact hs.congr hkeeps.heads hbaseline

theorem integrated_present (s : RuntimeState) (key : ResourceKey) (contentId version : String)
    (heads : List String) :
    (s.setPresentBaseline key contentId version heads).integrated key = some heads := by
  rw [RuntimeState.integrated, RuntimeState.setPresentBaseline, KeyedMap.get?_insert, if_pos rfl]
  rfl

theorem integrated_deleted (s : RuntimeState) (key : ResourceKey) (heads : List String) :
    (s.setDeletedBaseline key heads).integrated key = some heads := by
  rw [RuntimeState.integrated, RuntimeState.setDeletedBaseline, KeyedMap.get?_insert, if_pos rfl]
  rfl

/-- The operation is about the heads that the resource has. -/
def PlanOperation.Observes (s : RuntimeState) : PlanOperation → Prop
  | .noop key => s.heads key = []
  | .establishBaseline key _ heads | .establishDeletedBaseline key heads
  | .applyDelete key _ heads => heads = s.heads key
  | .download key remote => remote.heads = s.heads key
  | .upload .. | .publishDelete _ | .conflict _ => True

theorem PlanOperation.Observes.congr (hs : operation.Observes s)
    (hheads : t.heads operation.key = s.heads operation.key) : operation.Observes t := by
  cases operation with
  | noop => exact hheads.trans hs
  | upload | publishDelete | conflict => exact trivial
  | _ => exact Eq.trans hs hheads.symm

theorem sortDedup_heads (s : RuntimeState) (key : ResourceKey) :
    sortDedup (s.heads key) = s.heads key := by
  have hsorted := s.heads_sorted key
  have hle : (s.heads key).Pairwise (· ≤ ·) := by
    refine hsorted.imp fun {a b} hab => ?_
    exact (compare_lt_iff_lt.mp hab).le
  have hnodup : (s.heads key).Nodup := by
    refine hsorted.imp fun {a b} hab e => ?_
    rw [e, compare_self] at hab
    cases hab
  rw [sortDedup, hle.insertionSort_eq, hnodup.dedup]

theorem heads_of_remoteState {remote : RemoteResourceState} (h : s.remoteState key = .ok remote) :
    remote.heads = s.heads key := by
  cases RuntimeState.shows_of_remoteState h with
  | missing none => exact none.symm
  | deleted | forked => rfl
  | text | snapshot => exact sortDedup_heads s key

theorem planResource_observes {l : ReplicaState} {b : Option BaselineState}
    {r : RemoteResourceState} (hr : r.heads = s.heads key) :
    (planResource key l b r).Observes s := by
  unfold planResource
  split <;> (try split) <;> (try split) <;> (try split) <;>
    first | exact trivial | exact hr | exact hr.symm

theorem PlanOperation.Observes.mergeTextConflict (h : operation.Observes s) :
    (mergeTextConflict locals operation).Observes s := by
  cases operation with
  | conflict record =>
    rw [Rollforward.mergeTextConflict]
    split
    · split
      · exact trivial
      · exact trivial
    · exact trivial
  | _ => exact h

theorem Planned.observes (h : Planned s locals operation) : operation.Observes s := by
  obtain ⟨l, b, r, hc, hop⟩ := h
  rw [hop]
  exact (planResource_observes (heads_of_remoteState hc.remote)).mergeTextConflict

end Coverage

section Operations

variable [Crates] {s t : RuntimeState} {key : ResourceKey} {h h' : List SyncEvent}
variable {locals : List LocalResource} {operation : PlanOperation} {tally tally' : Tally}

/-- The commits and the baselines are the same. -/
structure SameMarks (s t : RuntimeState) : Prop where
  commits : t.commits = s.commits
  baselines : t.baselines = s.baselines

instance : IsPreorder RuntimeState SameMarks where
  refl _ := ⟨rfl, rfl⟩
  trans _ _ _ hst htu := ⟨htu.commits.trans hst.commits, htu.baselines.trans hst.baselines⟩

theorem SameMarks.covers (hst : SameMarks s t) (hs : s.Covers key) : t.Covers key :=
  hs.congr (RuntimeState.heads_of_commits hst.commits key) (by rw [hst.baselines])

/-- A computation that leaves commits and baselines alone. -/
def KeepsMarks (x : Sync α) : Prop := Comp.Within AnyCall SameMarks x

theorem Reads.marks {x : Sync α} (hx : Reads x) : KeepsMarks x :=
  hx.mono (fun _ _ => trivial) fun s _ e => e ▸ refl_of SameMarks s

theorem recordText_marks (key : ResourceKey) : KeepsMarks (recordText key) :=
  .bind .get fun _ => .bind (.ofExcept _) fun _ => .modify fun _ => ⟨rfl, rfl⟩

theorem noteText_marks (key : ResourceKey) (selected : Option String) :
    KeepsMarks (noteText key selected) := by
  refine .bind .get fun state => ?_
  split
  · exact .bind (recordText_marks key) fun _ => .modify fun _ => ⟨rfl, rfl⟩
  · exact .pure _

theorem applyMutation_marks (mutation : LocalMutation) (noResult : String)
    (refused : Option String → String) : KeepsMarks (applyMutation mutation noResult refused) :=
  applyMutation_same (fun _ => trivial) mutation noResult refused

theorem keepText_marks (key : ResourceKey) : KeepsMarks (keepText key) := by
  refine .bind .get fun state => ?_
  split
  · exact recordText_marks key
  · exact .pure _

/-- What comes before the baseline is set leaves it to the rest. -/
theorem KeepsMarks.first {x : Sync α} {f : α → Sync β} {s₀ : RuntimeState}
    {Q : List SyncEvent → RuntimeState → β → Prop} (hx : KeepsMarks x) (hs : SameMarks s₀ s)
    (hf : ∀ h t a, SameMarks s₀ t → Comp.wp AnyAnswer (fun _ _ _ => True)
      (fun _ t _ => SameMarks s₀ t) (f a) Q h t) :
    Comp.wp AnyAnswer (fun _ _ _ => True) (fun _ t _ => SameMarks s₀ t) (x >>= f) Q h s := by
  rw [Comp.wp_bind]
  refine Comp.wp_mono (Comp.Within.frame hx (fun _ _ _ _ => trivial) h s) ?_ ?_
  · exact fun _ _ _ ht => trans_of SameMarks hs ht.1
  · exact fun h t a ht => hf h t a (trans_of SameMarks hs ht.1)

/-- An operation that is carried out covers its resource; one that fails moves nothing. -/
theorem applyOperation_covers (hobserves : operation.Observes s) (hruns : operation.runs = true) :
    Comp.wp AnyAnswer (fun _ _ _ => True) (fun _ t _ => SameMarks s t)
      (applyOperation locals tally operation) (fun _ t _ => t.Covers operation.key) h s := by
  have hpresent : ∀ {t : RuntimeState} {key : ResourceKey} {heads : List String} (contentId version),
      SameMarks s t → heads = s.heads key →
        (t.setPresentBaseline key contentId version heads).Covers key := by
    intro t key heads contentId version ht hheads _
    rw [integrated_present, hheads, ← RuntimeState.heads_of_commits ht.commits key]
    rfl
  have hdeleted : ∀ {t : RuntimeState} {key : ResourceKey} {heads : List String},
      SameMarks s t → heads = s.heads key → (t.setDeletedBaseline key heads).Covers key := by
    intro t key heads ht hheads _
    rw [integrated_deleted, hheads, ← RuntimeState.heads_of_commits ht.commits key]
    rfl
  unfold applyOperation
  cases operation with
  | noop key => exact fun hsome => absurd hobserves hsome
  | establishBaseline key localState heads =>
    refine (keepText_marks key).first (refl_of SameMarks s) fun h t _ ht => ?_
    exact hpresent _ _ ht hobserves
  | establishDeletedBaseline key heads => exact hdeleted (refl_of SameMarks s) hobserves
  | download key remote =>
    refine (announceDownload_reads remote).marks.first (refl_of SameMarks s) fun h t _ ht => ?_
    refine (contentForRemote_reads key none).marks.first ht fun h t data ht => ?_
    refine (applyMutation_marks _ _ _).first ht fun h t _ ht => ?_
    refine (noteText_marks key _).first ht fun h t _ ht => ?_
    exact hpresent _ _ ht hobserves
  | applyDelete key localState heads =>
    refine (applyMutation_marks _ _ _).first (refl_of SameMarks s) fun h t _ ht => ?_
    exact hdeleted ht hobserves
  | upload | publishDelete | conflict => cases hruns

/-- A commit that is published covers its resource, unless its text was kept out. -/
theorem afterCommit_covers (x : Commit) :
    Ends (afterCommit locals tally x) (fun h' t _ => t.commits = s.commits.insert x ∧
      (t.Covers x.resource ∨ ∃ e ∈ h', Refuses x.resource e)) h s := by
  have hheads : ∀ {t u : RuntimeState}, u.commits = t.commits →
      u.integrated x.resource = some (t.heads x.resource) → u.Covers x.resource := by
    intro t u hcommits hintegrated _
    rw [hintegrated, RuntimeState.heads_of_commits hcommits]
  rw [Ends, afterCommit]
  dsimp only
  rw [Comp.wp_bind, Comp.wp_modify, Comp.wp_bind, Comp.wp_get]
  cases x.change with
  | delete => exact ⟨rfl, Or.inl (hheads rfl (integrated_deleted _ _ _))⟩
  | binarySnapshot => exact ⟨rfl, Or.inl (hheads rfl (integrated_present _ _ _ _ _))⟩
  | textDelta =>
    dsimp only
    rw [writeBack, Comp.wp_bind, Comp.wp_get, Comp.wp_bind, Comp.wp_ofExcept]
    refine ⟨fun merged _ => ?_, fun _ _ => trivial⟩
    rw [Comp.wp_bind, Sync.applyMutations, Comp.wp_request]
    refine ⟨trivial, fun r h' ht => ⟨fun results hr => ?_, fun _ _ => trivial⟩⟩
    obtain rfl : r = .ok results := hr
    obtain ⟨rfl, -⟩ := ht
    cases happlied : results.head?.filter fun result => result.status = .applied with
    | some result => exact ⟨rfl, Or.inl (hheads rfl (integrated_present _ _ _ _ _))⟩
    | none =>
      refine ⟨rfl, Or.inr ⟨_, List.mem_cons_self, ?_⟩⟩
      rw [Refuses, happlied]
      exact ⟨⟨_, List.mem_singleton_self _, rfl⟩, rfl⟩

/-- A loop of turns that concern other resources. -/
theorem spares_of_turns {β γ : Type} {f : γ → β → Sync γ} {xs : List β} {a b : γ}
    (hf : ∀ x ∈ xs, ∀ a, Sparing key (f a x))
    (hexec : Prog.Exec AnyAnswer h (xs.foldlM f a s) h' t (.ok b)) : Spares key s t := by
  have hloop : Comp.Within (Avoids key) (Spares key) (xs.foldlM f a) := .foldlM_mem hf a
  exact ((hloop s).exec hexec).1

theorem afterCommits_cover (hcol : Collisionless) {commits : List Commit} {x : Commit}
    (hexec : Prog.Exec AnyAnswer h (commits.foldlM (afterCommit locals) tally s) h' t (.ok tally'))
    (hcreated : ∀ y ∈ s.commits, y.Created) (hnew : ∀ y ∈ commits, y.Created) (hx : x ∈ commits)
    (hnodup : commits.Nodup)
    (hnames : ∀ y ∈ commits, y.resource.encoded = x.resource.encoded → y = x) :
    (∀ y ∈ t.commits, y.Created) ∧
      (t.Covers x.resource ∨ ∃ e ∈ h', Refuses x.resource e) := by
  obtain ⟨pre, post, rfl⟩ := List.append_of_mem hx
  obtain ⟨h₁, s₁, tally₁, hpre, hexec⟩ := Comp.exec_foldlM_append.mp hexec
  rw [List.foldlM_cons] at hexec
  obtain ⟨h₂, s₂, tally₂, hturn, hpost⟩ := Comp.exec_bind_ok.mp hexec
  obtain ⟨-, hxpost, hdisjoint⟩ := List.nodup_append.mp hnodup
  have hother : ∀ y, y ∈ pre ∨ y ∈ post → y.resource.encoded ≠ x.resource.encoded := by
    intro y hy he
    rcases hy with hy | hy
    · exact hdisjoint y hy x List.mem_cons_self (hnames y (List.mem_append_left _ hy) he)
    · obtain rfl := hnames y (List.mem_append_right _ (List.mem_cons_of_mem _ hy)) he
      exact (List.nodup_cons.mp hxpost).1 hy
  have hspares₁ : Spares x.resource s s₁ := spares_of_turns (fun y hy tally =>
    afterCommit_sparing hcol locals tally (hnew y (List.mem_append_left _ hy))
      (hother y (Or.inl hy))) hpre
  have hspares₂ : Spares x.resource s₂ t := spares_of_turns (fun y hy tally =>
    afterCommit_sparing hcol locals tally
      (hnew y (List.mem_append_right _ (List.mem_cons_of_mem _ hy))) (hother y (Or.inr hy))) hpost
  have hcreated₁ := (hspares₁ hcreated).1.created
  obtain ⟨hcommits, hcovers⟩ := (afterCommit_covers x).exec hturn
  have hcreated₂ : ∀ y ∈ s₂.commits, y.Created := by
    intro y hy
    rw [hcommits, KeyedMap.mem_insert] at hy
    rcases hy with rfl | hy
    · exact hnew y hx
    · exact hcreated₁ y hy.1
  refine ⟨(hspares₂ hcreated₂).1.created, ?_⟩
  rcases hcovers with hcovers | ⟨e, he, href⟩
  · exact Or.inl (hspares₂.covers hcreated₂ hcovers)
  · exact Or.inr ⟨e, hpost.suffix.subset he, href⟩

theorem publishBatch_covers (hcol : Collisionless) {batch : CommitBatch} {x : Commit}
    (hexec : Prog.Exec AnyAnswer h (publishBatch locals batch tally s) h' t (.ok tally'))
    (hcreated : ∀ y ∈ s.commits, y.Created) (hnew : ∀ y ∈ batch.commits, y.Created)
    (hx : x ∈ batch.commits) (hnodup : batch.commits.Nodup)
    (hnames : ∀ y ∈ batch.commits, y.resource.encoded = x.resource.encoded → y = x) :
    (∀ y ∈ t.commits, y.Created) ∧
      (t.Covers x.resource ∨ ∃ e ∈ h', Refuses x.resource e) := by
  unfold publishBatch at hexec
  split at hexec
  · next hempty =>
    rw [Bool.and_eq_true, List.isEmpty_iff] at hempty
    rw [hempty.1] at hx
    cases hx
  · obtain ⟨h₁, s₁, ⟨⟩, hcommit, hexec⟩ := Comp.exec_bind_ok.mp hexec
    obtain ⟨h₂, s₂, tally₂, hloop, hexec⟩ := Comp.exec_bind_ok.mp hexec
    obtain ⟨h₃, s₃, ⟨⟩, hsave, hexec⟩ := Comp.exec_bind_ok.mp hexec
    obtain ⟨r, -, rfl, rfl⟩ := request_exec.mp hcommit
    obtain ⟨r', -, rfl, rfl⟩ := request_exec.mp hsave
    obtain ⟨rfl, rfl, -⟩ := Prog.exec_done.mp hexec
    obtain ⟨hcreated', hcovers⟩ := afterCommits_cover hcol hloop hcreated hnew hx hnodup hnames
    refine ⟨hcreated', hcovers.imp_right ?_⟩
    rintro ⟨e, he, href⟩
    exact ⟨e, List.mem_cons_of_mem _ he, href⟩

/-- A turn for another resource, or for one that is in conflict. -/
theorem runOperation_spares (hne : operation.isConflict = false →
    operation.key.encoded ≠ key.encoded) : Sparing key (runOperation locals tally operation) := by
  cases hc : operation.isConflict with
  | false => exact runOperation_sparing locals tally (hne hc)
  | true =>
    rw [runOperation, applyOperation_idle (by simp [PlanOperation.runs, hc])]
    refine .bind (.attempt (.pure _)) fun outcome => .bind (.request (by exact trivial) _) fun _ => ?_
    split
    · exact .pure _
    · exact .pure _

end Operations

namespace Executed

variable [Crates] {run : Executed} {s₁ s₂ s₃ : RuntimeState} {tally₂ tally₃ : Tally}
variable {h₁ h₂ h₃ : List SyncEvent} {operation : PlanOperation}

/-- No two resources of the plan share the name that baselines are kept under, but for those in
conflict. -/
def Separate (run : Executed) : Prop :=
  ∀ operation ∈ run.plan, ∀ operation' ∈ run.plan, operation.isConflict = false →
    operation'.isConflict = false → operation.key.encoded = operation'.key.encoded →
    operation = operation'

/-- The operation is carried out, or there was nothing to integrate and nothing was added. -/
def Handles (run : Executed) (operation : PlanOperation) : Prop :=
  (¬ run.Failed operation ∧ ¬ run.Conflicted operation) ∨
    run.before.Covers operation.key ∧
      (operation.isUpload = true → ∀ e ∈ run.trace, ¬ Refuses operation.key e)

theorem Handles.not_refuses (h : run.Handles operation) (hupload : operation.isUpload = true) :
    ∀ e ∈ run.trace, ¬ Refuses operation.key e := by
  rcases h with ⟨hfine, -⟩ | ⟨-, hnone⟩
  · exact fun e he href => hfine (.refused hupload he href)
  · exact hnone hupload

/-- The loop over the plan covers what it carries out, and leaves the rest as the uploads did. -/
theorem Stages.loop_covers (hstages : run.Stages s₁ tally₂ tally₃ s₂ s₃ h₁ h₂ h₃)
    (hseparate : run.Separate) (hop : operation ∈ run.plan) (hconflict : operation.isConflict = false)
    (hcreated : ∀ x ∈ s₂.commits, x.Created)
    (hobserves : operation.runs = true → operation.Observes s₂)
    (hcovers : operation.runs = false ∨ run.Errs operation → s₂.Covers operation.key) :
    s₃.Covers operation.key := by
  obtain ⟨pre, post, hsplit⟩ := List.append_of_mem hop
  have hloop := hstages.loop
  rw [hsplit] at hloop
  obtain ⟨h₄, s₄, tally₄, hpre, hexec⟩ := Comp.exec_foldlM_append.mp hloop
  rw [List.foldlM_cons] at hexec
  obtain ⟨h₅, s₅, tally₅, hturn, hpost⟩ := Comp.exec_bind_ok.mp hexec
  have hnodup : run.plan.Nodup := List.Nodup.of_map _ run.distinct
  rw [hsplit] at hnodup
  obtain ⟨-, hnotin, hdisjoint⟩ := List.nodup_append.mp hnodup
  have hother : ∀ operation', operation' ∈ pre ∨ operation' ∈ post →
      operation'.isConflict = false → operation'.key.encoded ≠ operation.key.encoded := by
    intro operation' hmem hc he
    have hop' : operation' ∈ run.plan := by
      rw [hsplit, List.mem_append, List.mem_cons]
      exact hmem.imp_right Or.inr
    obtain rfl := hseparate operation' hop' operation hop hc hconflict he
    rcases hmem with hmem | hmem
    · exact hdisjoint _ hmem _ List.mem_cons_self rfl
    · exact (List.nodup_cons.mp hnotin).1 hmem
  have hspares₁ : Spares operation.key s₂ s₄ := spares_of_turns
    (fun operation' hmem _ => runOperation_spares (hother operation' (Or.inl hmem))) hpre
  have hspares₂ : Spares operation.key s₅ s₃ := spares_of_turns
    (fun operation' hmem _ => runOperation_spares (hother operation' (Or.inr hmem))) hpost
  obtain ⟨hkeeps, -, -⟩ := hspares₁ hcreated
  obtain ⟨h₆, outcome, happly, rfl, -⟩ := runOperation_exec.mp hturn
  have hsuffix : h₆ <:+ run.trace :=
    (List.suffix_cons _ _).trans (hpost.suffix.trans hstages.suffix)
  have herrs := hstages.errs_iff hsplit hpre happly hsuffix
  have hcommits : s₅.commits = s₄.commits :=
    ((applyOperation_silent run.locals tally₄ operation s₄).exec happly).1.commits
  refine hspares₂.covers (by rw [hcommits]; exact hkeeps.created) ?_
  cases hruns : operation.runs with
  | false =>
    rw [applyOperation_idle hruns] at happly
    obtain ⟨-, rfl, -⟩ := Prog.exec_done.mp happly
    exact hspares₁.covers hcreated (hcovers (Or.inl hruns))
  | true =>
    have hmeets := @applyOperation_covers _ _ h₄ run.locals _ tally₄
      ((hobserves hruns).congr hkeeps.heads) hruns
    rw [Comp.wp] at hmeets
    have hresult := hmeets.exec happly
    cases outcome with
    | ok tally => exact hresult
    | error error =>
      exact SameMarks.covers hresult
        (hspares₁.covers hcreated (hcovers (Or.inr (herrs.mpr ⟨error, rfl⟩))))

/-- What is handled is covered where the run acknowledges. -/
theorem Stages.covers (hstages : run.Stages s₁ tally₂ tally₃ s₂ s₃ h₁ h₂ h₃) (hcol : Collisionless)
    (hcreated : ∀ x ∈ run.before.commits, x.Created)
    (hplanned : ∀ operation ∈ run.plan, Planned run.before run.locals operation)
    (hseparate : run.Separate) (hop : operation ∈ run.plan)
    (hconflict : operation.isConflict = false) (hhandles : run.Handles operation) :
    s₃.Covers operation.key := by
  obtain ⟨contents, batch, hread, hnew, hready, tally, h, s, hbase, -, -, hpublish⟩ :=
    hstages.publishes
  have hsuffix : h₂ <:+ run.trace := hstages.loop.suffix.trans hstages.suffix
  have hcreated₀ : ∀ x ∈ s.commits, x.Created := by
    rw [hbase.commits]
    exact hcreated
  have hstart : run.before.Covers operation.key → s.Covers operation.key :=
    SameMarks.covers ⟨hbase.commits, hbase.baselines⟩
  -- the commits of the batch are those of the uploads that are ready
  have hupload : ∀ x ∈ batch.commits, ∃ op ∈ run.plan, op.key = x.resource ∧ op.isUpload = true ∧
      uploadVerdict run.rt run.before (contentMap contents) op = .ready := by
    intro x hx
    have hmem := List.mem_map_of_mem (f := Commit.resource) hx
    rw [hready, List.mem_map] at hmem
    obtain ⟨op, hop, hkey⟩ := hmem
    obtain ⟨hop, hv⟩ := List.mem_filter.mp hop
    obtain ⟨hop, hup⟩ := List.mem_filter.mp hop
    exact ⟨op, hop, hkey, hup, of_decide_eq_true hv⟩
  have hdistinct : (batch.commits.map Commit.resource).Nodup := by
    rw [hready]
    exact run.distinct.sublist ((List.filter_sublist.trans List.filter_sublist).map _)
  have hcalm : ∀ {op : PlanOperation}, op.isUpload = true → op.isConflict = false := by
    intro op hup
    cases op <;> first | rfl | cases hup
  by_cases hpublished : ∃ x ∈ batch.commits, x.resource = operation.key
  · obtain ⟨x, hx, hres⟩ := hpublished
    obtain ⟨op, hop', hkey, hup, -⟩ := hupload x hx
    obtain rfl := List.inj_on_of_nodup_map run.distinct hop' hop (hkey.trans hres)
    have hnames : ∀ y ∈ batch.commits, y.resource.encoded = x.resource.encoded → y = x := by
      intro y hy he
      obtain ⟨op', hop', hkey', hup', -⟩ := hupload y hy
      rw [← hkey', hres] at he
      obtain rfl := hseparate op' hop' op hop (hcalm hup') hconflict he
      exact List.inj_on_of_nodup_map hdistinct hy hx (hkey'.symm.trans hres.symm)
    obtain ⟨hcreated₂, hcovers⟩ :=
      publishBatch_covers hcol hpublish hcreated₀ hnew hx hdistinct.of_map hnames
    rw [hres] at hcovers
    refine hstages.loop_covers hseparate hop hconflict hcreated₂ (fun hruns => ?_) fun _ => ?_
    · simp [PlanOperation.runs, hup] at hruns
    · refine hcovers.resolve_right ?_
      rintro ⟨e, he, href⟩
      exact hhandles.not_refuses hup e (hsuffix.subset he) href
  · have hspares : Spares operation.key s s₂ := by
      refine ((publishBatch_sparing hcol run.locals (fun x hx => ⟨hnew x hx, fun he => ?_⟩) tally
        s).exec hpublish).1
      obtain ⟨op, hop', hkey, hup, -⟩ := hupload x hx
      rw [← hkey] at he
      obtain rfl := hseparate op hop' operation hop (hcalm hup) hconflict he
      exact hpublished ⟨x, hx, hkey.symm⟩
    obtain ⟨hkeeps, -, -⟩ := hspares hcreated₀
    refine hstages.loop_covers hseparate hop hconflict hkeeps.created (fun _ => ?_) fun hidle => ?_
    · refine (hplanned operation hop).observes.congr ?_
      rw [hkeeps.heads, RuntimeState.heads_of_commits hbase.commits]
    · refine hspares.covers hcreated₀ (hstart ?_)
      rcases hhandles with ⟨hfine, hcalmed⟩ | ⟨hcovers, -⟩
      · exfalso
        rcases hidle with hidle | herrs
        · -- an upload that is done is in the batch
          have hup : operation.isUpload = true := by
            simpa [PlanOperation.runs, hconflict] using hidle
          cases hv : uploadVerdict run.rt run.before (contentMap contents) operation with
          | unread => exact hfine (.unread hread hv)
          | conflicted => exact hcalmed (.policy hread hv)
          | ready =>
            have hmem : operation.key ∈ batch.commits.map Commit.resource := by
              rw [hready]
              refine List.mem_map_of_mem (List.mem_filter.mpr ⟨?_, by simp [hv]⟩)
              exact List.mem_filter.mpr ⟨hop, hup⟩
            obtain ⟨x, hx, hres⟩ := List.mem_map.mp hmem
            exact hpublished ⟨x, hx, hres⟩
        · exact hfine (.erred herrs)
      · exact hcovers

end Executed

section Calls

variable [Crates] {rt : SyncRuntime} {request : SyncRequest} {locals : List LocalResource}
variable {plan : List PlanOperation} {F : SyncEvent → Prop} {h h' h₀ : List SyncEvent}
variable {s s' : RuntimeState} {e : SyncEvent}

/-- A computation that acknowledges nothing. -/
def Unacking (x : Sync α) : Prop := Comp.Within Unacked Anyhow x

theorem Comp.Within.unacking {R : RuntimeState → RuntimeState → Prop} {x : Sync α}
    (hx : Comp.Within Unacked R x) : Unacking x := hx.mono (fun _ hq => hq) fun _ _ _ => trivial

theorem SparesTable.unacking {x : Sync α} (hx : SparesTable x) : Unacking x :=
  hx.mono (fun _ hq => hq) fun _ _ _ => trivial

theorem Prepares.unacking {x : Sync α} (hx : Prepares x) : Unacking x :=
  hx.mono (fun _ => IsRead.unacked) fun _ _ _ => trivial

theorem planRun_unacking (rt : SyncRuntime) (request : SyncRequest) :
    Unacking (planRun rt request) :=
  .bind (.modify fun _ => trivial) fun _ =>
    .bind (SparesTable.unacking (refreshRemote_aloof sameTable_aloof _)) fun _ =>
    .bind (SparesTable.unacking (snapshotLargeCatalogs_within (fun _ _ => rfl) rt)) fun _ =>
    .bind (localInventory_reads _).sparesTable.unacking fun _ =>
    .bind (.modify fun _ => trivial) fun _ => .bind .get fun _ => .bind (.ofExcept _) fun _ =>
    .pure _

theorem startRun_unacking (request : SyncRequest) (plan : List PlanOperation) :
    Unacking (startRun request plan) :=
  .bind (.modify fun _ => trivial) fun _ => .request (by exact trivial) _

theorem runUploads_unacking (rt : SyncRuntime) (locals : List LocalResource)
    (plan : List PlanOperation) (tally : Tally) : Unacking (runUploads rt locals plan tally) :=
  .bind (.request (by exact trivial) _) fun contents =>
    .bind (.foldlM (fun prepared operation =>
      (prepareUpload_prepares rt _ prepared operation).unacking) _ _) fun prepared =>
    .bind (.request (by exact trivial) _) fun _ =>
    .bind (.foldlM (fun created operation =>
      (createCommit_sparesTable rt _ prepared created operation).unacking) _ _) fun _ =>
    (publishBatch_sparesTable locals _ _).unacking

/-- What a run acknowledges, given the memory it ends with. -/
def acknowledgements (rt : SyncRuntime) (plan : List PlanOperation) (s : RuntimeState) :
    List ResourceAck :=
  (plan.filter fun operation => !operation.isConflict).map fun operation =>
    ⟨rt.clientId, operation.key, s.heads operation.key, []⟩

theorem acknowledgePlan_exec {outcome : Except SyncError Unit}
    (hexec : Prog.Exec (Prog.fairly F) h (acknowledgePlan rt plan s) h' s' outcome) :
    s' = s ∧ ∃ r, h' = ⟨s, .writeAcknowledgements (acknowledgements rt plan s), r⟩ :: h := by
  rcases Comp.exec_bind.mp hexec with ⟨h₁, s₁, state, hget, hcall⟩ | ⟨error, -, hget⟩
  · obtain ⟨rfl, rfl, e⟩ := Prog.exec_done.mp hget
    obtain rfl := Except.ok.inj e
    cases hcall with
    | call ht hk =>
      obtain ⟨rfl, rfl, -⟩ := Prog.exec_done.mp hk
      exact ⟨rfl, _, ht.1⟩
  · obtain ⟨-, -, e⟩ := Prog.exec_done.mp hget
    cases e

/-- An acknowledgement comes after the loop over the plan, and says what the heads are there. -/
theorem execute_reaches {report : Except SyncError SyncReport}
    (hexec : Prog.Exec (Prog.fairly F) h (execute rt request locals plan s) h' s' report)
    (he : e :: h₀ <:+ h') (hh : h <:+ h₀) (hack : ¬ Unacked e.req) :
    ∃ s₁ s₂ tally₂ tally₃ h₁ h₂,
      Prog.Exec (Prog.fairly F) h (startRun request plan s) h₁ s₁ (.ok ()) ∧
      Prog.Exec (Prog.fairly F) h₁ (runUploads rt locals plan
        { report := { conflicts := (plan.filter PlanOperation.isConflict).length } } s₁) h₂ s₂
        (.ok tally₂) ∧
      Prog.Exec (Prog.fairly F) h₂ (plan.foldlM (runOperation locals) tally₂ s₂) h₀ e.memory
        (.ok tally₃) ∧
      e.req = .writeAcknowledgements (acknowledgements rt plan e.memory) := by
  rw [execute] at hexec
  obtain ⟨h₁, s₁, ⟨⟩, hh₁, hstart, hexec⟩ :=
    (startRun_unacking request plan).exec_reaches hexec he hh hack
  obtain ⟨h₂, s₂, tally₂, hh₂, huploads, hexec⟩ :=
    (runUploads_unacking rt locals plan _).exec_reaches hexec he hh₁ hack
  have hloop : Unacking (plan.foldlM (runOperation locals) tally₂) := .foldlM
    (fun tally operation => (runOperation_sparesTable locals tally operation).unacking) _ _
  obtain ⟨h₃, s₃, tally₃, hh₃, hloop, hexec⟩ := hloop.exec_reaches hexec he hh₂ hack
  have hlast : ∀ {h h' s s' report} {tally : Tally}, Prog.Exec (Prog.fairly F) h ((do
      Comp.modify fun state => { state with activeRun := none }
      Sync.saveRuntimeState
      return { tally.report with scopes := reportScopes request plan tally.failures } :
        Sync SyncReport) s) h' s' report → e :: h₀ <:+ h' → ¬ h <:+ h₀ := by
    intro h h' s s' report tally hexec he hh
    have hfirst : Unacking (Comp.modify fun state => { state with activeRun := none }) :=
      .modify fun _ => trivial
    obtain ⟨h₁, s₁, ⟨⟩, hh₁, -, hexec⟩ := hfirst.exec_reaches hexec he hh hack
    have hsave : Unacking Sync.saveRuntimeState := .request (by exact trivial) _
    obtain ⟨h₂, s₂, ⟨⟩, hh₂, -, hexec⟩ := hsave.exec_reaches hexec he hh₁ hack
    obtain ⟨rfl, -, -⟩ := Prog.exec_done.mp hexec
    have := (he.trans hh₂).length_le
    simp at this
  have hhere : ∀ {r}, e :: h₀ <:+ ⟨s₃, .writeAcknowledgements (acknowledgements rt plan s₃), r⟩ :: h₃ →
      e.memory = s₃ ∧ e.req = .writeAcknowledgements (acknowledgements rt plan e.memory) ∧ h₀ = h₃ := by
    intro r he
    rcases List.suffix_cons_iff.mp he with heq | he
    · obtain ⟨rfl, rfl⟩ := List.cons.inj heq
      exact ⟨rfl, rfl, rfl⟩
    · have := (he.trans hh₃).length_le
      simp at this
  have hdone : e.memory = s₃ ∧
      e.req = .writeAcknowledgements (acknowledgements rt plan e.memory) ∧ h₀ = h₃ := by
    rcases Comp.exec_bind.mp hexec with ⟨h₄, s₄, ⟨⟩, hwrite, hrest⟩ | ⟨error, -, hwrite⟩
    · obtain ⟨rfl, r, rfl⟩ := acknowledgePlan_exec hwrite
      rcases List.suffix_or_suffix_of_suffix he hrest.suffix with hsuffix | hsuffix
      · exact hhere hsuffix
      · rcases List.suffix_cons_iff.mp hsuffix with heq | hsuffix
        · exact hhere (r := r) (heq ▸ List.suffix_rfl)
        · exact absurd hsuffix (hlast hrest he)
    · obtain ⟨rfl, r, rfl⟩ := acknowledgePlan_exec hwrite
      exact hhere he
  obtain ⟨rfl, hreq, rfl⟩ := hdone
  exact ⟨s₁, s₂, tally₂, tally₃, h₁, h₂, hstart, huploads, hloop, hreq⟩

theorem staleConflict_unacking (conflictId : String) :
    Unacking (staleConflict conflictId : Sync α) :=
  .bind (.modify fun _ => trivial) fun _ => .bind (.request (by exact trivial) _) fun _ => .throw _

/-- What is acknowledged is acknowledged by a `reconcile` that comes last. -/
structure LeavesToReconcile (rt : SyncRuntime) (x : Sync α) : Prop where
  reaches : ∀ {F h s h' s' e h₀} {outcome : Except SyncError α},
    Prog.Exec (Prog.fairly F) h (x s) h' s' outcome → e :: h₀ <:+ h' → h <:+ h₀ →
      ¬ Unacked e.req → ∃ h₁ s₁ request report, h₁ <:+ h₀ ∧
        Prog.Exec (Prog.fairly F) h₁ (reconcile rt request s₁) h' s' report

namespace LeavesToReconcile

theorem never {x : Sync α} (hx : Unacking x) : LeavesToReconcile rt x :=
  ⟨fun hexec he hh hack => absurd (hx.exec_added hexec he hh) hack⟩

theorem reconciles (rt : SyncRuntime) (request : SyncRequest) :
    LeavesToReconcile rt (reconcile rt request) :=
  ⟨fun hexec _ hh _ => ⟨_, _, request, _, hh, hexec⟩⟩

theorem bind {x : Sync α} {f : α → Sync β} (hx : Unacking x)
    (hf : ∀ a, LeavesToReconcile rt (f a)) : LeavesToReconcile rt (x >>= f) := by
  constructor
  intro F h s h' s' e h₀ outcome hexec he hh hack
  obtain ⟨h₁, s₁, a, hh₁, -, hexec⟩ := hx.exec_reaches hexec he hh hack
  exact (hf a).reaches hexec he hh₁ hack

/-- The report is dropped. -/
theorem unit {x : Sync α} (hx : LeavesToReconcile rt x) : LeavesToReconcile rt (do
    let _ ← x
    return () : Sync Unit) := by
  constructor
  intro F h s h' s' e h₀ outcome hexec he hh hack
  rcases Comp.exec_bind.mp hexec with ⟨h₁, s₁, report, hexec, hdone⟩ | ⟨error, -, hexec⟩
  · obtain ⟨rfl, rfl, -⟩ := Prog.exec_done.mp hdone
    exact hx.reaches hexec he hh hack
  · exact hx.reaches hexec he hh hack

end LeavesToReconcile

theorem resolve_leaves (rt : SyncRuntime) (request : ResolveConflictRequest) :
    LeavesToReconcile rt (resolve rt request) := by
  refine .bind .get fun state => ?_
  split
  · exact .never (.throw _)
  dsimp only
  split
  · exact .never (staleConflict_unacking _)
  refine .bind (currentState_reads _).sparesTable.unacking fun current => ?_
  split
  · exact .never (staleConflict_unacking _)
  · exact .bind (.foldlM (fun _ preserved => (preserveCopy_sparesTable _ preserved).unacking) _ _)
      fun _ => .bind (choosePrimary_sparesTable _ _ _ _ _).unacking fun _ =>
      .bind (.modify fun _ => trivial) fun _ => .bind (.request (by exact trivial) _) fun _ =>
      .reconciles rt _

theorem rollback_leaves (rt : SyncRuntime) (request : RollbackRequest) :
    LeavesToReconcile rt (rollback rt request) := by
  unfold rollback
  dsimp only
  refine .bind .get fun state => ?_
  split
  · exact .never (.throw _)
  · exact .bind (currentState_reads _).sparesTable.unacking fun _ =>
      .bind (commitVersion_sparesTable _ _ _ _ _ _ _).unacking fun _ =>
      .bind (.request (by exact trivial) _) fun _ => .reconciles rt _

/-- But for `maintain`, commands acknowledge only in the `reconcile` that they end with. -/
theorem Command.run_leaves (rt : SyncRuntime) {command : Command}
    (hmaintain : ∀ request, command ≠ .maintain request) :
    LeavesToReconcile rt (command.run rt) := by
  cases command with
  | reconcile request => exact (LeavesToReconcile.reconciles rt request).unit
  | resolve request => exact (resolve_leaves rt request).unit
  | rollback request => exact (rollback_leaves rt request).unit
  | maintain request => exact absurd rfl (hmaintain request)
  | retireClient clientId =>
    exact .never (.bind (.modify fun _ => trivial) fun _ => .request (by exact trivial) _)

end Calls

section Worlds

variable [Crates] {S : Setting} {ok : World → Label → Prop} {w : World} {c : String}
variable {h₀ : List SyncEvent} {s : RuntimeState} {run : Executed}

/-- The run has come to acknowledge in memory `s`, after the calls `h₀`, and goes on with answers
that do not fail. -/
structure Executed.Acknowledged (run : Executed) (rt : SyncRuntime) (h₀ : List SyncEvent)
    (s : RuntimeState) : Prop where
  runtime : run.rt = rt
  planned : MadePlan run.request.scopes rt run.before run.locals run.plan
  trace : ∃ h₁ s₁ h₂ added, Prog.Exec AnyAnswer h₁ (planRun rt run.request s₁) h₂ run.before
      (.ok (run.locals, run.plan)) ∧ h₀ = added ++ h₂ ∧
    run.trace = ⟨run.after, .saveRuntimeState, .ok ()⟩ ::
      ⟨s, .writeAcknowledgements (acknowledgements rt run.plan s), .ok ()⟩ :: added
  after : run.after = { s with activeRun := none }

/-- A run that acknowledges anything has saved before. -/
theorem saved_of_turns {locals : List LocalResource} {plan : List PlanOperation}
    {tally tally' : Tally} {h h' : List SyncEvent} {s s' : RuntimeState}
    (hexec : Prog.Exec AnyAnswer h (plan.foldlM (runOperation locals) tally s) h' s' (.ok tally'))
    (hsome : plan ≠ []) : h'.head? = some ⟨s', .saveRuntimeState, .ok ()⟩ := by
  refine Comp.exec_foldlM (fun before h s _ => before ≠ [] →
    h.head? = some ⟨s, .saveRuntimeState, .ok ()⟩) hexec (fun hnil => absurd rfl hnil) ?_ hsome
  intro before operation after _ h₁ s₁ tally₁ h₂ s₂ tally₂ _ hturn _ _ _
  obtain ⟨h₃, outcome, -, rfl, -⟩ := runOperation_exec.mp hturn
  rfl

theorem Executed.Acknowledged.covers {rt : SyncRuntime} (h : run.Acknowledged rt h₀ s)
    (hcol : Collisionless) (hcreated : ∀ x ∈ run.before.commits, x.Created)
    (hseparate : run.Separate) {operation : PlanOperation} (hop : operation ∈ run.plan)
    (hconflict : operation.isConflict = false) (hhandles : run.Handles operation) :
    s.Covers operation.key := by
  obtain ⟨s₁, tally₂, tally₃, s₂, s₃, h₁, h₂, h₃, hstages⟩ := run.stages
  have hplanned : ∀ operation ∈ run.plan, Planned run.before run.locals operation :=
    fun operation hop => mem_buildPlan h.planned.built h.planned.inside hop
  have hsame : SameMarks s₃ s := by
    have hafter := hstages.after.symm.trans h.after
    exact ⟨(congrArg RuntimeState.commits hafter).symm, (congrArg RuntimeState.baselines hafter).symm⟩
  exact hsame.covers (hstages.covers hcol hcreated hplanned hseparate hop hconflict hhandles)

/-- Any call can be answered. -/
theorem Fair.exists {published : List Commit} {versions : List (ResourceKey × File)}
    (s : RuntimeState) (q : Req) : ∃ r, Fair S published versions ⟨s, q, r⟩ := by
  cases hq : q.failure (.ioError "") with
  | some r => exact ⟨r, .failed hq⟩
  | none =>
    cases q with
    | nowMillis => exact ⟨0, trivial⟩
    | randomClientId => exact ⟨0, trivial⟩
    | _ => cases hq

/-- The memory that a run begins with is saved with the conflicts of its plan. -/
theorem startRun_saves {request : SyncRequest} {plan : List PlanOperation} {h h' : List SyncEvent}
    {s s' : RuntimeState}
    (hexec : Prog.Exec AnyAnswer h (startRun request plan s) h' s' (.ok ())) :
    ∃ e ∈ h', e.memory.commits = s.commits := by
  rw [startRun] at hexec
  obtain ⟨h₁, s₁, ⟨⟩, hrecord, hsave⟩ := Comp.exec_bind_ok.mp hexec
  obtain ⟨rfl, rfl, -⟩ := Prog.exec_done.mp hrecord
  obtain ⟨r, -, rfl, -⟩ := request_exec.mp hsave
  exact ⟨_, List.mem_cons_self, rfl⟩

/-- What a `reconcile` acknowledges comes from a run of `execute`. -/
theorem exists_acknowledged {command : Command} {published : List Commit}
    {versions : List (ResourceKey × File)} {rt : SyncRuntime} {acks : List ResourceAck}
    {r : (Req.writeAcknowledgements acks).Resp} {h' : List SyncEvent} {s₀ s' : RuntimeState}
    {outcome : Except SyncError Unit} (hmaintain : ∀ request, command ≠ .maintain request)
    (hexec : Prog.Exec (Prog.fairly (Fair S published versions)) [] (command.run rt s₀) h' s' outcome)
    (he : ⟨s, .writeAcknowledgements acks, r⟩ :: h₀ <:+ h') :
    ∃ run : Executed, run.Acknowledged rt h₀ s ∧ acks = acknowledgements rt run.plan s ∧
      (run.plan ≠ [] → h₀.head? = some ⟨s, .saveRuntimeState, .ok ()⟩) ∧
      ∃ e ∈ h₀, e.memory.commits = run.before.commits := by
  have hack : ¬ Unacked (.writeAcknowledgements acks) := id
  have hany : ∀ (h : List SyncEvent) e h', Prog.fairly (Fair S published versions) h e h' →
      AnyAnswer h e h' := fun _ _ _ ht => ⟨ht.1, trivial⟩
  obtain ⟨h₁, s₁, request, report, hh₁, hreconcile⟩ :=
    (Command.run_leaves rt hmaintain).reaches hexec he List.nil_suffix hack
  rw [reconcile_eq] at hreconcile
  obtain ⟨h₂, s₂, ⟨locals, plan⟩, hh₂, hplan, hexecute⟩ :=
    (planRun_unacking rt request).exec_reaches hreconcile he hh₁ hack
  obtain ⟨s₃, s₄, tally₂, tally₃, h₃, h₄, hstart, huploads, hloop, hreq⟩ :=
    execute_reaches hexecute he hh₂ hack
  obtain rfl : acks = acknowledgements rt plan s := Req.writeAcknowledgements.inj hreq
  replace hstart := hstart.mono hany
  replace huploads := huploads.mono hany
  replace hloop := hloop.mono hany
  obtain ⟨added, rfl⟩ := hh₂
  let after : RuntimeState := { s with activeRun := none }
  have hran : Prog.Exec AnyAnswer h₂ (execute rt request locals plan s₂)
      (⟨after, .saveRuntimeState, .ok ()⟩ :: ⟨s, .writeAcknowledgements (acknowledgements rt plan s),
        .ok ()⟩ :: added ++ h₂) after
      (.ok { tally₃.report with scopes := reportScopes request plan tally₃.failures }) := by
    rw [execute]
    refine Comp.exec_bind_ok.mpr ⟨h₃, s₃, (), hstart, ?_⟩
    refine Comp.exec_bind_ok.mpr ⟨h₄, s₄, tally₂, huploads, ?_⟩
    refine Comp.exec_bind_ok.mpr ⟨_, _, tally₃, hloop, ?_⟩
    refine Comp.exec_bind_ok.mpr ⟨⟨s, .writeAcknowledgements (acknowledgements rt plan s),
      .ok ()⟩ :: (added ++ h₂), s, (), ?_, ?_⟩
    · refine Comp.exec_bind_ok.mpr ⟨_, _, s, .done, ?_⟩
      exact .call ⟨rfl, trivial⟩ .done
    · refine Comp.exec_bind_ok.mpr ⟨_, _, (), .done, ?_⟩
      exact Comp.exec_bind_ok.mpr ⟨_, after, (), .call ⟨rfl, trivial⟩ .done, .done⟩
  obtain ⟨added', htrace, hshift⟩ := hran.shift
  obtain rfl := List.append_cancel_right htrace
  have hran' := hshift []
  rw [List.append_nil] at hran'
  refine ⟨⟨rt, request, locals, plan, s₂, _, after, _, buildPlan_nodup (planRun_made hplan).built,
    hran'⟩, ⟨rfl, planRun_made hplan, ⟨h₁, s₁, h₂, added, hplan.mono hany, rfl, rfl⟩, rfl⟩, rfl,
    saved_of_turns hloop, ?_⟩
  obtain ⟨e, he, hcommits⟩ := startRun_saves hstart
  exact ⟨e, (huploads.suffix.trans hloop.suffix).subset he, hcommits⟩

/-- What a `reconcile` acknowledges is integrated, if each of its operations other than a conflict
is carried out or has nothing new for its resource, and no two of them share the name of a
baseline. -/
theorem World.acknowledged_integrated (hcol : Collisionless) (hw : w.Reachable S ok)
    {command : Command} (hcommand : (w.clients c).command = some command)
    (hmaintain : ∀ request, command ≠ .maintain request) {acks : List ResourceAck}
    {r : (Req.writeAcknowledgements acks).Resp}
    (he : ⟨s, .writeAcknowledgements acks, r⟩ :: h₀ <:+ (w.clients c).trace) :
    ∃ run : Executed, run.Acknowledged ⟨c, S.policy c⟩ h₀ s ∧ (run.Separate →
      (∀ operation ∈ run.plan, operation.isConflict = false → run.Handles operation) →
      ∀ ack ∈ acks, ack.observedHeads ≠ [] →
        ∃ saved, h₀.head? = some ⟨saved, .saveRuntimeState, .ok ()⟩ ∧
          saved.integrated ack.resource = some ack.observedHeads) := by
  have hresumes := (hw.relies c).resumes
  rw [Client.Resumes, hcommand] at hresumes
  have hanswers : ∀ s q, ∃ r, Fair S w.published (w.clients c).versions ⟨s, q, r⟩ := Fair.exists
  obtain ⟨h', s', outcome, hcomplete⟩ :=
    Prog.exists_exec hanswers (w.clients c).prog (w.clients c).trace
  have hexec := hresumes.exec (hw.relies c).fair hcomplete
  obtain ⟨run, hrun, rfl, hsaved, e, hmem, hcommits⟩ :=
    exists_acknowledged hmaintain hexec (he.trans hcomplete.suffix)
  refine ⟨run, hrun, fun hseparate hhandles ack hack hsome => ?_⟩
  obtain ⟨operation, hop, rfl⟩ := List.mem_map.mp hack
  obtain ⟨hop, hconflict⟩ := List.mem_filter.mp hop
  have hcreated : ∀ x ∈ run.before.commits, x.Created := by
    intro x hx
    rw [← hcommits] at hx
    have hpast : e ∈ (w.clients c).trace := he.subset (List.mem_cons_of_mem _ hmem)
    exact hw.created x ((hw.inv.clients c).events e hpast x hx)
  have hcalm : operation.isConflict = false := by simpa using hconflict
  refine ⟨s, hsaved (List.ne_nil_of_mem hop), ?_⟩
  exact hrun.covers hcol hcreated hseparate hop hcalm (hhandles operation hop hcalm) hsome

end Worlds

section Scripts

open Sample

attribute [local instance] spelled

/-- The last acknowledgement of a history: where it was written, and after what. -/
def acknowledging : List SyncEvent → Option (RuntimeState × List ResourceAck × List SyncEvent)
  | [] => none
  | ⟨s, .writeAcknowledgements acks, _⟩ :: h => some (s, acks, h)
  | _ :: h => acknowledging h

theorem suffix_of_acknowledging {h h₀ : List SyncEvent} {s : RuntimeState} {acks : List ResourceAck}
    (hack : acknowledging h = some (s, acks, h₀)) :
    ∃ r, ⟨s, .writeAcknowledgements acks, r⟩ :: h₀ <:+ h := by
  induction h with
  | nil => cases hack
  | cons e h ih =>
    unfold acknowledging at hack
    split at hack
    · next hnil => cases hnil
    · next heq =>
      obtain ⟨rfl, rfl⟩ := List.cons.inj heq
      cases hack
      exact ⟨_, List.suffix_rfl⟩
    · next heq =>
      obtain ⟨rfl, rfl⟩ := List.cons.inj heq
      obtain ⟨r, hsuffix⟩ := ih hack
      exact ⟨r, hsuffix.trans (List.suffix_cons _ _)⟩

/-- Some head is acknowledged. -/
def acknowledgesHeads (w : World) (c : String) : Bool :=
  match acknowledging (w.clients c).trace with
  | some (_, acks, _) => acks.any fun ack => !ack.observedHeads.isEmpty
  | none => false

/-- A first upload is acknowledged once its commit is integrated. -/
theorem World.acknowledged_integrated_upload : ∃ (w : World) (s : RuntimeState)
    (acks : List ResourceAck) (h₀ : List SyncEvent) (run : Executed),
    World.Reachable {} (fun _ _ => True) w ∧ (∃ ack ∈ acks, ack.observedHeads ≠ []) ∧
    run.Acknowledged ⟨"A", none⟩ h₀ s ∧ (run.Separate →
      (∀ operation ∈ run.plan, operation.isConflict = false → run.Handles operation) →
      ∀ ack ∈ acks, ack.observedHeads ≠ [] →
        ∃ saved, h₀.head? = some ⟨saved, .saveRuntimeState, .ok ()⟩ ∧
          saved.integrated ack.resource = some ack.observedHeads) := by
  obtain ⟨w, hw, hp⟩ := exists_reachable {} (fun _ _ => True) (upload "A" "f" "a" "t1")
    (fun w => (reconciling w "A").map SyncRequest.scopes = some ["s"] ∧ acknowledgesHeads w "A" = true)
    (by decide +kernel)
  obtain ⟨hrequest, hheads⟩ := of_decide_eq_true hp
  obtain ⟨request, hreconciling, -⟩ := Option.map_eq_some_iff.mp hrequest
  unfold acknowledgesHeads at hheads
  split at hheads
  · next s acks h₀ hack =>
    obtain ⟨ack, hmem, hsome⟩ := List.any_eq_true.mp hheads
    obtain ⟨r, hsuffix⟩ := suffix_of_acknowledging hack
    obtain ⟨run, hrun, hintegrated⟩ := World.acknowledged_integrated spelled_collisionless hw
      (command_of_reconciling hreconciling) (fun request hc => by cases hc) hsuffix
    exact ⟨w, s, acks, h₀, run, hw, ⟨ack, hmem, by simpa using hsome⟩, hrun, hintegrated⟩
  · cases hheads

/-- `A` would download the version of `B`, but the local replica refuses it. -/
def keepOut : List Line := upload "B" "f" "b" "t1" ++
  [.step (.start "A" (.reconcile ⟨["s"]⟩)), .answers "A" 9, .step (.answer "A" (.refuse none)),
    .answers "A" 40]

/-- Heads are acknowledged that the saved baseline does not stand for. -/
def acknowledgesMore (w : World) (c : String) : Bool :=
  match acknowledging (w.clients c).trace with
  | some (_, acks, ⟨saved, .saveRuntimeState, .ok _⟩ :: _) => acks.any fun ack =>
    !ack.observedHeads.isEmpty && saved.integrated ack.resource != some ack.observedHeads
  | _ => false

/-- A version that was not let in is acknowledged. -/
theorem World.acknowledges_refused : ∃ (w : World) (s saved : RuntimeState)
    (acks : List ResourceAck) (r : (Req.writeAcknowledgements acks).Resp) (h₀ : List SyncEvent),
    World.Reachable {} (fun _ _ => True) w ∧
    (w.clients "A").command = some (.reconcile ⟨["s"]⟩) ∧
    ⟨s, .writeAcknowledgements acks, r⟩ :: h₀ <:+ (w.clients "A").trace ∧
    h₀.head? = some ⟨saved, .saveRuntimeState, .ok ()⟩ ∧
    ∃ ack ∈ acks, ack.observedHeads ≠ [] ∧
      saved.integrated ack.resource ≠ some ack.observedHeads := by
  obtain ⟨w, hw, hp⟩ := exists_reachable {} (fun _ _ => True) keepOut
    (fun w => (reconciling w "A").map SyncRequest.scopes = some ["s"] ∧ acknowledgesMore w "A" = true)
    (by decide +kernel)
  obtain ⟨hrequest, hmore⟩ := of_decide_eq_true hp
  obtain ⟨⟨scopes⟩, hreconciling, rfl⟩ := Option.map_eq_some_iff.mp hrequest
  unfold acknowledgesMore at hmore
  split at hmore
  · next s acks saved u h hack =>
    obtain ⟨ack, hmem, hbad⟩ := List.any_eq_true.mp hmore
    obtain ⟨r, hsuffix⟩ := suffix_of_acknowledging hack
    rw [Bool.and_eq_true] at hbad
    exact ⟨w, s, saved, acks, r, _, hw, command_of_reconciling hreconciling, hsuffix, rfl, ack, hmem,
      by simpa using hbad.1, by simpa using hbad.2⟩
  · cases hmore

end Scripts

end Rollforward
