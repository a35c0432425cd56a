import Rollforward.Catalog.Delivery
import Rollforward.Catalog.Truncation

/-! Readers after another client's truncation: whoever is not left behind sees the
heads of the compactor, with whatever was published since. -/

namespace Rollforward

open Std Lib

section Conditions

variable [Crates]

/-- Compactions trim, and the reader `R` scans only while it is not left behind. -/
def World.Trimmed (R : String) (w : World) : Label → Prop
  | .answer c .serve =>
    match (w.clients c).prog with
    | .call s (.compactCatalog compaction) _ => Trims w.published w.obsoleted s
        compaction.snapshot.scopeId compaction.obsoleteCommitIds
    | .call s (.scanCatalog request) _ => c = R → CatchesUp w.published w.obsoleted s request.scopes
    | _ => True
  | _ => True

def World.Careful (R : String) (w : World) (l : Label) : Prop := w.Harmless l ∧ w.Trimmed R l

/-- The last answered call of `R` completed a refresh of the scope. -/
def World.Refreshed (w : World) (R scope : String) : Prop :=
  currentOf (w.clients R).trace = true ∧ inScopes (w.clients R).asked.1 scope = true

instance (published : List Commit) (obsoleted O : List String) :
    Decidable (LeavesChild published obsoleted O) :=
  inferInstanceAs (Decidable (∀ x ∈ published, _))

instance (published : List Commit) (obsoleted : List String) (s : RuntimeState) (scope : String)
    (O : List String) : Decidable (Trims published obsoleted s scope O) :=
  decidable_of_iff
    ((∀ x ∈ published, x.id ∈ O → ∃ y ∈ published, x.Over y) ∧
      LeavesChild published obsoleted O ∧
      (∀ x ∈ published, x.id ∈ O → x.change.isText = false) ∧
      (O ≠ [] → ∀ x ∈ s.commits.values, x.resource.scopeId = scope → x.id ∉ obsoleted))
    ⟨fun h => ⟨h.1, h.2.1, h.2.2.1, h.2.2.2⟩, fun h => ⟨h.heads, h.child, h.text, h.clean⟩⟩

instance (published : List Commit) (obsoleted : List String) (s : RuntimeState)
    (scopes : List String) : Decidable (CatchesUp published obsoleted s scopes) :=
  inferInstanceAs (Decidable (∀ x ∈ s.commits.values, _))

instance (R : String) (w : World) : DecidablePred (w.Trimmed R) := fun l =>
  decidable_of_iff ((match l with
    | .answer c .serve =>
      match (w.clients c).prog with
      | .call s (.compactCatalog compaction) _ => decide (Trims w.published w.obsoleted s
          compaction.snapshot.scopeId compaction.obsoleteCommitIds)
      | .call s (.scanCatalog request) _ =>
        decide (c = R → CatchesUp w.published w.obsoleted s request.scopes)
      | _ => true
    | _ => true) = true) <| by
    unfold World.Trimmed
    split
    · split <;> simp [imp_iff_not_or]
    · simp

instance (R : String) (w : World) : DecidablePred (w.Careful R) := fun l =>
  inferInstanceAs (Decidable (w.Harmless l ∧ w.Trimmed R l))

end Conditions

section Runs

variable [Crates] {S : Setting} {R : String} {w : World}

theorem World.Trimmed.net {l : Label} (h : w.Trimmed R l) : w.net.Trimmed R (w.act l) := by
  have hmem : ∀ {c s q k}, (w.clients c).prog = .call s q k → (w.net.member c).memory = s := by
    intro c s q k hp
    rw [show (w.net.member c).memory = (w.clients c).prog.memory from rfl, hp]
    rfl
  unfold World.act
  split
  · exact trivial
  · next c =>
    split
    · next s request k hp =>
      rw [World.Trimmed, hp] at h
      rw [Net.Trimmed, hmem hp]
      exact h
    · next s compaction k hp =>
      rw [World.Trimmed, hp] at h
      rw [Net.Trimmed, hmem hp]
      exact h
    · exact trivial
  · exact trivial

theorem Act.Free.trimmed {n : Net} {a : Act} (h : a.Free) : n.Trimmed R a := by
  cases a <;> first | exact trivial | exact h.elim

theorem Net.Run.cutting {n n' : Net} {P : Net → Act → Prop} (hv : n.Valid) (hn : n.Cutting R)
    (hP : ∀ n a, P n a → n.Survives a ∧ n.Compacts a ∧ n.Trimmed R a) (h : Net.Run P n n') :
    n'.Valid ∧ n'.Cutting R := by
  induction h with
  | refl => exact ⟨hv, hn⟩
  | tail _ hstep ih =>
    obtain ⟨a, ha, hm⟩ := hstep
    obtain ⟨hs, hc, ht⟩ := hP _ _ ha
    have hv' := ih.1.move hs hc hm
    exact ⟨hv', ih.2.move ih.1 hv' hc ht hm⟩

theorem World.Reachable.cutting (hex : ∀ data, ':' ∉ (blake3 data).toList)
    (h : w.Reachable S (World.Careful R)) : w.net.Valid ∧ w.net.Cutting R :=
  Net.Run.cutting .init .init (fun _ _ hP => hP)
    (h.run (P := fun n a => n.Survives a ∧ n.Compacts a ∧ n.Trimmed R a) hex
      (fun _ _ hfree => ⟨hfree.survives, hfree.compacts, hfree.trimmed⟩)
      fun _ _ hok => ⟨hok.1.1.net, hok.1.2.net, hok.2.net⟩)

/-- The world right after a compaction. -/
theorem World.Inv.compacted (h : w.Inv) {w' : World} {A : String} {s : RuntimeState}
    {compaction : CatalogCompaction}
    {k : Except SyncError Unit → Prog host RuntimeState (Except SyncError Unit)}
    (hcall : (w.clients A).prog = .call s (.compactCatalog compaction) k)
    (hstep : w.step S (.answer A .serve) = some w') :
    w'.published = w.published ∧ w'.obsoleted = w.obsoleted ++ compaction.obsoleteCommitIds ∧
      (w'.memory A).commits = s.commits.eraseAll compaction.obsoleteCommitIds ∧
      (w'.clients A).seen = (w.clients A).seen := by
  obtain ⟨s', q, k', r, w₁, hp, hr, rfl⟩ := World.answer_cases hstep
  rw [hcall] at hp
  cases hp
  have hg := (h.answer hcall (World.respond_effect hr)).grown
  cases hr
  obtain ⟨xs, hxs, hcommits⟩ := hg.commits
  obtain rfl : xs = [] := List.eq_nil_iff_forall_not_mem.mpr fun x hx =>
    absurd (hxs x hx) List.not_mem_nil
  refine ⟨rfl, rfl, ?_, by simp [World.resume]⟩
  rw [World.memory, World.resume, World.setClient_self]
  exact hcommits

/-- What the compactor kept, with what was published since its own refresh, is a cut of
what a later reader was shown. -/
theorem joint_cut {n : Net} (hn : n.Cutting R) (scope : String) {seenA seenR : List Commit}
    (kept : List Commit) (ids : ∀ x ∈ seenR, ∀ y ∈ seenR, y.id = x.id → y = x)
    (hA : Past n.published seenA) (hlater : ∀ x ∈ n.published, x ∈ seenR)
    (hkept : ∀ x ∈ kept, x ∈ n.published)
    (hclean : ∀ x ∈ kept, x.resource.scopeId = scope → x.id ∉ n.obsoleted)
    (hknown : ∀ x ∈ seenA, x.resource.scopeId = scope → x.id ∉ n.obsoleted → x ∈ kept) :
    Cut Commit.Over
      (inScope [scope] { x | x ∈ kept ∨ x ∈ seenR ∧ x.id ∉ seenA.map Commit.id })
      (inScope [scope] { x | x ∈ seenR }) := by
  have hscope : ∀ x : Commit, inScopes [scope] x.resource.scopeId = true ↔
      x.resource.scopeId = scope := by simp [inScopes]
  have hinA : ∀ x ∈ seenR, x.id ∈ seenA.map Commit.id → x ∈ seenA := by
    intro x hx hid
    obtain ⟨y, hy, e⟩ := List.mem_map.mp hid
    exact ids x hx y (hlater y (hA.sub y hy)) e ▸ hy
  -- a live commit is kept, or was published since
  have hlive : ∀ x, Live n.published n.obsoleted x → x.resource.scopeId = scope →
      x ∈ kept ∨ x ∈ seenR ∧ x.id ∉ seenA.map Commit.id := by
    intro x hx hs
    by_cases hid : x.id ∈ seenA.map Commit.id
    · exact Or.inl (hknown x (hinA x (hlater x hx.1) hid) hs hx.2)
    · exact Or.inr ⟨hlater x hx.1, hid⟩
  refine ⟨?_, ?_, ?_⟩
  · rintro x ⟨hx | hx, hs⟩
    · exact ⟨hlater x (hkept x hx), hs⟩
    · exact ⟨hx.1, hs⟩
  · rintro x ⟨hx, hs⟩ y ⟨hy, hys⟩ hxy
    by_cases hid : y.id ∈ seenA.map Commit.id
    · have hyA := hinA y hy hid
      obtain ⟨x', hx', e⟩ := hA.closed y hyA x.id hxy.2
      have hxk : x ∈ kept := by
        refine hx.resolve_right fun hx => hx.2 ?_
        exact e ▸ List.mem_map_of_mem hx'
      have hxl : Live n.published n.obsoleted x :=
        ⟨hkept x hxk, hclean x hxk ((hscope x).mp hs)⟩
      obtain ⟨z, hz, hxz⟩ := hn.cut.child x hxl y (hA.sub y hyA) hxy
      have hzs : z.resource.scopeId = scope := by rw [hxz.1, (hscope x).mp hs]
      exact ⟨z, ⟨hlive z hz hzs, (hscope z).mpr hzs⟩, hxz⟩
    · exact ⟨y, ⟨Or.inr ⟨hy, hid⟩, hys⟩, hxy⟩
  · rintro x hx
    have hs := hx.1.2
    refine ⟨?_, hs⟩
    by_cases hid : x.id ∈ seenA.map Commit.id
    · have hxp := hA.sub x (hinA x hx.1.1 hid)
      have hhead : IsHead Commit.Over n.all x :=
        ⟨hxp, fun y hy hxy => ((isHead_inScope hs).mp hx).2 y (hlater y hy) hxy⟩
      exact hlive x (hn.cut.head x hhead) ((hscope x).mp hs)
    · exact Or.inr ⟨hx.1.1, hid⟩

/-- The state of the compactor in `w₁`, with the commits published since its refresh that
the reader was shown by `w₂`. -/
def World.joint (w₁ : World) (A : String) (w₂ : World) (R scope : String) : RuntimeState :=
  { w₁.memory A with
    commits := (w₁.memory A).commits.insertAll (((w₂.clients R).seen scope).filter fun x =>
      x.id ∉ ((w₁.clients A).seen scope).map Commit.id) }

/-- A client that refreshes after another one truncated a scope sees its heads and its
remote state, together with what was published since. -/
theorem World.replicas_survive_truncation (hex : ∀ data, ':' ∉ (blake3 data).toList)
    {w₀ w₁ w₂ : World} {A : String} {s : RuntimeState} {compaction : CatalogCompaction}
    {k : Except SyncError Unit → Prog host RuntimeState (Except SyncError Unit)}
    (h₀ : w₀.Reachable S (World.Careful R))
    (hcall : (w₀.clients A).prog = .call s (.compactCatalog compaction) k)
    (hgives : compaction.obsoleteCommitIds ≠ [])
    (hok : w₀.Careful R (.answer A .serve)) (hstep : w₀.step S (.answer A .serve) = some w₁)
    (hrun : Relation.ReflTransGen (World.Next S (World.Careful R)) w₁ w₂)
    (hread : w₂.Refreshed R compaction.snapshot.scopeId)
    (hlater : ∀ x ∈ w₁.published,
      x.id ∈ ((w₂.clients R).seen compaction.snapshot.scopeId).map Commit.id)
    (key : ResourceKey) (hkey : key.scopeId = compaction.snapshot.scopeId) :
    (w₂.memory R).heads key = (w₁.joint A w₂ R key.scopeId).heads key ∧
      (w₂.memory R).remoteState key = (w₁.joint A w₂ R key.scopeId).remoteState key := by
  rw [← hkey] at hread hlater
  have h₁ : w₁.Reachable S (World.Careful R) := h₀.tail ⟨_, hok, hstep⟩
  obtain ⟨hv₁, hn₁⟩ := h₁.cutting hex
  obtain ⟨hv₂, hn₂⟩ := World.Reachable.cutting hex (h₁.trans hrun)
  have hgrows : ∀ x ∈ w₁.published, x ∈ w₂.published :=
    (h₁.inv.run (P := fun _ _ => True) hex (fun _ _ _ => trivial) (fun _ _ _ => trivial)
      hrun).published
  obtain ⟨hpub, hob, hmemA, -⟩ := h₀.inv.compacted hcall hstep
  have hclean := hok.2
  rw [World.Trimmed, hcall] at hclean
  have hheldA := (hv₁.members A).memory.held
  have hkA := hn₁.keeps A
  have hkR := hn₂.keeps R
  have hsub : ∀ x ∈ (w₂.clients R).seen key.scopeId, x ∈ w₂.published := (hkR.seen key.scopeId).sub
  have ids : ∀ x ∈ (w₂.clients R).seen key.scopeId, ∀ y ∈ (w₂.clients R).seen key.scopeId,
      y.id = x.id → y = x := fun x hx y hy => hv₂.ids x (hsub x hx) y (hsub y hy)
  replace hlater : ∀ x ∈ w₁.published, x ∈ (w₂.clients R).seen key.scopeId := by
    intro x hx
    obtain ⟨y, hy, e⟩ := List.mem_map.mp (hlater x hx)
    exact hv₂.ids x (hgrows x hx) y (hsub y hy) e ▸ hy
  have hjoint : ∀ x, x ∈ (w₁.joint A w₂ R key.scopeId).commits ↔ x ∈ (w₁.memory A).commits ∨
      x ∈ (w₂.clients R).seen key.scopeId ∧
        x.id ∉ ((w₁.clients A).seen key.scopeId).map Commit.id := by
    intro x
    rw [World.joint, KeyedMap.mem_insertAll, List.mem_filter, decide_eq_true_eq]
    · intro v hv u hu e
      exact ids v (List.mem_filter.mp hv).1 u (hlater u (hheldA u hu)) e
    · intro v hv u hu e
      exact ids v (List.mem_filter.mp hv).1 u (List.mem_filter.mp hu).1 e
  have hcutA := joint_cut hn₁ key.scopeId (w₁.memory A).commits.values ids
    (hkA.seen key.scopeId) hlater (fun x hx => hheldA x (KeyedMap.mem_values.mp hx)) ?_ ?_
  · obtain ⟨hcutR, hseen⟩ := hn₂.follows.current hread.1
    have hasked : (w₂.clients R).seen key.scopeId = (w₂.clients R).asked.2 :=
      hseen key.scopeId hread.2
    have hheads : ∀ x : Commit, x.resource = key →
        (IsHead Commit.Over (w₂.memory R).held x ↔
          IsHead Commit.Over (w₁.joint A w₂ R key.scopeId).held x) := by
      intro x hx
      have hset : (w₁.joint A w₂ R key.scopeId).held = { x | x ∈ (w₁.memory A).commits.values ∨
          x ∈ (w₂.clients R).seen key.scopeId ∧
            x.id ∉ ((w₁.clients A).seen key.scopeId).map Commit.id } := by
        ext x
        simp only [RuntimeState.held, Set.mem_ofPred_eq, hjoint, KeyedMap.mem_values]
      have hasks : inScopes (w₂.clients R).asked.1 x.resource.scopeId = true := hx ▸ hread.2
      have hone : inScopes [key.scopeId] x.resource.scopeId = true := by simp [inScopes, hx]
      have hA : IsHead Commit.Over (w₁.joint A w₂ R key.scopeId).held x ↔
          IsHead Commit.Over { x | x ∈ (w₂.clients R).seen key.scopeId } x := by
        rw [hset]
        exact (isHead_inScope hone).symm.trans (hcutA.isHead_iff.trans (isHead_inScope hone))
      rw [hA, hasked]
      exact (isHead_inScope hasks).symm.trans (hcutR.isHead_iff.trans (isHead_inScope hasks))
    have htext : ∀ x : Commit, x.resource = key → x.change.isText = true →
        (x ∈ (w₂.memory R).commits ↔ x ∈ (w₁.joint A w₂ R key.scopeId).commits) := by
      intro x hx ht
      rw [hjoint]
      constructor
      · intro hmem
        have hxR : x ∈ (w₂.clients R).seen key.scopeId := by
          rw [hasked]
          exact (hcutR.sub ⟨hmem, hx ▸ hread.2⟩).1
        by_cases hid : x.id ∈ ((w₁.clients A).seen key.scopeId).map Commit.id
        · obtain ⟨y, hy, e⟩ := List.mem_map.mp hid
          have hyp := (hkA.seen key.scopeId).sub y hy
          obtain rfl := ids x hxR y (hlater y hyp) e
          exact Or.inl (hkA.memory y (hx ▸ hy) (hn₁.text y hyp ht))
        · exact Or.inr ⟨hxR, hid⟩
      · intro hin
        have hxR : x ∈ (w₂.clients R).seen key.scopeId :=
          hin.elim (fun hin => hlater x (hheldA x hin)) And.left
        exact hkR.memory x (hx ▸ hxR) (hn₂.text x (hsub x hxR) ht)
    exact ⟨RuntimeState.heads_congr hheads, RuntimeState.remoteState_congr hheads htext⟩
  · intro x hx hs hdead
    rw [KeyedMap.mem_values, hmemA, KeyedMap.mem_eraseAll] at hx
    rw [show w₁.net.obsoleted = _ from hob, List.mem_append] at hdead
    rcases hdead with hdead | hdead
    · exact hclean.clean hgives x (KeyedMap.mem_values.mpr hx.1) (hs.trans hkey) hdead
    · exact hx.2 hdead
  · intro x hx hs hlive
    exact KeyedMap.mem_values.mpr (hkA.memory x (hs.symm ▸ hx) hlive)

end Runs

section Scripts

open Sample

attribute [local instance] crates

/-- `A` is about to truncate a scope; the reader has refreshed it by the end. -/
structure Truncation (S : Setting) (ok : World → Label → Prop) (A R : String)
    (w₀ w₁ w₂ : World) (s : RuntimeState) (compaction : CatalogCompaction)
    (k : Except SyncError Unit → Prog host RuntimeState (Except SyncError Unit)) : Prop where
  reachable : w₀.Reachable S ok
  call : (w₀.clients A).prog = .call s (.compactCatalog compaction) k
  gives : compaction.obsoleteCommitIds ≠ []
  allowed : ok w₀ (.answer A .serve)
  step : w₀.step S (.answer A .serve) = some w₁
  run : Relation.ReflTransGen (World.Next S ok) w₁ w₂
  read : w₂.Refreshed R compaction.snapshot.scopeId
  later : ∀ x ∈ w₁.published,
    x.id ∈ ((w₂.clients R).seen compaction.snapshot.scopeId).map Commit.id

instance (w : World) (R scope : String) : Decidable (w.Refreshed R scope) :=
  inferInstanceAs (Decidable (_ ∧ _))

/-- Play up to the truncation of `A`, let it happen, and play on. -/
def truncate (S : Setting) (ok : World → Label → Prop) [∀ w, DecidablePred (ok w)] (A R : String)
    (before after : List Line) (p : World → World → Bool) : Bool :=
  (play S ok before 0 {}).any fun w₀ =>
    match (w₀.clients A).prog with
    | .call _ (.compactCatalog compaction) _ =>
      compaction.obsoleteCommitIds ≠ [] ∧ ok w₀ (.answer A .serve) ∧
        (w₀.step S (.answer A .serve)).any fun w₁ => (play S ok after 9000 w₁).any fun w₂ =>
          w₂.Refreshed R compaction.snapshot.scopeId ∧ (∀ x ∈ w₁.published,
            x.id ∈ ((w₂.clients R).seen compaction.snapshot.scopeId).map Commit.id) ∧ p w₁ w₂
    | _ => false

theorem exists_truncation (S : Setting) (ok : World → Label → Prop) [∀ w, DecidablePred (ok w)]
    (A R : String) (before after : List Line) (p : World → World → Bool)
    (h : truncate S ok A R before after p = true) : ∃ w₀ w₁ w₂ s compaction k,
      Truncation S ok A R w₀ w₁ w₂ s compaction k ∧ p w₁ w₂ = true := by
  obtain ⟨w₀, hw₀, h⟩ := (Option.any_eq_true _ _).mp h
  split at h
  · next s compaction k hcall =>
    simp only [decide_eq_true_eq, Option.any_eq_true] at h
    obtain ⟨hgives, hok, w₁, hw₁, w₂, hw₂, hread, hlater, hp⟩ := h
    exact ⟨w₀, w₁, w₂, s, compaction, k,
      ⟨play_reach hw₀, hcall, hgives, hok, hw₁, play_reach hw₂, hread, hlater⟩, hp⟩
  · cases h

/-- A reader that has seen the last version before the checkpoint. -/
theorem World.replicas_survive_truncation_synced : ∃ w₀ w₁ w₂ s compaction k,
    Truncation {} (World.Careful "R") "A" "R" w₀ w₁ w₂ s compaction k ∧
    compaction.snapshot.scopeId = "s" ∧ (w₁.memory "A").heads (key "a") ≠ [] ∧
    (w₂.memory "R").heads (key "a") = (w₁.joint "A" w₂ "R" "s").heads (key "a") ∧
    (w₂.memory "R").remoteState (key "a") = (w₁.joint "A" w₂ "R" "s").remoteState (key "a") := by
  obtain ⟨w₀, w₁, w₂, s, compaction, k, ht, hp⟩ := exists_truncation {} (World.Careful "R") "A" "R"
    (upload "A" "a" "1" "t1" ++ upload "A" "a" "2" "t2" ++ sync "R" ++ tidy "A" ++
      [.step (.start "A" (.maintain ⟨[], 1⟩)), .answers "A" 4])
    ([.step (.start "R" (.reconcile ⟨["s"]⟩)), .answers "R" 2])
    (fun w₁ w₂ => (w₁.memory "A").heads (key "a") ≠ [] ∧ (w₂.clients "R").asked.1 = ["s"])
    (by decide +kernel)
  have hscope : compaction.snapshot.scopeId = "s" := by
    have := ht.read.2
    simp only [decide_eq_true_eq] at hp
    rw [hp.2] at this
    simpa [inScopes] using this
  refine ⟨w₀, w₁, w₂, s, compaction, k, ht, hscope, (of_decide_eq_true hp).1, ?_⟩
  exact World.replicas_survive_truncation colon_notMem_hex ht.reachable ht.call ht.gives ht.allowed
    ht.step ht.run ht.read ht.later (key "a") hscope.symm

def isForked (s : RuntimeState) (key : ResourceKey) : Bool :=
  match s.remoteState key with
  | .ok (.forked heads) => heads = s.heads key
  | _ => false

theorem remoteState_of_isForked {s : RuntimeState} {key : ResourceKey}
    (h : isForked s key = true) : s.remoteState key = .ok (.forked (s.heads key)) := by
  unfold isForked at h
  split at h
  · next heads hr => rw [hr, of_decide_eq_true h]
  · cases h

/-- A reader that stopped at the first version: the second is truncated before it comes
back, so the first is never seen to have a child. -/
theorem World.truncation_leaves_reader_behind : ∃ w₀ w₁ w₂ s compaction k,
    Truncation {} (fun _ _ => True) "A" "R" w₀ w₁ w₂ s compaction k ∧
    compaction.snapshot.scopeId = "s" ∧
    (w₂.memory "R").heads (key "a") ≠ (w₁.joint "A" w₂ "R" "s").heads (key "a") ∧
    (w₂.memory "R").remoteState (key "a") = .ok (.forked ((w₂.memory "R").heads (key "a"))) := by
  obtain ⟨w₀, w₁, w₂, s, compaction, k, ht, hp⟩ := exists_truncation {} (fun _ _ => True) "A" "R"
    (upload "A" "a" "1" "t1" ++ sync "R" ++ upload "A" "a" "2" "t2" ++ tidy "A" ++
      [.step (.start "A" (.maintain ⟨[], 1⟩)), .answers "A" 4])
    ([.step (.start "R" (.reconcile ⟨["s"]⟩)), .answers "R" 2])
    (fun w₁ w₂ => (w₂.clients "R").asked.1 = ["s"] ∧
      (w₂.memory "R").heads (key "a") ≠ (w₁.joint "A" w₂ "R" "s").heads (key "a") ∧
      isForked (w₂.memory "R") (key "a") = true)
    (by decide +kernel)
  simp only [decide_eq_true_eq] at hp
  obtain ⟨hasked, hne, hfork⟩ := hp
  have hscope := ht.read.2
  rw [hasked] at hscope
  exact ⟨w₀, w₁, w₂, s, compaction, k, ht, by simpa [inScopes] using hscope, hne,
    remoteState_of_isForked hfork⟩

end Scripts

end Rollforward
