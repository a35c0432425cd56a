import Rollforward.Resting

/-! Clients that reconcile in turn: in the end they hold the same, and nothing more is published. -/

namespace Rollforward

open Std Lib

section Compaction

variable [Crates] {S : Setting} {realm : Realm} {s : RuntimeState} {P : Prop}

/-- What a realm answers, and what goes on as long as nothing is compacted. -/
def Realm.Meanwhile (S : Setting) (x : Realm × Prop) (e : SyncEvent) (y : Realm × Prop) : Prop :=
  x.1.Serves S e y.1 ∧ (NoCompaction e.req → x.2 → y.2)

theorem Comp.Within.meanwhile {x : Sync α} (hx : Comp.Within NoCompaction Anyhow x) (hp : P) :
    Comp.wp (Realm.Meanwhile S) (fun _ _ _ => True) (fun _ _ _ => True) x
      (fun y _ _ => y.2) (realm, P) s := by
  refine Comp.wp_mono (hx.wp (J := fun y _ => y.2) ?_ ?_ ?_ hp) (fun _ _ _ _ => trivial)
    fun _ _ _ hj => hj
  · exact fun _ _ _ hj _ => hj
  · exact fun _ _ _ _ _ => trivial
  · exact fun _ _ _ _ _ hj hq hserves => hserves.2 hq hj

theorem Concludes.meanwhile {x : Sync α} {Q : Realm → RuntimeState → α → Prop}
    (hx : Concludes S x Q realm s) :
    Comp.wp (Realm.Meanwhile S) (fun _ _ _ => True) (fun _ _ _ => True) x
      (fun y s' a => Q y.1 s' a) (realm, P) s := by
  rw [Concludes, Comp.wp] at hx
  refine Prog.Meets.imp (Prog.Meets.view Prod.fst hx fun _ _ _ ht => ht.1) (fun _ _ _ hc => hc) ?_
  rintro _ _ (e | a) hq
  · exact trivial
  · exact hq

theorem runUploads_noCompaction (rt : SyncRuntime) (locals : List LocalResource)
    (plan : List PlanOperation) (tally : Tally) :
    Comp.Within NoCompaction Anyhow (runUploads rt locals plan tally) := by
  have hread : ∀ {α : Type} {x : Sync α}, Silent x → Comp.Within NoCompaction Anyhow x :=
    fun hx => hx.noCompaction
  rw [runUploads]
  refine .bind (.request trivial _) fun contents => ?_
  refine .bind (hread (.foldlM (fun prepared operation =>
    (prepareUpload_prepares rt _ prepared operation).silent) _ _)) fun prepared => ?_
  refine .bind (.request trivial _) fun existing => ?_
  refine .bind (hread (.foldlM (fun created operation =>
    (createCommit_prepares rt _ prepared created operation).silent) _ _)) fun created => ?_
  rw [publishBatch]
  split
  · exact .pure _
  · exact .bind (.request trivial _) fun _ => (recordBatch_quiet locals _ _).mono
      (fun _ hq => hq.noCompaction) fun _ _ h => h

/-- A `reconcile` that finds few events compacts nothing. -/
theorem reconcile_meanwhile {request : SyncRequest} (hp : P)
    (hfew : s.FewEvents realm.site.remote request.scopes) (rt : SyncRuntime) :
    Comp.wp (Realm.Meanwhile S) (fun _ _ _ => True) (fun _ _ _ => True)
      (Rollforward.reconcile rt request) (fun y _ _ => y.2) (realm, P) s := by
  rw [Rollforward.reconcile]
  refine Comp.wp_bind.mpr (Comp.wp_modify.mpr ?_)
  have hrefresh : Comp.Within NoCompaction Anyhow (refreshRemote request.scopes) :=
    .bind .get fun _ => .bind (.request trivial _) fun _ => .bind (.modify fun _ => trivial)
      fun _ => .bind .get fun _ => .bind (.request trivial _) fun _ => .modify fun _ => trivial
  refine Comp.wp_bind.mpr (Comp.wp_imp (Comp.wp_and (Comp.Within.meanwhile hrefresh hp)
    (refreshRemote_abreast (s := { s with activeRun := none }) hfew).meanwhile) ?_)
  rintro ⟨realm₁, P₁⟩ s₁ _ ⟨hp₁, -, hdue, -⟩
  have hnone : Comp.wp (Realm.Meanwhile S) (fun _ _ _ => True) (fun _ _ _ => True)
      (snapshotLargeCatalogs rt) (fun y s' _ => y = (realm₁, P₁) ∧ s' = s₁) (realm₁, P₁) s₁ := by
    refine Comp.wp_bind.mpr (Comp.wp_get.mpr ?_)
    rw [hdue]
    exact ⟨rfl, rfl⟩
  refine Comp.wp_bind.mpr (Comp.wp_imp hnone ?_)
  rintro _ s₁ _ ⟨rfl, rfl⟩
  refine Comp.Within.meanwhile ?_ hp₁
  refine .bind (localInventory_reads _).silent.noCompaction fun locals => ?_
  refine .bind (.modify fun _ => trivial) fun _ => .bind .get fun s => .bind (.ofExcept _) fun plan => ?_
  rw [execute]
  refine .bind (startRun_silent request plan).noCompaction fun _ => ?_
  refine .bind (runUploads_noCompaction rt locals plan _) fun tally => ?_
  exact Silent.noCompaction (.bind (.foldlM (runOperation_silent locals) plan tally) fun _ =>
    .bind (acknowledgePlan_silent rt plan) fun _ => .bind (.modify fun _ => ⟨rfl, rfl, le_rfl⟩) fun _ =>
    .bind (.request (by exact trivial) _) fun _ => .pure _)

end Compaction

section Beside

variable [Crates] {S : Setting} {w w' : World} {c : String} {s : RuntimeState}
variable {request : SyncRequest} {report : SyncReport} {key : ResourceKey}

/-- What a call of `c` that compacts nothing leaves alone. -/
structure World.Beside (S : Setting) (c : String) (w v : World) : Prop where
  harmless : v.Reachable S World.Harmless
  obsoleted : v.obsoleted = w.obsoleted
  published : ∀ x ∈ w.published, x ∈ v.published
  others : ∀ c' ≠ c, v.clients c' = w.clients c'

theorem World.Beside.answer {v v₁ : World} {q : Req} {a : Answer} {r : q.Resp}
    {k : q.Resp → Prog host RuntimeState (Except SyncError Unit)} (h : w.Beside S c v)
    (hp : (v.clients c).prog = .call s q k) (hr : v.respond S c s q a = some (r, v₁))
    (hq : NoCompaction q) : w.Beside S c (v₁.resume c s q r (k r)) := by
  have hv : v.Reachable S fun _ _ => True := h.harmless.mono fun _ _ _ => trivial
  obtain ⟨hans, -⟩ := World.respond_fair (hv.relies c).files hv.inv.objects hr
  refine ⟨h.harmless.tail ⟨.answer c a, ⟨trivial, ?_⟩, ?_⟩, ?_, ?_, ?_⟩
  · cases a with
    | serve =>
      rw [World.Compacts, hp]
      cases q <;> first | exact trivial | exact hq.elim
    | _ => exact trivial
  · rw [World.step, World.answer, hp]
    change (v.respond S c s q a).map _ = _
    rw [hr]
    rfl
  · refine Eq.trans ?_ h.obsoleted
    change v₁.obsoleted = v.obsoleted
    rw [(World.respond_accounts hr).2, hq.handed]
    exact List.append_nil _
  · exact fun x hx => hans.published x (h.published x hx)
  · intro c' hne
    rw [World.resume, World.setClient_of_ne _ _ hne, hans.others c' hne]
    exact h.others c' hne

/-- Nobody else notices a `reconcile` that finds few events, but by what it publishes. -/
theorem World.Calls.beside (hcall : World.Calls S c (.reconcile request) w w' s)
    (hcol : Collisionless) (hcdc : FastcdcTiles) (hw : w.Reachable S World.Harmless)
    (hfew : (w.memory c).FewEvents w.remote request.scopes) : w.Beside S c w' := by
  refine hcall.meets_run (J := fun w => w.Reachable S fun _ _ => True)
    (fun hw hs => .tail hw ⟨_, trivial, hs⟩) (hw.mono fun _ _ _ => trivial)
    (fun v => (v.realm c, w.Beside S c v)) (T := Realm.Meanwhile S) (C := fun _ _ _ => True)
    (Q := fun x _ r => r = .ok () → x.2) ?_ ?_ rfl
  · intro v s q k a r v₁ hv hp hr hnext
    have hafter : (v₁.resume c s q r (k r)).realm c = v₁.realm c := World.realm_setClient v₁ _ rfl
    refine ⟨?_, fun hq h => h.answer hp hr hq⟩
    rw [hafter]
    exact World.respond_realm hr (hafter ▸ hnext.lawful hcol hcdc c)
  · have hstarted : ((w.setClient c ((w.clients c).start ⟨c, S.policy c⟩
        (.reconcile request))).realm c) = w.realm c := World.realm_setClient w _ rfl
    obtain ⟨⟨w₁, hstart, -⟩, -⟩ := hcall
    have hbeside : w.Beside S c (w.setClient c ((w.clients c).start ⟨c, S.policy c⟩
        (.reconcile request))) := by
      rw [← World.start_cases hstart]
      refine ⟨hw.tail ⟨.start c (.reconcile request), ⟨trivial, trivial⟩, hstart⟩, ?_, ?_, ?_⟩ <;>
        rw [World.start_cases hstart]
      · rfl
      · exact fun _ hx => hx
      · exact fun _ hne => World.setClient_of_ne _ _ hne
    rw [hstarted]
    have hwp : Comp.wp (Realm.Meanwhile S) (fun _ _ _ => True) (fun _ _ _ => True)
        ((Command.reconcile request).run ⟨c, S.policy c⟩) (fun x _ _ => x.2)
        (w.realm c, w.Beside S c _) (w.memory c) :=
      Comp.wp_bind.mpr (Comp.wp_imp (reconcile_meanwhile hbeside hfew _) fun _ _ _ h => h)
    refine Prog.Meets.imp hwp (fun _ _ _ _ => trivial) ?_
    rintro x s (e | a) hq hr
    · cases hr
    · exact hq

/-- After a `reconcile` that finds few events a client knows what is published of its scopes and
not given up. -/
theorem World.Reconciles.knows (hcall : World.Reconciles S c request w w' s report)
    (hcol : Collisionless) (hcdc : FastcdcTiles) (hw : w.Reachable S World.Harmless)
    (hfew : (w.memory c).FewEvents w.remote request.scopes) (hscope : key.scopeId ∈ request.scopes)
    {x : Commit} (hx : Live w'.published w'.obsoleted x) (hres : x.resource = key) :
    x ∈ s.commits := by
  have hw' := (hcall.calls.beside hcol hcdc hw hfew).harmless
  have habreast : Abreast request.scopes [] w'.remote s :=
    hcall.concludes hcol hcdc hw
      (Q := fun realm' s' _ => Abreast request.scopes [] realm'.site.remote s')
      (reconcile_abreast hfew _)
  have hlawful := hw'.lawful hcol hcdc c
  have hheld := (hw'.hosts hcol hcdc c).held
  have hvalid := hw'.valid hcol.hex
  -- what lies under the cursors is held, and anything else a scan would show
  by_cases hread : x.clientCounter ≤ reached (collectCursors (w'.memory c).cursors) x.lane
  · exact hcall.memory ▸ (hvalid.members c).memory.knows x hx hread
  rw [hcall.memory] at hread hheld
  have hin : inScopes request.scopes x.resource.scopeId = true := by
    rw [inScopes, hres, decide_eq_true hscope, Bool.or_true]
  obtain ⟨delta, hscan, hevent⟩ := hvalid.catalog.delivers hx (Nat.not_le.mp hread) _ hin
  obtain ⟨y, hy⟩ := Option.isSome_iff_exists.mp (habreast.scan hlawful.wellFormed hscan _ hevent)
  have hmem : y ∈ s.commits := KeyedMap.mem_of_get? hy
  obtain rfl : y = x := hlawful.ids hcol x hx.1 y (hheld y hmem) (KeyedMap.key_of_get? hy)
  exact hmem

end Beside

section Currency

variable [Crates] {S : Setting} {w w₁ w' : World} {c c' : String} {s : RuntimeState}
variable {request : SyncRequest} {report : SyncReport} {key : ResourceKey} {cs : List String}
variable {ok : World → Label → Prop}

/-- Nothing of the resource was given up. -/
def World.Uncut (key : ResourceKey) (w : World) : Prop :=
  ∀ x ∈ w.published, x.resource = key → x.id ∉ w.obsoleted

theorem World.Beside.uncut (h : w.Beside S c w') (hcol : Collisionless)
    (hw : w.Reachable S World.Harmless) (huncut : w.Uncut key) : w'.Uncut key := by
  intro x hx hres hgone
  rw [h.obsoleted] at hgone
  obtain ⟨y, hy, hid⟩ := (hw.valid hcol.hex).obsoleted x.id hgone
  have hids := (h.harmless.valid hcol.hex).toCounted.ids
  obtain rfl : y = x := hids x hx y (h.published y hy) hid
  exact huncut y hy hres hgone

/-- The client knows all that is published of the resource. -/
def World.Knows (key : ResourceKey) (w : World) (c : String) : Prop :=
  ∀ x ∈ w.published, x.resource = key → x ∈ (w.memory c).commits

/-- The client holds a resource as it was published last. -/
structure World.Current (key : ResourceKey) (w : World) (c : String) : Prop where
  agrees : Agrees key (w.site c) (w.memory c)
  knows : w.Knows key c

theorem World.memory_of_client (hclient : w'.clients c = w.clients c) : w'.memory c = w.memory c := by
  rw [World.memory, World.memory, hclient]

theorem Agrees.of_client (h : Agrees key (w.site c) (w.memory c))
    (hclient : w'.clients c = w.clients c) : Agrees key (w'.site c) (w'.memory c) := by
  rw [World.memory_of_client hclient, World.site, hclient]
  exact h

theorem Rested.of_client (h : Rested key (w.site c) (w.memory c))
    (hclient : w'.clients c = w.clients c) : Rested key (w'.site c) (w'.memory c) := by
  refine ⟨h.agrees.of_client hclient, ?_⟩
  rw [World.memory_of_client hclient]
  exact h.based

/-- Nothing changes for a client while only others publish, and nothing of the resource. -/
theorem World.Current.stays (h : w.Current key c) (hclient : w'.clients c = w.clients c)
    (hpublished : ∀ x ∈ w'.published, x.resource = key → x ∈ w.published) : w'.Current key c := by
  refine ⟨h.agrees.of_client hclient, fun x hx hres => ?_⟩
  rw [World.memory_of_client hclient]
  exact h.knows x (hpublished x hx hres) hres

/-- Those who know all that is published of a resource see the same of it. -/
theorem World.Knows.remoteState (hc : w.Knows key c) (hc' : w.Knows key c') (hinv : w.Inv) :
    (w.memory c).remoteState key = (w.memory c').remoteState key := by
  have hmem : ∀ x : Commit, x.resource = key →
      (x ∈ (w.memory c).commits ↔ x ∈ (w.memory c').commits) := fun x hres =>
    ⟨fun hx => hc' x ((hinv.clients c).memory x hx) hres,
      fun hx => hc x ((hinv.clients c').memory x hx) hres⟩
  refine RuntimeState.remoteState_congr (fun y hres => ?_) fun x hres _ => hmem x hres
  refine and_congr (hmem y hres) (forall_congr' fun z => ?_)
  constructor
  · exact fun h hz hover => h ((hmem z (hover.1.trans hres)).mpr hz) hover
  · exact fun h hz hover => h ((hmem z (hover.1.trans hres)).mp hz) hover

/-- The data of the file is the content that the remote shows. -/
theorem RemoteResourceState.HeldAs.content {remote : RemoteResourceState} {file : Option File}
    {baseline : Option StoredBaseline} (h : remote.HeldAs key file baseline) :
    (file.bind File.data).map blake3 = remote.contentId := by
  cases remote with
  | missing => rw [show file.bind File.data = none from h]; rfl
  | deleted => rw [h.1]; rfl
  | present =>
    obtain ⟨data, versionToken, rfl, rfl, -⟩ := h
    rfl
  | forked => exact h.elim

/-- Those who are current hold the same. -/
theorem World.Current.same (hc : w.Current key c) (hc' : w.Current key c') (hcol : Collisionless)
    (hinv : w.Inv) :
    (w.site c).files[key]?.bind File.data = (w.site c').files[key]?.bind File.data := by
  obtain ⟨remote, hremote, hheld⟩ := hc.agrees
  obtain ⟨remote', hremote', hheld'⟩ := hc'.agrees
  rw [hc.knows.remoteState hc'.knows hinv, hremote'] at hremote
  cases hremote
  refine Option.map_injective hcol.digest ?_
  rw [hheld.content, hheld'.content]

/-- Clients that reconcile one after the other without failures. -/
inductive World.InTurn (S : Setting) (request : SyncRequest) :
    List String → World → World → Prop
  | nil {w : World} : InTurn S request [] w w
  | cons {c : String} {cs : List String} {w w₁ w' : World} {s : RuntimeState} {report : SyncReport}
      (call : World.Reconciles S c request w w₁ s report) (ok : report.failures = 0)
      (few : (w.memory c).FewEvents w.remote request.scopes)
      (rest : InTurn S request cs w₁ w') : InTurn S request (c :: cs) w w'

/-- Nobody else notices a round, but by what it publishes. -/
theorem World.InTurn.beside (h : World.InTurn S request cs w w') (hcol : Collisionless)
    (hcdc : FastcdcTiles) (hw : w.Reachable S World.Harmless) :
    w'.Reachable S World.Harmless ∧ ∀ c ∉ cs, w'.clients c = w.clients c := by
  induction h with
  | nil => exact ⟨hw, fun _ _ => rfl⟩
  | @cons d cs w w₁ w' s report call ok few rest ih =>
    have hbeside := call.calls.beside hcol hcdc hw few
    refine (ih hbeside.harmless).imp_right fun hothers c hc => ?_
    obtain ⟨hne, hc⟩ := not_or.mp (mt List.mem_cons.mpr hc)
    rw [hothers c hc, hbeside.others c hne]

theorem World.InTurn.uncut (h : World.InTurn S request cs w w') (hcol : Collisionless)
    (hcdc : FastcdcTiles) (hw : w.Reachable S World.Harmless) (huncut : w.Uncut key) :
    w'.Uncut key := by
  induction h with
  | nil => exact huncut
  | cons call ok few rest ih =>
    have hbeside := call.calls.beside hcol hcdc hw few
    exact ih hbeside.harmless (hbeside.uncut hcol hw huncut)

/-- After a `reconcile` that finds few events a client knows the resources of its scopes. -/
theorem World.Reconciles.informs (hcall : World.Reconciles S c request w w' s report)
    (hcol : Collisionless) (hcdc : FastcdcTiles) (hw : w.Reachable S World.Harmless)
    (huncut : w.Uncut key) (hfew : (w.memory c).FewEvents w.remote request.scopes)
    (hscope : key.scopeId ∈ request.scopes) : w'.Knows key c := by
  intro x hx hres
  rw [hcall.memory]
  have huncut' := (hcall.calls.beside hcol hcdc hw hfew).uncut hcol hw huncut
  exact hcall.knows hcol hcdc hw hfew hscope ⟨hx, huncut' x hx hres⟩ hres

/-- A `reconcile` without failures that leaves no conflict makes its client current. -/
theorem World.Reconciles.current (hcall : World.Reconciles S c request w w' s report)
    (hcol : Collisionless) (hcdc : FastcdcTiles) (hw : w.Reachable S World.Harmless)
    (huncut : w.Uncut key) (hfew : (w.memory c).FewEvents w.remote request.scopes)
    (hvouched : (w.site c).files.Vouched (w.memory c) key) (hok : report.failures = 0)
    (hcalm : ∀ record, record ∉ s.conflicts) (hkind : S.kindOf key = .binary)
    (hscope : key.scopeId ∈ request.scopes) (hown : key.Own []) : w'.Current key c := by
  refine ⟨?_, hcall.informs hcol hcdc hw huncut hfew hscope⟩
  have houtcome : Outcome key (w'.site c) s := by
    refine (hcall.concludes hcol hcdc hw (Q := fun realm' s' report => 0 < report.failures ∨
      Outcome key realm'.site s') ?_).resolve_left (hok ▸ Nat.lt_irrefl 0)
    exact reconcile_outcome hcol hcdc (hw.hosts hcol hcdc c) hkind hvouched _ hscope
      fun other _ => hown other rfl
  rw [hcall.memory]
  rcases houtcome with ⟨hagrees, -⟩ | ⟨-, record, -, -, hlisted, -⟩
  · exact hagrees
  · obtain ⟨record', hrecord⟩ := Option.isSome_iff_exists.mp hlisted
    exact absurd (KeyedMap.mem_of_get? hrecord) (hcalm record')

/-- A client with whom the resource rests takes over what another one holds. -/
theorem World.Reconciles.takes (hcall : World.Reconciles S c request w w' s report)
    (hcol : Collisionless) (hcdc : FastcdcTiles) (hw : w.Reachable S World.Harmless)
    (huncut : w.Uncut key) (hfew : (w.memory c).FewEvents w.remote request.scopes)
    (hok : report.failures = 0) (hrested : Rested key (w.site c) (w.memory c))
    (hcurrent : w.Current key c') (hne : c' ≠ c) (hkind : S.kindOf key = .binary)
    (hscope : key.scopeId ∈ request.scopes) (hown : key.Own []) :
    (∀ x ∈ w'.published, x.resource = key → x ∈ w.published) ∧ w'.Current key c ∧
      w'.Current key c' := by
  have hbeside := hcall.calls.beside hcol hcdc hw hfew
  obtain ⟨hwithheld, hends⟩ := hcall.concludes hcol hcdc hw (Q := fun realm' s' report =>
    (w.realm c).Withholds key realm' ∧ (0 < report.failures ∨ Agrees key realm'.site s' ∨
      ∃ heads, s'.remoteState key = .ok (.forked heads)))
    (reconcile_rests hcol hcdc (hw.hosts hcol hcdc c) hkind hrested _ hscope
      (fun other _ => hown other rfl) hfew)
  have hother : w'.Current key c' := hcurrent.stays (hbeside.others c' hne) hwithheld
  have hknows : w'.Knows key c := hcall.informs hcol hcdc hw huncut hfew hscope
  refine ⟨hwithheld, ⟨?_, hknows⟩, hother⟩
  rw [hcall.memory]
  rcases hends.resolve_left (hok ▸ Nat.lt_irrefl 0) with hagrees | ⟨heads, hforked⟩
  · exact hagrees
  · obtain ⟨remote, hremote, hheld⟩ := hother.agrees
    rw [← hcall.memory, hknows.remoteState hother.knows hbeside.harmless.inv, hremote] at hforked
    cases hforked
    exact hheld.elim

/-- One client after the other takes over what `c` holds. -/
theorem World.InTurn.spread (h : World.InTurn S request cs w w') (hcol : Collisionless)
    (hcdc : FastcdcTiles) (hkind : S.kindOf key = .binary) (hscope : key.scopeId ∈ request.scopes)
    (hown : key.Own []) (hw : w.Reachable S World.Harmless) (huncut : w.Uncut key)
    (hcurrent : w.Current key c) (hdistinct : (c :: cs).Nodup)
    (hrested : ∀ c' ∈ cs, Rested key (w.site c') (w.memory c')) :
    (∀ x ∈ w'.published, x.resource = key → x ∈ w.published) ∧ ∀ c' ∈ c :: cs, w'.Current key c' := by
  induction h with
  | nil => exact ⟨fun _ hx _ => hx, List.forall_mem_singleton.mpr hcurrent⟩
  | @cons d cs w w₁ w' s report call ok few rest ih =>
    obtain ⟨hnew, hdistinct⟩ := List.nodup_cons.mp hdistinct
    obtain ⟨hne, hnew⟩ := not_or.mp (mt List.mem_cons.mpr hnew)
    obtain ⟨hlater, hdistinct⟩ := List.nodup_cons.mp hdistinct
    obtain ⟨hfirst, hrested⟩ := List.forall_mem_cons.mp hrested
    have hbeside := call.calls.beside hcol hcdc hw few
    obtain ⟨hwithheld, htaken, hcurrent⟩ := call.takes hcol hcdc hw huncut few ok hfirst hcurrent
      hne hkind hscope hown
    obtain ⟨hpublished, hall⟩ := ih hbeside.harmless (hbeside.uncut hcol hw huncut) hcurrent
      (List.nodup_cons.mpr ⟨hnew, hdistinct⟩) fun e he =>
        (hrested e he).of_client (hbeside.others e fun h => hlater (h ▸ he))
    obtain ⟨hcurrent, hall⟩ := List.forall_mem_cons.mp hall
    have hothers := (rest.beside hcol hcdc hbeside.harmless).2
    refine ⟨fun x hx hres => hwithheld x (hpublished x hx hres) hres,
      List.forall_mem_cons.mpr ⟨hcurrent, List.forall_mem_cons.mpr ⟨?_, hall⟩⟩⟩
    exact htaken.stays (hothers d hlater) hpublished

/-- Versions are only added in a call. -/
theorem World.Calls.versions {command : Command} (hcall : World.Calls S c command w w' s)
    (hw : w.Reachable S ok) :
    ∃ new, (w'.clients c).versions = new ++ (w.clients c).versions := by
  refine (hcall.keeps (J := fun v => v.Reachable S (fun _ _ => True) ∧
    ∃ new, (v.clients c).versions = new ++ (w.clients c).versions) ?_
    ⟨hw.mono fun _ _ _ => trivial, [], rfl⟩).2
  rintro v v' l ⟨hv, new, hnew⟩ hs
  obtain ⟨new', hnew'⟩ := World.step_versions (c := c) hv.relies hv.inv hs
  exact ⟨hv.tail ⟨l, trivial, hs⟩, new' ++ new, by rw [hnew', hnew, List.append_assoc]⟩

/-- What is current rests: the content of a baseline is published, and known. -/
theorem World.Current.rested (h : w.Current key c) (hcol : Collisionless) (hcdc : FastcdcTiles)
    (hw : w.Reachable S ok) (hapart : TellsApart (w.clients c).versions)
    (hidle : (w.clients c).prog = .done s (.ok ())) (hkind : S.kindOf key = .binary)
    (hown : key.Own []) : Rested key (w.site c) (w.memory c) := by
  refine ⟨h.agrees, fun hmissing contentId version heads hbaseline => ?_⟩
  have hupholds := hw.upholds (warranted_discipline hcol hcdc hkind hown) hapart
  have hwarranted := hupholds.memory (hw.relies c).resumes hidle
  obtain ⟨entry, hentry, hstate⟩ := Option.map_eq_some_iff.mp hbaseline
  have hkept := (Option.filter_eq_some_iff.mp hentry).1
  have hmemory : w.memory c = s := by
    rw [World.memory, Client.memory, hidle]
    rfl
  rw [hmemory] at hkept
  have hwarrants := hwarranted entry hkept
  rw [hstate] at hwarrants
  obtain ⟨-, x, hx, hres, -⟩ := hwarrants
  exact (hw.hosts hcol hcdc c).not_missing (h.knows x hx hres) hres hmissing

theorem World.InTurn.append {ds : List String} :
    World.InTurn S request (cs ++ ds) w w' ↔
      ∃ v, World.InTurn S request cs w v ∧ World.InTurn S request ds v w' := by
  induction cs generalizing w with
  | nil =>
    constructor
    · exact fun h => ⟨w, .nil, h⟩
    · rintro ⟨v, ⟨⟩, h⟩
      exact h
  | cons c cs ih =>
    constructor
    · rintro (_ | ⟨call, ok, few, rest⟩)
      obtain ⟨v, hrest, hds⟩ := ih.mp rest
      exact ⟨v, .cons call ok few hrest, hds⟩
    · rintro ⟨v, _ | ⟨call, ok, few, rest⟩, hds⟩
      exact .cons call ok few (ih.mpr ⟨v, rest, hds⟩)

/-- A round without failures and conflicts leaves a resource at rest with everyone. -/
theorem World.InTurn.rests (h : World.InTurn S request cs w w') (hcol : Collisionless)
    (hcdc : FastcdcTiles) (hkind : S.kindOf key = .binary) (hscope : key.scopeId ∈ request.scopes)
    (hown : key.Own []) (hw : w.Reachable S World.Harmless) (huncut : w.Uncut key)
    (hdistinct : cs.Nodup) (hcalm : ∀ c ∈ cs, ∀ record, record ∉ (w'.memory c).conflicts)
    (hapart : ∀ c ∈ cs, TellsApart (w'.clients c).versions) :
    ∀ c ∈ cs, Rested key (w'.site c) (w'.memory c) := by
  induction h with
  | nil => exact fun _ hc => absurd hc List.not_mem_nil
  | @cons d cs w w₁ w' s report call ok few rest ih =>
    obtain ⟨hnew, hdistinct⟩ := List.nodup_cons.mp hdistinct
    obtain ⟨hcalm, hlater⟩ := List.forall_mem_cons.mp hcalm
    obtain ⟨hapart, haparts⟩ := List.forall_mem_cons.mp hapart
    have hbeside := call.calls.beside hcol hcdc hw few
    have hsame := (rest.beside hcol hcdc hbeside.harmless).2 d hnew
    rw [World.memory_of_client hsame, call.memory] at hcalm
    rw [hsame] at hapart
    obtain ⟨v, hstart, -⟩ := call.calls.run
    obtain ⟨new, hversions⟩ := call.calls.versions hw
    have hvouched := hw.vouched hcol hcdc (TellsApart.of_append (hversions ▸ hapart)) hkind hown hstart
    have hcurrent := call.current hcol hcdc hw huncut few hvouched ok hcalm hkind hscope hown
    have hrested := hcurrent.rested hcol hcdc hbeside.harmless hapart call.calls.returned hkind hown
    exact List.forall_mem_cons.mpr ⟨hrested.of_client hsame,
      ih hbeside.harmless (hbeside.uncut hcol hw huncut) hdistinct hlater haparts⟩

/-- Whatever files the clients have: after a round of theirs without failures and conflicts another
one of all but the last, in any order, publishes nothing of a binary resource, and in the end
each of them holds what the last one holds. -/
theorem World.reconcile_converges {ds : List String} (hcol : Collisionless) (hcdc : FastcdcTiles)
    (hw : w.Reachable S World.Harmless) (huncut : w.Uncut key)
    (hfirst : World.InTurn S request (cs ++ [c]) w w₁) (hdistinct : (cs ++ [c]).Nodup)
    (hcalm : ∀ d ∈ cs ++ [c], ∀ record, record ∉ (w₁.memory d).conflicts)
    (hapart : ∀ d ∈ cs ++ [c], TellsApart (w₁.clients d).versions)
    (hsecond : World.InTurn S request ds w₁ w') (hperm : ds.Perm cs)
    (hkind : S.kindOf key = .binary) (hscope : key.scopeId ∈ request.scopes) (hown : key.Own []) :
    (∀ x ∈ w'.published, x.resource = key → x ∈ w₁.published) ∧
      ∀ d ∈ cs, (w'.site d).files[key]?.bind File.data =
        (w'.site c).files[key]?.bind File.data := by
  have hrests := hfirst.rests hcol hcdc hkind hscope hown hw huncut hdistinct hcalm hapart
  obtain ⟨v, hbefore, hlast⟩ := World.InTurn.append.mp hfirst
  obtain ⟨hv, -⟩ := hbefore.beside hcol hcdc hw
  have huncut' := hbefore.uncut hcol hcdc hw huncut
  cases hlast with
  | cons call ok few rest =>
    cases rest
    have hcurrent : w₁.Current key c :=
      ⟨(hrests c (List.mem_append_right _ List.mem_cons_self)).agrees,
        call.informs hcol hcdc hv huncut' few hscope⟩
    have hbeside := call.calls.beside hcol hcdc hv few
    obtain ⟨hpublished, hall⟩ := hsecond.spread hcol hcdc hkind hscope hown hbeside.harmless
      (hbeside.uncut hcol hv huncut') hcurrent
      ((hperm.cons c).trans (List.perm_append_singleton c cs).symm |>.nodup_iff.mpr hdistinct)
      fun d hd => hrests d (List.mem_append_left _ (hperm.mem_iff.mp hd))
    obtain ⟨hcurrent, hall⟩ := List.forall_mem_cons.mp hall
    have hharmless := (hsecond.beside hcol hcdc hbeside.harmless).1
    exact ⟨hpublished, fun d hd =>
      (hall d (hperm.mem_iff.mpr hd)).same hcurrent hcol hharmless.inv⟩

/-- In a round where a binary resource rests with everyone but the first client, and that one is
left without conflicts, only the first publishes anything of it, and in the end all hold what
it holds. -/
theorem World.reconcile_spreads (hcol : Collisionless) (hcdc : FastcdcTiles)
    (hw : w.Reachable S World.Harmless) (huncut : w.Uncut key)
    (hapart : TellsApart (w.clients c).versions)
    (hturns : World.InTurn S request (c :: cs) w w') (hdistinct : (c :: cs).Nodup)
    (hrested : ∀ c' ∈ cs, Rested key (w.site c') (w.memory c'))
    (hcalm : ∀ record, record ∉ (w'.memory c).conflicts)
    (hkind : S.kindOf key = .binary) (hscope : key.scopeId ∈ request.scopes) (hown : key.Own []) :
    (∀ x ∈ w'.published, x.resource = key → x ∈ w.published ∨ x.author = c) ∧
      ∀ c' ∈ cs, (w'.site c').files[key]?.bind File.data =
        (w'.site c).files[key]?.bind File.data := by
  obtain ⟨hnew, -⟩ := List.nodup_cons.mp hdistinct
  cases hturns with
  | @cons _ _ _ w₁ _ s report call ok few rest =>
    obtain ⟨v, hstart, -⟩ := call.calls.run
    have hvouched := hw.vouched hcol hcdc hapart hkind hown hstart
    have hbeside := call.calls.beside hcol hcdc hw few
    obtain ⟨hharmless, hothers⟩ := rest.beside hcol hcdc hbeside.harmless
    rw [World.memory_of_client (hothers c hnew), call.memory] at hcalm
    have hfirst := call.current hcol hcdc hw huncut few hvouched ok hcalm hkind hscope hown
    obtain ⟨hpublished, hall⟩ := rest.spread hcol hcdc hkind hscope hown hbeside.harmless
      (hbeside.uncut hcol hw huncut) hfirst hdistinct fun d hd =>
        (hrested d hd).of_client (hbeside.others d fun e => hnew (e ▸ hd))
    obtain ⟨hcurrent, hall⟩ := List.forall_mem_cons.mp hall
    refine ⟨fun x hx hres => ?_, fun d hd => (hall d hd).same hcurrent hcol hharmless.inv⟩
    have haccounts := call.calls.accounts hw
    refine ((haccounts.published x).mp (hpublished x hx hres)).imp_right fun hown => ?_
    exact (haccounts.counters x hown).1

end Currency

section Players

open Sample

variable [Crates] {S : Setting} {request : SyncRequest}

/-- Reconciles one after the other, each with nobody else moving. -/
def takeTurns (S : Setting) (request : SyncRequest) : List String → Nat → World → Option World
  | [], _, w => some w
  | c :: cs, clock, w => (reconcileAt S c request clock w).bind fun (w₁, report) =>
    if report.failures = 0 ∧ (w.memory c).FewEvents w.remote request.scopes then
      takeTurns S request cs (clock + 1000) w₁
    else none

theorem inTurn_of_takeTurns {cs : List String} {clock : Nat} {w w' : World}
    (hw : w.Reachable S fun _ _ => True) (h : takeTurns S request cs clock w = some w') :
    w'.Reachable S (fun _ _ => True) ∧ World.InTurn S request cs w w' := by
  induction cs generalizing clock w with
  | nil =>
    cases h
    exact ⟨hw, .nil⟩
  | cons c cs ih =>
    obtain ⟨⟨w₁, report⟩, hrun, h⟩ := Option.bind_eq_some_iff.mp h
    obtain ⟨hw₁, s, call⟩ := reconciles_of_reconcileAt hw hrun
    dsimp only at h
    split at h
    · next hchecked => exact (ih hw₁ h).imp_right (.cons call hchecked.1 hchecked.2)
    · cases h

end Players

section Scripts

open Sample

attribute [local instance] spelled

/-- `A` and `B` have a file each, and `B` is the first to come. -/
theorem World.reconcile_converges_two : ∃ w w₁ w',
    World.InTurn {} ⟨["s"]⟩ ["B", "A"] w w₁ ∧ World.InTurn {} ⟨["s"]⟩ ["B"] w₁ w' ∧
      (w₁.site "B").files[key "a"]? = none ∧
      (w'.site "B").files[key "a"]?.bind File.data = some (textBytes "1") ∧
      (∀ x ∈ w'.published, x.resource = key "a" → x ∈ w₁.published) ∧
      ∀ d ∈ ["B"], (w'.site d).files[key "a"]?.bind File.data =
        (w'.site "A").files[key "a"]?.bind File.data := by
  have hplayed : ((play {} World.Harmless [.step (.edit "A" (key "a") (text "1" "t1")),
      .step (.edit "B" (key "b") (text "2" "t2"))] 0 {}).any fun w =>
      (takeTurns {} ⟨["s"]⟩ ["B", "A"] 5000 w).any fun w₁ =>
        (takeTurns {} ⟨["s"]⟩ ["B"] 9000 w₁).any fun w' =>
          w.published = [] ∧ (w₁.site "B").files[key "a"]? = none ∧
            (w'.site "B").files[key "a"]?.bind File.data = some (textBytes "1") ∧
            ∀ d ∈ ["B", "A"], (w₁.memory d).conflicts.values = [] ∧
              TellsApart (w₁.clients d).versions) = true := by
    decide +kernel
  obtain ⟨w, hw, h⟩ := (Option.any_eq_true _ _).mp hplayed
  obtain ⟨w₁, hrun₁, h⟩ := (Option.any_eq_true _ _).mp h
  obtain ⟨w', hrun', h⟩ := (Option.any_eq_true _ _).mp h
  obtain ⟨hnew, hbefore, hafter, hclients⟩ := of_decide_eq_true h
  have hw : w.Reachable {} World.Harmless := play_reach hw
  obtain ⟨hw₁, hfirst⟩ := inTurn_of_takeTurns (hw.mono fun _ _ _ => trivial) hrun₁
  obtain ⟨-, hsecond⟩ := inTurn_of_takeTurns hw₁ hrun'
  refine ⟨w, w₁, w', hfirst, hsecond, hbefore, hafter, ?_⟩
  refine World.reconcile_converges spelled_collisionless spelled_fastcdcTiles hw ?_ hfirst (by decide)
    (fun d hd record hr => ?_) (fun d hd => (hclients d hd).2) hsecond (.refl _) rfl List.mem_cons_self
    (ResourceKey.own_of_plain (by decide) (by decide))
  · intro x hx
    rw [hnew] at hx
    cases hx
  · have hmem := KeyedMap.mem_values.mpr hr
    rw [(hclients d hd).1] at hmem
    cases hmem

/-- `B` has taken over what `A` published, and `A` has changed it since. -/
theorem World.reconcile_spreads_change : ∃ w w', World.InTurn {} ⟨["s"]⟩ ["A", "B"] w w' ∧
    (w.site "B").files[key "a"]?.bind File.data = some (textBytes "1") ∧
    (w'.site "B").files[key "a"]?.bind File.data = some (textBytes "2") ∧
    (∀ x ∈ w'.published, x.resource = key "a" → x ∈ w.published ∨ x.author = "A") ∧
      ∀ d ∈ ["B"], (w'.site d).files[key "a"]?.bind File.data =
        (w'.site "A").files[key "a"]?.bind File.data := by
  have hplayed : ((play {} World.Harmless (upload "A" "a" "1" "t1" ++ sync "B" ++
      [.step (.edit "A" (key "a") (text "2" "t2"))]) 0 {}).any fun w =>
      (takeTurns {} ⟨["s"]⟩ ["A", "B"] 5000 w).any fun w' =>
        w.obsoleted = [] ∧ TellsApart (w.clients "A").versions ∧
          (w'.memory "A").conflicts.values = [] ∧
          (w'.site "B").files[key "a"]?.bind File.data = some (textBytes "2") ∧
          ((w.memory "B").remoteState (key "a")).toOption =
            some (.present (blake3 (textBytes "1")) 1 ((w.memory "B").heads (key "a"))) ∧
          ((w.site "B").files[key "a"]?).any fun file =>
            ((w.memory "B").baselines.get? (key "a").encoded).any fun entry =>
              file.data = some (textBytes "1") ∧ entry.key = key "a" ∧ entry.state = .present
                (blake3 (textBytes "1")) file.versionToken ((w.memory "B").heads (key "a"))) =
        true := by
    decide +kernel
  obtain ⟨w, hw, h⟩ := (Option.any_eq_true _ _).mp hplayed
  obtain ⟨w', hrun, h⟩ := (Option.any_eq_true _ _).mp h
  obtain ⟨huncut, hapart, hcalm, hafter, hremote, h⟩ := of_decide_eq_true h
  obtain ⟨⟨data, versionToken⟩, hfile, h⟩ := (Option.any_eq_true _ _).mp h
  obtain ⟨⟨own, state⟩, hbaseline, h⟩ := (Option.any_eq_true _ _).mp h
  obtain ⟨rfl, rfl, rfl⟩ := of_decide_eq_true h
  have hw : w.Reachable {} World.Harmless := play_reach hw
  obtain ⟨-, hturns⟩ := inTurn_of_takeTurns (hw.mono fun _ _ _ => trivial) hrun
  have hknown : (w.memory "B").remoteState (key "a") = .ok
      (.present (blake3 (textBytes "1")) 1 ((w.memory "B").heads (key "a"))) := by
    cases hstate : (w.memory "B").remoteState (key "a") with
    | error e =>
      rw [hstate] at hremote
      cases hremote
    | ok remote =>
      rw [hstate] at hremote
      exact congrArg _ (Option.some.inj hremote)
  refine ⟨w, w', hturns, by rw [hfile]; rfl, hafter, ?_⟩
  refine World.reconcile_spreads spelled_collisionless spelled_fastcdcTiles hw ?_ hapart hturns
    (by decide) ?_ (fun record hr => ?_) rfl List.mem_cons_self
    (ResourceKey.own_of_plain (by decide) (by decide))
  · intro x _ _
    rw [huncut]
    exact List.not_mem_nil
  · refine List.forall_mem_singleton.mpr ⟨⟨_, hknown, _, _, hfile, rfl, hbaseline⟩, fun hmissing => ?_⟩
    rw [hknown] at hmissing
    cases hmissing
  · have hmem := KeyedMap.mem_values.mpr hr
    rw [hcalm] at hmem
    cases hmem

end Scripts

end Rollforward
