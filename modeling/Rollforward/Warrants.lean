import Rollforward.Agreement
import Rollforward.Scenes
import Rollforward.Storage.Corruption

/-! A baseline of a binary resource names a published content, and says no more of its version
than is true, whatever is edited while a client looks at its files. -/

namespace Rollforward

open Std Lib

/-- The mutation is for a file with this token. -/
def LocalMutation.Expects (versionToken : String) : LocalMutation → Prop
  | .writePresent _ _ precondition | .applyDelete _ precondition =>
    precondition = .version versionToken
  | .createCopy .. => False

section Stable

variable [Crates] {S : Setting} {key : ResourceKey} {scene later : Scene} {s t : RuntimeState}

namespace Scene

/-- As far as the token tells, the file has the content. -/
structure Tells (scene : Scene) (key : ResourceKey) (contentId versionToken : String) : Prop where
  used : scene.Used key versionToken
  content : ∀ data, scene.files[key]? = some ⟨some data, versionToken⟩ → blake3 data = contentId

/-- A version with the content is published. -/
def Holds (scene : Scene) (key : ResourceKey) (contentId : String) : Prop :=
  ∃ x ∈ scene.published, x.resource = key ∧ ∃ size, x.change.snapshot? = some (contentId, size)

/-- What a baseline may say. -/
def Warrants (scene : Scene) (key : ResourceKey) : BaselineState → Prop
  | .present contentId localVersion _ => scene.Tells key contentId localVersion ∧
    scene.Holds key contentId
  | .deleted _ => True

/-- What a listed state may say. -/
def Reports (scene : Scene) (key : ResourceKey) : ReplicaState → Prop
  | .present contentId _ versionToken => scene.Tells key contentId versionToken
  | .deleted versionToken => (key, ⟨none, versionToken⟩) ∈ scene.versions
  | .missing => True

/-- The baseline that is kept under the name of the resource. -/
def Warranted (scene : Scene) (key : ResourceKey) (s : RuntimeState) : Prop :=
  ∀ entry, s.baselines.get? key.encoded = some entry → scene.Warrants key entry.state

/-- With the baseline, the commits of the resource are what they should be. -/
structure Vouches (scene : Scene) (key : ResourceKey) (s : RuntimeState) : Prop where
  created : ∀ x ∈ s.commits, x.Created
  held : ∀ x ∈ s.commits, x.resource = key → x ∈ scene.published
  warranted : scene.Warranted key s

/-- No content of the resource is replaced or removed that is not published. -/
def Safe (scene : Scene) (key : ResourceKey) : Req → Prop
  | .applyMutations mutations => ∀ mutation ∈ mutations, mutation.key = key →
    ∀ versionToken, mutation.Expects versionToken → scene.Used key versionToken ∧
      ∀ data, scene.files[key]? = some ⟨some data, versionToken⟩ → scene.Holds key (blake3 data)
  | _ => True

theorem Tells.lasts {contentId versionToken : String}
    (h : scene.Tells key contentId versionToken) (hl : scene.Until later) :
    later.Tells key contentId versionToken where
  used := h.used.mono hl
  content data hfile := h.content data (hl.files key _ hfile h.used)

theorem Holds.lasts {contentId : String} (h : scene.Holds key contentId)
    (hl : scene.Until later) : later.Holds key contentId := by
  obtain ⟨x, hx, hrest⟩ := h
  exact ⟨x, hl.published x hx, hrest⟩

theorem Warrants.lasts {state : BaselineState} (h : scene.Warrants key state)
    (hl : scene.Until later) : later.Warrants key state := by
  cases state with
  | present => exact ⟨h.1.lasts hl, h.2.lasts hl⟩
  | deleted => trivial

theorem Reports.lasts {state : ReplicaState} (h : scene.Reports key state)
    (hl : scene.Until later) : later.Reports key state := by
  cases state with
  | present => exact Tells.lasts h hl
  | deleted => exact hl.versions _ h
  | missing => trivial

theorem Warranted.lasts (h : scene.Warranted key s) (hl : scene.Until later) :
    later.Warranted key s := fun entry hentry => (h entry hentry).lasts hl

theorem Vouches.lasts (h : scene.Vouches key s) (hl : scene.Until later) :
    later.Vouches key s where
  created := h.created
  held x hx hkey := hl.published x (h.held x hx hkey)
  warranted := h.warranted.lasts hl

theorem Safe.lasts {q : Req} (h : scene.Safe key q) (hl : scene.Until later) :
    later.Safe key q := by
  cases q with
  | applyMutations mutations =>
    intro mutation hm hkey versionToken hexpects
    obtain ⟨hused, hholds⟩ := h mutation hm hkey versionToken hexpects
    exact ⟨hused.mono hl, fun data hfile => (hholds data (hl.files key _ hfile hused)).lasts hl⟩
  | _ => trivial

/-- A version with the token is the version with the token. -/
theorem Lawful.tells (h : scene.Lawful S) {data : Bytes} {versionToken : String}
    (hmem : (key, ⟨some data, versionToken⟩) ∈ scene.versions) :
    scene.Tells key (blake3 data) versionToken where
  used := ⟨_, hmem, rfl⟩
  content data' hfile := by
    have heq := h.apart.eq (h.files key _ hfile) hmem rfl
    obtain rfl : data' = data := Option.some.inj (File.mk.inj heq).1
    rfl

theorem Lawful.gone (h : scene.Lawful S) {data : Bytes} {versionToken : String}
    (hmem : (key, ⟨none, versionToken⟩) ∈ scene.versions) :
    scene.files[key]? ≠ some ⟨some data, versionToken⟩ := by
  intro hfile
  have heq := h.apart.eq (h.files key _ hfile) hmem rfl
  cases (File.mk.inj heq).1

theorem Warranted.empty (scene : Scene) : scene.Warranted key {} := fun entry hentry => by
  rw [KeyedMap.get?_empty] at hentry
  cases hentry

theorem Warranted.of_same (h : scene.Warranted key s)
    (hsame : t.baselines.get? key.encoded = s.baselines.get? key.encoded) :
    scene.Warranted key t := fun entry hentry => h entry (hsame ▸ hentry)

/-- What a call was made with was published. -/
theorem Warranted.vouches (h : scene.Warranted key s) (hlawful : scene.Lawful S)
    (hheld : ∀ x ∈ s.commits, x ∈ scene.published) : scene.Vouches key s where
  created x hx := hlawful.created x (hheld x hx)
  held x hx _ := hheld x hx
  warranted := h

theorem Vouches.spared (h : scene.Vouches key s) (hs : Spares key s t) :
    scene.Vouches key t := by
  obtain ⟨hcommits, hbaseline, -⟩ := hs h.created
  refine ⟨hcommits.created, fun x hx hkey => ?_, h.warranted.of_same hbaseline⟩
  exact h.held x ((hcommits.commits x hkey).mp hx) hkey

theorem Vouches.of_same (h : scene.Vouches key s) (hcommits : t.commits = s.commits)
    (hbaseline : t.baselines.get? key.encoded = s.baselines.get? key.encoded) :
    scene.Vouches key t where
  created := hcommits ▸ h.created
  held := hcommits ▸ h.held
  warranted := h.warranted.of_same hbaseline

theorem Vouches.same (h : scene.Vouches key s) (hs : SameBase s t) : scene.Vouches key t :=
  h.of_same hs.commits (by rw [hs.baselines])

/-- A baseline is set, of the resource or of another. -/
theorem Vouches.present (h : scene.Vouches key s) (hown : key.Own []) {key' : ResourceKey}
    {contentId version : String} {heads : List String}
    (hnew : key' = key → scene.Warrants key (.present contentId version heads)) :
    scene.Vouches key (s.setPresentBaseline key' contentId version heads) where
  created := h.created
  held := h.held
  warranted entry hentry := by
    rw [RuntimeState.setPresentBaseline, KeyedMap.get?_insert] at hentry
    split at hentry
    · next hname =>
      obtain rfl := Option.some.inj hentry
      exact hnew (hown key' rfl hname)
    · exact h.warranted entry hentry

theorem Vouches.deleted (h : scene.Vouches key s) (key' : ResourceKey) (heads : List String) :
    scene.Vouches key (s.setDeletedBaseline key' heads) where
  created := h.created
  held := h.held
  warranted entry hentry := by
    rw [RuntimeState.setDeletedBaseline, KeyedMap.get?_insert] at hentry
    split at hentry
    · obtain rfl := Option.some.inj hentry
      trivial
    · exact h.warranted entry hentry

theorem Vouches.insert (h : scene.Vouches key s) (hlawful : scene.Lawful S) {x : Commit}
    (hx : x ∈ scene.published) :
    scene.Vouches key { s with commits := s.commits.insert x } where
  created y hy := by
    rcases KeyedMap.mem_insert.mp hy with rfl | hy
    · exact hlawful.created y hx
    · exact h.created y hy.1
  held y hy hkey := by
    rcases KeyedMap.mem_insert.mp hy with rfl | hy
    · exact hx
    · exact h.held y hy.1 hkey
  warranted := h.warranted

end Scene

end Stable

section Minding

variable [Crates] {S : Setting} {scene : Scene} {s : RuntimeState}
variable {J K : Scene → RuntimeState → Prop} {G : Scene → Req → Prop}

/-- What lasts while the others move. -/
def Lasts (J : Scene → RuntimeState → Prop) : Prop :=
  ∀ ⦃scene later s⦄, J scene s → scene.Until later → J later s

structure Scene.Follows (S : Setting) (scene later : Scene) : Prop where
  since : scene.Until later
  lawful : later.Lawful S

/-- Whatever the others do in between, `J` holds at every call of `x` and at its end, and the
calls are those of `G`. -/
def Minds (S : Setting) (J : Scene → RuntimeState → Prop) (G : Scene → Req → Prop) (x : Sync α)
    (Q : Scene → RuntimeState → α → Prop) (scene : Scene) (s : RuntimeState) : Prop :=
  Comp.wp (Scene.Answers S) (fun scene s q => J scene s ∧ G scene q) (fun scene s _ => J scene s) x
    (fun later t a => J later t ∧ Q later t a) scene s

theorem Scene.Lawful.follows (h : scene.Lawful S) : scene.Follows S scene := ⟨.refl scene, h⟩

theorem Scene.Follows.trans {later last : Scene} (h : scene.Follows S later)
    (h' : later.Follows S last) : scene.Follows S last := ⟨h.since.trans h'.since, h'.lawful⟩

theorem Minds.imp {x : Sync α} {Q Q' : Scene → RuntimeState → α → Prop}
    (hx : Minds S J G x Q scene s) (hQ : ∀ later t a, J later t → Q later t a → Q' later t a) :
    Minds S J G x Q' scene s :=
  Comp.wp_imp hx fun later t a h => ⟨h.1, hQ later t a h.1 h.2⟩

theorem Minds.weaken {x : Sync α} {Q : Scene → RuntimeState → α → Prop}
    (hx : Minds S K G x Q scene s) (hK : ∀ scene s, K scene s → J scene s) :
    Minds S J G x (fun later t a => K later t ∧ Q later t a) scene s := by
  refine Prog.Meets.imp hx (fun _ _ _ hc => ⟨hK _ _ hc.1, hc.2⟩) ?_
  intro later t r hr
  cases r with
  | ok a => exact ⟨hK _ _ hr.1, hr⟩
  | error e => exact hK _ _ hr

theorem Minds.bind {x : Sync α} {f : α → Sync β} {Q : Scene → RuntimeState → α → Prop}
    {Q' : Scene → RuntimeState → β → Prop} (hlawful : scene.Lawful S)
    (hx : Minds S J G x Q scene s)
    (hf : ∀ later t a, scene.Follows S later → J later t → Q later t a →
      Minds S J G (f a) Q' later t) : Minds S J G (x >>= f) Q' scene s := by
  have hstep : ∀ (first : Scene) (e : SyncEvent) (next : Scene), first.Answers S e next →
      scene.Follows S first → scene.Follows S next :=
    fun _ _ _ he hfirst => ⟨hfirst.since.trans he.since, he.lawful⟩
  exact Comp.wp_bind.mpr (Comp.wp_imp (Comp.wp_and_invariant hx hstep hlawful.follows)
    fun later t a h => hf later t a h.2 h.1.1 h.1.2)

theorem Minds.request (hJ : Lasts J) {q : Req} {f : q.Resp → Except SyncError α}
    {Q : Scene → RuntimeState → α → Prop} (hj : J scene s) (hg : G scene q)
    (hq : ∀ r later a, scene.Answers S ⟨s, q, r⟩ later → f r = .ok a → Q later s a) :
    Minds S J G (Comp.request q f) Q scene s :=
  Comp.wp_request.mpr ⟨⟨hj, hg⟩, fun r later he =>
    ⟨fun a ha => ⟨hJ hj he.since, hq r later a he ha⟩, fun _ _ => hJ hj he.since⟩⟩

theorem Minds.ofExcept {x : Except SyncError α} {Q : Scene → RuntimeState → α → Prop}
    (hj : J scene s) (hx : ∀ a, x = .ok a → Q scene s a) :
    Minds S J G (Comp.ofExcept x) Q scene s :=
  Comp.wp_ofExcept.mpr ⟨fun a ha => ⟨hj, hx a ha⟩, fun _ _ => hj⟩

/-- The loop rule: each turn may count on all that went before it. -/
theorem Minds.foldlM {f : γ → β → Sync γ} (Inv : List β → Scene → RuntimeState → γ → Prop)
    (step : ∀ x xs later t a, scene.Follows S later → J later t → Inv (x :: xs) later t a →
      Minds S J G (f a x) (Inv xs) later t)
    {xs : List β} {a : γ} (hlawful : scene.Lawful S) (hj : J scene s) (hinit : Inv xs scene s a) :
    Minds S J G (xs.foldlM f a) (Inv []) scene s := by
  have hloop : ∀ later t a, scene.Follows S later → J later t → Inv xs later t a →
      Minds S J G (xs.foldlM f a) (Inv []) later t := by
    clear hinit
    induction xs with
    | nil => exact fun later t a _ hj hinit => ⟨hj, hinit⟩
    | cons x xs ih =>
      intro later t a hfollows hj hinit
      rw [List.foldlM_cons]
      apply Minds.bind hfollows.lawful (step x xs later t a hfollows hj hinit)
      exact fun later' t' a' hfollows' hj' hinit' =>
        ih later' t' a' (hfollows.trans hfollows') hj' hinit'
  exact hloop scene s a hlawful.follows hj hinit

/-- The frame rule: a footprint under which `J` stays. -/
theorem Comp.Within.minds {K : Req → Prop} {R : RuntimeState → RuntimeState → Prop}
    [IsPreorder RuntimeState R] {x : Sync α} (hx : Comp.Within K R x) (hJ : Lasts J)
    (hK : ∀ scene q, K q → G scene q) (hR : ∀ scene s t, J scene s → R s t → J scene t)
    (hj : J scene s) : Minds S J G x (fun _ t _ => R s t) scene s := by
  have hboth : Comp.wp (Scene.Answers S) (fun scene s q => J scene s ∧ G scene q)
      (fun later t _ => J later t ∧ R s t) x (fun later t _ => J later t ∧ R s t) scene s := by
    refine hx.wp (J := fun later t => J later t ∧ R s t) ?_ ?_ ?_ ⟨hj, refl_of R s⟩
    · exact fun later t u h hr => ⟨hR later t u h.1 hr, trans_of R h.2 hr⟩
    · exact fun later t q h hq => ⟨h.1, hK later q hq⟩
    · exact fun later t q r last h _ he => ⟨hJ h.1 he.since, h.2⟩
  exact Comp.wp_mono hboth (fun _ _ _ h => h.1) fun _ _ _ h => h

/-- What is known of any answers is known of these. -/
theorem Minds.and {x : Sync α} {Q Q' : Scene → RuntimeState → α → Prop}
    {C : Scene → RuntimeState → Req → Prop} {E : Scene → RuntimeState → SyncError → Prop}
    (hx : Minds S J G x Q scene s) (hx' : Comp.wp (Scene.Answers S) C E x Q' scene s) :
    Minds S J G x (fun later t a => Q later t a ∧ Q' later t a) scene s :=
  Comp.wp_imp (Comp.wp_and hx hx') fun _ _ _ h => ⟨h.1.1, h.1.2, h.2⟩

theorem Reads.minds {x : Sync α} (hx : Reads x) (hJ : Lasts J)
    (hK : ∀ scene q, IsRead q → G scene q) (hj : J scene s) :
    Minds S J G x (fun _ t _ => t = s) scene s := by
  refine Minds.imp (Comp.Within.minds hx hJ hK ?_ hj) fun _ _ _ _ h => h.symm
  intro _ _ _ hj he
  exact he ▸ hj

/-- A single mutation, as far as it is applied. -/
theorem applyMutation_minds (hJ : Lasts J) {mutation : LocalMutation} {noResult : String}
    {refused : Option String → String} (hj : J scene s) (hg : G scene (.applyMutations [mutation]))
    (hlawful : scene.Lawful S) :
    Minds S J G (applyMutation mutation noResult refused) (fun later t result => t = s ∧
      ∃ versionToken, result.versionToken = some versionToken ∧
        mutation.Made later.versions versionToken) scene s := by
  rw [applyMutation]
  refine Minds.bind hlawful (Q := fun later t results => t = s ∧
    List.Forall₂ (fun mutation result => result.status = .applied →
      ∃ versionToken, result.versionToken = some versionToken ∧
        mutation.Made later.versions versionToken) [mutation] results)
    (Minds.request hJ hj hg ?_) ?_
  · intro r later results he hr
    obtain rfl : r = .ok results := hr
    exact ⟨rfl, he.fair⟩
  · rintro later t results - hj' ⟨rfl, hresults⟩
    cases hresults with
    | cons hfirst _ =>
      exact Comp.wp_ite.mpr ⟨fun hstatus => ⟨hj', rfl, hfirst hstatus⟩, fun _ => hj'⟩

theorem Fair.unaltered {published : List Commit} {versions : List (ResourceKey × File)}
    {e : SyncEvent} (h : Fair S published versions e) : Unaltered () e () := by
  unfold Unaltered
  split
  · next ranges sent =>
    intro hash data hdata
    obtain ⟨part, hmem, he⟩ := List.mem_map.mp (Map.mem_of_get?_ofList hdata)
    obtain ⟨rfl, rfl⟩ := Prod.mk.inj he
    obtain ⟨range, -, hhash, hdigest⟩ := exists_left_of_forall₂ h hmem
    rw [hhash, hdigest]
  · trivial

theorem contentForRemote_minds (hinj : Function.Injective (blake3 : Bytes → String)) (hJ : Lasts J)
    (hK : ∀ scene q, IsRead q → G scene q) (hj : J scene s) (key : ResourceKey)
    (selectedHead : Option String) :
    Minds S J G (contentForRemote key selectedHead) (fun _ t data => t = s ∧
      ∀ x, s.Selects key selectedHead x → x.Vouches data) scene s := by
  refine Minds.and (C := fun _ _ _ => True) (E := fun _ _ _ => True)
    ((contentForRemote_reads key selectedHead).minds hJ hK hj) ?_
  refine Comp.wp_mono (Prog.Meets.view (fun _ => ()) (contentForRemote_vouched
    (C := fun _ _ _ => True) hinj fun _ _ _ => trivial) fun _ _ _ he => he.fair.unaltered)
    (fun _ _ _ he => he) fun _ _ _ hq => hq

end Minding

section Listing

variable [Crates] {S : Setting} {key : ResourceKey} {scene : Scene} {s : RuntimeState}
variable {J : Scene → RuntimeState → Prop} {G : Scene → Req → Prop}
variable {scopes : List String} {locals : List LocalResource}

/-- What an inventory that was taken some time ago says. -/
structure Scene.Lists (S : Setting) (scene : Scene) (key : ResourceKey) (scopes : List String)
    (locals : List LocalResource) : Prop where
  inventoried : Inventoried S scopes locals
  reports : ∀ resource ∈ locals, resource.key = key → scene.Reports key resource.state

theorem Scene.Lists.lasts {later : Scene} (h : scene.Lists S key scopes locals)
    (hl : scene.Until later) : later.Lists S key scopes locals :=
  ⟨h.inventoried, fun resource hr hkey => (h.reports resource hr hkey).lasts hl⟩

theorem Scene.Lists.localStateOf (h : scene.Lists S key scopes locals) :
    scene.Reports key (localStateOf locals key) := by
  rw [Rollforward.localStateOf, localMap]
  cases hfound : (ExtTreeMap.ofList (locals.map fun resource => (resource.key, resource)) compare :
      Map ResourceKey LocalResource)[key]? with
  | none => trivial
  | some resource =>
    obtain ⟨resource', hmem, he⟩ := List.mem_map.mp (Map.mem_of_get?_ofList hfound)
    obtain ⟨hkey, rfl⟩ := Prod.mk.inj he
    exact h.reports resource' hmem hkey

omit [Crates] in
theorem Setting.mem_read {files : Files} {keys : List ResourceKey} {content : ResourceContent}
    (h : content ∈ S.read files keys) : content.kind = S.kindOf content.key ∧
      files[content.key]? = some ⟨some content.data, content.versionToken⟩ := by
  obtain ⟨key, -, hread⟩ := List.mem_filterMap.mp h
  obtain ⟨⟨data, versionToken⟩, hfile, hdata⟩ := Option.bind_eq_some_iff.mp hread
  obtain ⟨bytes, hb, rfl⟩ := Option.map_eq_some_iff.mp hdata
  obtain rfl : data = some bytes := hb
  exact ⟨rfl, hfile⟩

/-- The baseline answers for the digest that it fills in. -/
theorem Scene.Warranted.tells (h : scene.Warranted key s) {contentId versionToken : String}
    (hcached : s.cachedId key versionToken = some contentId) :
    scene.Tells key contentId versionToken := by
  rw [RuntimeState.cachedId] at hcached
  cases hentry : s.baselines.get? key.encoded with
  | none =>
    rw [hentry] at hcached
    cases hcached
  | some entry =>
    have hwarrants := h entry hentry
    obtain ⟨key', state⟩ := entry
    rw [hentry] at hcached
    cases state with
    | deleted heads => cases hcached
    | present cached localVersion heads =>
      simp only [Option.map_some] at hcached
      split at hcached
      · next hversion =>
        obtain rfl := Option.some.inj hcached
        exact hversion ▸ hwarrants.1
      · cases hcached

theorem Scene.Lawful.reports (hlawful : scene.Lawful S) (h : scene.Warranted key s) {file : File}
    (hfile : scene.files[key]? = some file) {state : ReplicaState}
    (hshown : file.ShownAs s key state) : scene.Reports key state := by
  have hmem := hlawful.files key file hfile
  obtain ⟨data, versionToken⟩ := file
  cases data with
  | none =>
    obtain rfl : state = .deleted versionToken := hshown
    exact hmem
  | some data =>
    obtain ⟨contentId, rfl, rfl | hcached⟩ := hshown
    · exact hlawful.tells hmem
    · exact h.tells hcached

/-- A digest that is read later is put beside the token that was listed: it is right if the
file still has the token. -/
theorem fillRead_reports {keys : List ResourceKey} {resource resource' : LocalResource}
    (hkey : resource.key = key) (hbefore : scene.Reports key resource.state ∨
      ∃ size versionToken, resource.state = .present "" size versionToken ∧
        scene.Used key versionToken)
    (h : fillRead (contentMap (S.read scene.files keys)) resource = .ok resource') :
    scene.Reports key resource'.state := by
  rw [fillRead] at h
  split at h
  · next contentId size versionToken hstate =>
    have hused : scene.Used key versionToken := by
      rw [hstate] at hbefore
      rcases hbefore with htells | ⟨_, _, he, hused⟩
      · exact htells.used
      · exact (ReplicaState.present.inj he).2.2 ▸ hused
    split at h
    · split at h
      · next content hcontent =>
        obtain rfl := Except.ok.inj h
        obtain ⟨content', hmem, he⟩ := List.mem_map.mp (Map.mem_of_get?_ofList hcontent)
        obtain ⟨hname, rfl⟩ := Prod.mk.inj he
        obtain ⟨-, hfile⟩ := Setting.mem_read hmem
        rw [hname, hkey] at hfile
        refine ⟨hused, fun data hdata => ?_⟩
        have hsame := (File.mk.inj (Option.some.inj (hdata.symm.trans hfile))).1
        rw [Option.some.inj hsame]
      · cases h
    · next hfull =>
      obtain rfl := Except.ok.inj h
      rcases hbefore with hreports | ⟨_, _, he, -⟩
      · exact hreports
      · rw [hstate] at he
        exact absurd (ReplicaState.present.inj he).1 hfull
  · next hpresent =>
    obtain rfl := Except.ok.inj h
    rcases hbefore with hreports | ⟨_, _, he, -⟩
    · exact hreports
    · exact absurd he (hpresent _ _ _)

theorem localInventory_minds (hJ : Lasts J) (hJw : ∀ scene s, J scene s → scene.Warranted key s)
    (hK : ∀ scene q, IsRead q → G scene q) (hlawful : scene.Lawful S) (hj : J scene s)
    (scopes : List String) :
    Minds S J G (localInventory scopes) (fun later t locals => t = s ∧ later.Vouches key s ∧
      later.Lists S key scopes locals) scene s := by
  refine Comp.wp_bind.mpr (Comp.wp_get.mpr ?_)
  refine Minds.bind hlawful (Q := fun later t resources => t = s ∧ later.Vouches key s ∧
    ∃ withId, resources = S.list later.files scopes withId)
    (Minds.request hJ hj (hK _ _ trivial) ?_) ?_
  · intro r later resources he hr
    obtain rfl : r = .ok resources := hr
    exact ⟨rfl, ((hJw _ _ hj).lasts he.since).vouches he.lawful he.memory, he.shown⟩
  rintro later t _ hfollows hj' ⟨rfl, hvouches, withId, rfl⟩
  have hlisted : ∀ resource ∈ S.list later.files scopes withId, resource.key = key →
      later.Reports key (t.fillCached resource).state ∨ t.needsRead resource = true ∧
        ∃ size versionToken, (t.fillCached resource).state = .present "" size versionToken ∧
          later.Used key versionToken := by
    rintro resource hr rfl
    obtain ⟨file, hfile, -, he⟩ := Setting.mem_list.mp hr
    have hstate : resource.state = file.state (withId resource.key) := by rw [he]
    rcases fillCached_shown t hstate with hshown | ⟨hneeds, data, hdata, hfilled⟩
    · exact Or.inl (hfollows.lawful.reports (hJw _ _ hj') hfile hshown)
    · exact Or.inr ⟨hneeds, _, _, hfilled, file, hfollows.lawful.files _ _ hfile, rfl⟩
  have hinventoried : Inventoried S scopes
      ((S.list later.files scopes withId).map t.fillCached) := by
    intro resource hr
    obtain ⟨listed, hl, rfl⟩ := List.mem_map.mp hr
    obtain ⟨hkey, hkind⟩ := fillCached_key t listed
    rw [hkey, hkind]
    exact Setting.list_inventoried later.files withId listed hl
  dsimp only
  refine Comp.wp_ite.mpr ⟨fun hreads => ⟨hj', rfl, hvouches, hinventoried, ?_⟩, fun _ => ?_⟩
  · intro resource hr hkey
    obtain ⟨listed, hl, rfl⟩ := List.mem_map.mp hr
    rw [(fillCached_key t listed).1] at hkey
    rcases hlisted listed hl hkey with hreports | ⟨hneeds, -⟩
    · exact hreports
    · have hmem := List.mem_map_of_mem (f := LocalResource.key) (List.mem_filter.mpr ⟨hl, hneeds⟩)
      rw [hreads] at hmem
      cases hmem
  · refine Minds.bind hfollows.lawful (Q := fun last u contents => u = t ∧
      later.Until last ∧ ∃ keys, contents = S.read last.files keys)
      (Minds.request hJ hj' (hK _ _ trivial) ?_) ?_
    · intro r last contents he hr
      obtain rfl : r = .ok contents := hr
      exact ⟨rfl, he.since, _, he.shown⟩
    rintro last u _ - hj'' ⟨rfl, hsince, keys, rfl⟩
    refine Minds.ofExcept hj'' fun locals hlocals => ⟨rfl, hvouches.lasts hsince,
      fun resource hr => ?_, fun resource hr hkey => ?_⟩
    · obtain ⟨filled, hmem, hfill⟩ := exists_of_mem_mapM hlocals hr
      obtain ⟨hkey, hkind⟩ := fillRead_key hfill
      rw [hkey, hkind]
      exact hinventoried filled hmem
    · obtain ⟨filled, hmem, hfill⟩ := exists_of_mem_mapM hlocals hr
      obtain ⟨listed, hl, rfl⟩ := List.mem_map.mp hmem
      have hfilled : (u.fillCached listed).key = key := (fillRead_key hfill).1.symm.trans hkey
      refine fillRead_reports hfilled ?_ hfill
      rw [(fillCached_key u listed).1] at hfilled
      rcases hlisted listed hl hfilled with hreports | ⟨-, size, versionToken, hstate, hused⟩
      · exact Or.inl (hreports.lasts hsince)
      · exact Or.inr ⟨size, versionToken, hstate, hused.mono hsince⟩

end Listing

end Rollforward
