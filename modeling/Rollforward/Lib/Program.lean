import Mathlib.Order.Defs.Unbundled
import Mathlib.Tactic.Common

/-! Programs that hold a private memory and call out to an environment.  A
program is a tree of calls: each node shows the memory at the moment of the
call, so a suspended program can be interleaved with others, cut, or resumed
with any answer.  `Meets` is the weakest-precondition reading of such a tree
over a state `H` that the calls drive. -/

namespace Rollforward.Lib

structure Interface where
  Req : Type
  Resp : Req → Type

inductive Prog (I : Interface) (σ α : Type) : Type
  | done (s : σ) (a : α)
  | call (s : σ) (q : I.Req) (k : I.Resp q → Prog I σ α)

structure Event (I : Interface) (σ : Type) where
  memory : σ
  req : I.Req
  resp : I.Resp req

namespace Prog

variable {I : Interface} {σ α β γ H : Type}

def memory : Prog I σ α → σ
  | .done s _ => s
  | .call s _ _ => s

def bind : Prog I σ α → (σ → α → Prog I σ β) → Prog I σ β
  | .done s a, f => f s a
  | .call s q k, f => .call s q fun r => (k r).bind f

theorem bind_assoc (p : Prog I σ α) (f : σ → α → Prog I σ β) (g : σ → β → Prog I σ γ) :
    (p.bind f).bind g = p.bind fun s a => (f s a).bind g := by
  induction p with
  | done s a => rfl
  | call s q k ih =>
    simp only [bind]
    congr 1
    funext r
    exact ih r

/-- `Meets T C Q p h`: started in `h`, every call `p` makes satisfies `C`, whatever
answers `T` allows, and `Q` holds when it is done. -/
def Meets (T : H → Event I σ → H → Prop) (C : H → σ → I.Req → Prop)
    (Q : H → σ → α → Prop) : Prog I σ α → H → Prop
  | .done s a, h => Q h s a
  | .call s q k, h => C h s q ∧ ∀ r h', T h ⟨s, q, r⟩ h' → (k r).Meets T C Q h'

variable {T : H → Event I σ → H → Prop} {C C' : H → σ → I.Req → Prop}

theorem Meets.imp {Q Q' : H → σ → α → Prop} {p : Prog I σ α} {h : H}
    (hp : p.Meets T C Q h) (hC : ∀ h s q, C h s q → C' h s q)
    (hQ : ∀ h s a, Q h s a → Q' h s a) : p.Meets T C' Q' h := by
  induction p generalizing h with
  | done s a => exact hQ _ _ _ hp
  | call s q k ih => exact ⟨hC _ _ _ hp.1, fun r h' ht => ih r (hp.2 r h' ht)⟩

/-- What is promised of a part of the history is promised of the whole. -/
theorem Meets.view {H' : Type} {T' : H' → Event I σ → H' → Prop} {Q : H → σ → α → Prop}
    {p : Prog I σ α} (f : H' → H) {h : H'} (hp : p.Meets T C Q (f h))
    (hT : ∀ h e h', T' h e h' → T (f h) e (f h')) :
    p.Meets T' (fun h => C (f h)) (fun h => Q (f h)) h := by
  induction p generalizing h with
  | done s a => exact hp
  | call s q k ih => exact ⟨hp.1, fun r h' ht => ih r (hp.2 r (f h') (hT _ _ _ ht))⟩

/-- What every call preserves holds at the end as well. -/
theorem Meets.and_invariant {Q : H → σ → α → Prop} {p : Prog I σ α} {h : H} {Inv : H → Prop}
    (hp : p.Meets T C Q h) (hT : ∀ h e h', T h e h' → Inv h → Inv h') (hinv : Inv h) :
    p.Meets T C (fun h s a => Q h s a ∧ Inv h) h := by
  induction p generalizing h with
  | done s a => exact ⟨hp, hinv⟩
  | call s q k ih => exact ⟨hp.1, fun r h' ht => ih r (hp.2 r h' ht) (hT _ _ _ ht hinv)⟩

theorem Meets.and {Q Q' : H → σ → α → Prop} {p : Prog I σ α} {h : H} (hp : p.Meets T C Q h)
    (hp' : p.Meets T C' Q' h) : p.Meets T C (fun h s a => Q h s a ∧ Q' h s a) h := by
  induction p generalizing h with
  | done s a => exact ⟨hp, hp'⟩
  | call s q k ih => exact ⟨hp.1, fun r h' ht => ih r (hp.2 r h' ht) (hp'.2 r h' ht)⟩

/-- What others may do in between takes nothing back, if the calls and the end allow for it. -/
theorem Meets.stable {R : H → H → Prop} {Q : H → σ → α → Prop} {p : Prog I σ α} {h h' : H}
    (hp : p.Meets T C Q h) (hT : ∀ h h' e h'', R h h' → T h' e h'' → T h e h'')
    (hC : ∀ h h' s q, R h h' → C h s q → C h' s q)
    (hQ : ∀ h h' s a, R h h' → Q h s a → Q h' s a) (hr : R h h') : p.Meets T C Q h' := by
  cases p with
  | done s a => exact hQ _ _ _ _ hr hp
  | call s q k => exact ⟨hC _ _ _ _ hr hp.1, fun r h'' ht => hp.2 r h'' (hT _ _ _ _ hr ht)⟩

theorem meets_forall {ι : Type} [Nonempty ι] {Q : ι → H → σ → α → Prop} {p : Prog I σ α} {h : H}
    (hp : ∀ i, p.Meets T C (Q i) h) : p.Meets T C (fun h s a => ∀ i, Q i h s a) h := by
  induction p generalizing h with
  | done s a => exact hp
  | call s q k ih =>
    exact ⟨(hp (Classical.arbitrary ι)).1, fun r h' ht => ih r fun i => (hp i).2 r h' ht⟩

theorem meets_bind {Q : H → σ → β → Prop} {p : Prog I σ α} {f : σ → α → Prog I σ β} {h : H} :
    (p.bind f).Meets T C Q h ↔ p.Meets T C (fun h s a => (f s a).Meets T C Q h) h := by
  induction p generalizing h with
  | done s a => rfl
  | call s q k ih => simp only [bind, Meets, ih]

/-- Every call of `p`, started from `s₀`, is in `K`, and the memory moves within `R`. -/
def Within (K : I.Req → Prop) (R : σ → σ → Prop) : Prog I σ α → σ → Prop
  | .done s _, s₀ => R s₀ s
  | .call s q k, s₀ => R s₀ s ∧ K q ∧ ∀ r, (k r).Within K R s

theorem Within.mono {K K' : I.Req → Prop} {R R' : σ → σ → Prop} {p : Prog I σ α} {s₀ : σ}
    (hp : p.Within K R s₀) (hK : ∀ q, K q → K' q) (hR : ∀ s s', R s s' → R' s s') :
    p.Within K' R' s₀ := by
  induction p generalizing s₀ with
  | done s a => exact hR _ _ hp
  | call s q k ih => exact ⟨hR _ _ hp.1, hK _ hp.2.1, fun r => ih r (hp.2.2 r)⟩

theorem Within.bind {K : I.Req → Prop} {R : σ → σ → Prop} [IsPreorder σ R] {p : Prog I σ α}
    {f : σ → α → Prog I σ β} {s₀ : σ} (hp : p.Within K R s₀)
    (hf : ∀ s a, (f s a).Within K R s) : (p.bind f).Within K R s₀ := by
  have hstart : ∀ {p : Prog I σ β} {s s' : σ}, R s s' → p.Within K R s' → p.Within K R s := by
    intro p s s' hs hp
    cases p with
    | done t a => exact trans_of R hs hp
    | call t q k => exact ⟨trans_of R hs hp.1, hp.2⟩
  induction p generalizing s₀ with
  | done s a => exact hstart hp (hf s a)
  | call s q k ih => exact ⟨hp.1, hp.2.1, fun r => ih r (hp.2.2 r)⟩

theorem Within.meets {K : I.Req → Prop} {R : σ → σ → Prop} {J : H → σ → Prop}
    {p : Prog I σ α} {h : H} {s₀ : σ} (hp : p.Within K R s₀)
    (hR : ∀ h s s', J h s → R s s' → J h s') (hC : ∀ h s q, J h s → K q → C h s q)
    (hT : ∀ h s q r h', J h s → K q → T h ⟨s, q, r⟩ h' → J h' s) (hj : J h s₀) :
    p.Meets T C (fun h s _ => J h s) h := by
  induction p generalizing h s₀ with
  | done s a => exact hR _ _ _ hj hp
  | call s q k ih =>
    have hs := hR _ _ _ hj hp.1
    exact ⟨hC _ _ _ hs hp.2.1, fun r h' ht => ih r (hp.2.2 r) (hT _ _ _ _ _ hs hp.2.1 ht)⟩

/-- `Exec T h p h' s a`: `p`, run to its end against `T` with nobody else moving. -/
inductive Exec (T : H → Event I σ → H → Prop) : H → Prog I σ α → H → σ → α → Prop
  | done : Exec T h (.done s a) h s a
  | call : T h ⟨s, q, r⟩ h' → Exec T h' (k r) h'' s' a → Exec T h (.call s q k) h'' s' a

theorem Meets.exec {Q : H → σ → α → Prop} {p : Prog I σ α} {h h' : H} {s : σ} {a : α}
    (hp : p.Meets T C Q h) (he : Exec T h p h' s a) : Q h' s a := by
  induction he with
  | done => exact hp
  | call ht _ ih => exact ih (hp.2 _ _ ht)

theorem meets_true (p : Prog I σ α) (h : H) :
    p.Meets T (fun _ _ _ => True) (fun _ _ _ => True) h := by
  induction p generalizing h with
  | done s a => trivial
  | call s q k ih => exact ⟨trivial, fun r h' _ => ih r h'⟩

/-- `p` with every call answered by `respond`. -/
def drive (respond : (q : I.Req) → I.Resp q) :
    Prog I σ α → List (Event I σ) → List (Event I σ) × σ × α
  | .done s a, h => (h, s, a)
  | .call s q k, h => (k (respond q)).drive respond (⟨s, q, respond q⟩ :: h)

theorem exec_done {h h' : H} {s s' : σ} {a a' : α} :
    Exec T h (.done s a) h' s' a' ↔ h' = h ∧ s' = s ∧ a' = a := by
  constructor
  · intro he
    cases he
    exact ⟨rfl, rfl, rfl⟩
  · rintro ⟨rfl, rfl, rfl⟩
    exact .done

theorem exec_bind {p : Prog I σ α} {f : σ → α → Prog I σ β} {h h' : H} {s' : σ} {b : β} :
    Exec T h (p.bind f) h' s' b ↔
      ∃ h₁ s₁ a, Exec T h p h₁ s₁ a ∧ Exec T h₁ (f s₁ a) h' s' b := by
  induction p generalizing h with
  | done s a =>
    constructor
    · intro he
      exact ⟨h, s, a, .done, he⟩
    · rintro ⟨h₁, s₁, a₁, hp, he⟩
      obtain ⟨rfl, rfl, rfl⟩ := exec_done.mp hp
      exact he
  | call s q k ih =>
    constructor
    · intro he
      cases he with
      | call ht he =>
        obtain ⟨h₁, s₁, a, hp, hf⟩ := (ih _).mp he
        exact ⟨h₁, s₁, a, .call ht hp, hf⟩
    · rintro ⟨h₁, s₁, a, hp, hf⟩
      cases hp with
      | call ht hp => exact .call ht ((ih _).mpr ⟨h₁, s₁, a, hp, hf⟩)

theorem Exec.mono {T' : H → Event I σ → H → Prop} {p : Prog I σ α} {h h' : H} {s : σ} {a : α}
    (he : Exec T h p h' s a) (hT : ∀ h e h', T h e h' → T' h e h') : Exec T' h p h' s a := by
  induction he with
  | done => exact .done
  | call ht _ ih => exact .call (hT _ _ _ ht) ih

/-- `After p h p'`: `p'` is what is left of `p` once the calls of `h`, newest first, are
answered. -/
inductive After (p : Prog I σ α) : List (Event I σ) → Prog I σ α → Prop
  | nil : After p [] p
  | cons : After p h (.call s q k) → After p (⟨s, q, r⟩ :: h) (k r)

/-- Histories of events that all satisfy `Fair`. -/
def fairly (Fair : Event I σ → Prop) (h : List (Event I σ)) (e : Event I σ)
    (h' : List (Event I σ)) : Prop := h' = e :: h ∧ Fair e

/-- What is promised may speak of the history that the calls leave. -/
theorem Meets.traced {Q : H → σ → α → Prop} {p : Prog I σ α} {h : H} (hp : p.Meets T C Q h)
    (h₀ : List (Event I σ)) :
    p.Meets (fun x e y => T x.1 e y.1 ∧ y.2 = e :: x.2) (fun x => C x.1)
      (fun x s a => Q x.1 s a ∧ Exec (fairly fun _ => True) h₀ p x.2 s a) (h, h₀) := by
  induction p generalizing h h₀ with
  | done s a => exact ⟨hp, .done⟩
  | call s q k ih =>
    refine ⟨hp.1, fun r y ht => Meets.imp (ih r (hp.2 r y.1 ht.1) y.2) (fun _ _ _ hc => hc) ?_⟩
    intro x s' a hx
    exact ⟨hx.1, .call ⟨ht.2, trivial⟩ hx.2⟩

theorem exec_drive (respond : (q : I.Req) → I.Resp q) (p : Prog I σ α) (h : List (Event I σ)) :
    Exec (fairly fun _ => True) h p (p.drive respond h).1 (p.drive respond h).2.1
      (p.drive respond h).2.2 := by
  induction p generalizing h with
  | done s a => exact .done
  | call s q k ih => exact .call ⟨rfl, trivial⟩ (ih (respond q) _)

/-- Where every call can be answered, every program can be brought to an end. -/
theorem exists_exec {Fair : Event I σ → Prop} (hfair : ∀ s q, ∃ r, Fair ⟨s, q, r⟩)
    (p : Prog I σ α) (h : List (Event I σ)) : ∃ h' s a, Exec (fairly Fair) h p h' s a := by
  induction p generalizing h with
  | done s a => exact ⟨h, s, a, .done⟩
  | call s q k ih =>
    obtain ⟨r, hr⟩ := hfair s q
    obtain ⟨h', s', a, hexec⟩ := ih r (⟨s, q, r⟩ :: h)
    exact ⟨h', s', a, .call ⟨rfl, hr⟩ hexec⟩

theorem Exec.suffix {Fair : Event I σ → Prop} {p : Prog I σ α} {h h' : List (Event I σ)} {s : σ}
    {a : α} (he : Exec (fairly Fair) h p h' s a) : h <:+ h' := by
  induction he with
  | done => exact List.suffix_rfl
  | call ht _ ih =>
    rw [ht.1] at ih
    exact (List.suffix_cons _ _).trans ih

/-- A run does not look at what was recorded before it. -/
theorem Exec.shift {Fair : Event I σ → Prop} {p : Prog I σ α} {h h' : List (Event I σ)} {s : σ}
    {a : α} (he : Exec (fairly Fair) h p h' s a) :
    ∃ added, h' = added ++ h ∧ ∀ h₀, Exec (fairly Fair) h₀ p (added ++ h₀) s a := by
  induction he with
  | done => exact ⟨[], rfl, fun _ => .done⟩
  | @call h s q r h₁ k h' s' a ht _ ih =>
    obtain ⟨added, rfl, hshift⟩ := ih
    refine ⟨added ++ [⟨s, q, r⟩], by rw [ht.1]; simp, fun h₀ => .call ⟨rfl, ht.2⟩ ?_⟩
    simpa using hshift (⟨s, q, r⟩ :: h₀)

/-- A program does what its answers say: one recorded history, one run. -/
theorem Exec.determined {Fair : Event I σ → Prop} {p : Prog I σ α}
    {h h₁ h₂ h' : List (Event I σ)} {s₁ s₂ : σ} {a₁ a₂ : α}
    (he₁ : Exec (fairly Fair) h p h₁ s₁ a₁) (hh₁ : h₁ <:+ h')
    (he₂ : Exec (fairly Fair) h p h₂ s₂ a₂) (hh₂ : h₂ <:+ h') :
    h₁ = h₂ ∧ s₁ = s₂ ∧ a₁ = a₂ := by
  induction he₁ with
  | done =>
    obtain ⟨rfl, rfl, rfl⟩ := exec_done.mp he₂
    exact ⟨rfl, rfl, rfl⟩
  | call ht₁ hk₁ ih =>
    cases he₂ with
    | call ht₂ hk₂ =>
      -- both answers are the next event of the history
      have hnext : ∀ {e e' : Event I σ} {h : List (Event I σ)},
          e :: h <:+ h' → e' :: h <:+ h' → e = e' := by
        intro e e' h he he'
        have hsuffix := List.suffix_of_suffix_length_le he he' (Nat.le_refl _)
        exact (List.cons.inj (hsuffix.eq_of_length rfl)).1
      have h₁ := hk₁.suffix
      have h₂ := hk₂.suffix
      rw [ht₁.1] at h₁
      rw [ht₂.1] at h₂
      obtain rfl := eq_of_heq (Event.mk.inj (hnext (h₁.trans hh₁) (h₂.trans hh₂))).2.2
      rw [ht₂.1, ← ht₁.1] at hk₂
      exact ih hh₁ hk₂

/-- A run adds calls of its footprint to the history. -/
theorem Within.exec {Fair : Event I σ → Prop} {K : I.Req → Prop} {R : σ → σ → Prop}
    [IsPreorder σ R] {p : Prog I σ α} {h h' : List (Event I σ)} {s₀ s : σ} {a : α}
    (hp : p.Within K R s₀) (he : Exec (fairly Fair) h p h' s a) :
    R s₀ s ∧ ∃ added, h' = added ++ h ∧ ∀ e ∈ added, K e.req := by
  induction he generalizing s₀ with
  | done => exact ⟨hp, [], rfl, by simp⟩
  | @call h s q r h₁ k h' s' a ht _ ih =>
    obtain ⟨hs, added, rfl, hadded⟩ := ih (hp.2.2 r)
    refine ⟨trans_of R hp.1 hs, added ++ [⟨s, q, r⟩], by rw [ht.1]; simp, ?_⟩
    intro e he
    rcases List.mem_append.mp he with he | he
    · exact hadded e he
    · rw [List.mem_singleton.mp he]
      exact hp.2.1

theorem Meets.after {Fair : Event I σ → Prop} {C : List (Event I σ) → σ → I.Req → Prop}
    {Q : List (Event I σ) → σ → α → Prop} {p p' : Prog I σ α} {h : List (Event I σ)}
    (hp : p.Meets (fairly Fair) C Q []) (ha : After p h p') (hfair : ∀ e ∈ h, Fair e) :
    p'.Meets (fairly Fair) C Q h := by
  induction ha with
  | nil => exact hp
  | cons _ ih =>
    obtain ⟨he, hrest⟩ := List.forall_mem_cons.mp hfair
    exact (ih hrest).2 _ _ ⟨rfl, he⟩

/-- A program of which nothing is left was run to its end. -/
theorem After.exec {Fair : Event I σ → Prop} {p p' : Prog I σ α} {h h' : List (Event I σ)} {s : σ}
    {a : α} (ha : After p h p') (hfair : ∀ e ∈ h, Fair e)
    (he : Exec (fairly Fair) h p' h' s a) : Exec (fairly Fair) [] p h' s a := by
  induction ha with
  | nil => exact he
  | cons _ ih =>
    obtain ⟨hnow, hrest⟩ := List.forall_mem_cons.mp hfair
    exact ih hrest (.call ⟨rfl, hnow⟩ he)

/-- Every call that was answered was one that `C` allows. -/
theorem Meets.past {Fair : Event I σ → Prop} {C : List (Event I σ) → σ → I.Req → Prop}
    {Q : List (Event I σ) → σ → α → Prop} {p p' : Prog I σ α} {h h₀ : List (Event I σ)}
    (hp : p.Meets (fairly Fair) C Q []) (ha : After p h p') (hfair : ∀ e ∈ h, Fair e)
    {e : Event I σ} (he : e :: h₀ <:+ h) : C h₀ e.memory e.req := by
  induction ha with
  | nil => simp at he
  | cons ha ih =>
    obtain ⟨-, hrest⟩ := List.forall_mem_cons.mp hfair
    rcases List.suffix_cons_iff.mp he with heq | he
    · obtain ⟨rfl, rfl⟩ := List.cons.inj heq
      exact (hp.after ha hrest).1
    · exact ih hrest he

end Prog

/-- A computation reads and writes the memory and may fail; the memory survives
a failure. -/
def Comp (I : Interface) (σ ε α : Type) := σ → Prog I σ (Except ε α)

namespace Comp

variable {I : Interface} {σ ε α β γ H : Type}

instance : Monad (Comp I σ ε) where
  pure a := fun s => .done s (.ok a)
  bind x f := fun s => (x s).bind fun s r =>
    match r with
    | .ok a => f a s
    | .error e => .done s (.error e)

instance : LawfulMonad (Comp I σ ε) := by
  refine LawfulMonad.mk' _ ?_ ?_ ?_
  · intro α x
    funext s
    change Prog.bind (x s) _ = x s
    induction x s with
    | done s r => cases r <;> rfl
    | call s q k ih =>
      simp only [Prog.bind]
      congr 1
      funext r
      exact ih r
  · intro α β a f
    rfl
  · intro α β γ x f g
    funext s
    refine (Prog.bind_assoc _ _ _).trans ?_
    congr 1
    funext s r
    cases r <;> rfl

def get : Comp I σ ε σ := fun s => .done s (.ok s)

def modify (f : σ → σ) : Comp I σ ε Unit := fun s => .done (f s) (.ok ())

def throw (e : ε) : Comp I σ ε α := fun s => .done s (.error e)

def ofExcept (x : Except ε α) : Comp I σ ε α := fun s => .done s x

/-- Call out with `q` and read the answer as an outcome. -/
def request (q : I.Req) (f : I.Resp q → Except ε α) : Comp I σ ε α :=
  fun s => .call s q fun r => .done s (f r)

/-- The outcome of a computation as a value. -/
def attempt (x : Comp I σ ε α) : Comp I σ ε (Except ε α) :=
  fun s => (x s).bind fun s r => .done s (.ok r)

def wp (T : H → Event I σ → H → Prop) (C : H → σ → I.Req → Prop)
    (E : H → σ → ε → Prop) (x : Comp I σ ε α) (Q : H → σ → α → Prop) (h : H) (s : σ) : Prop :=
  (x s).Meets T C (fun h s r =>
    match r with
    | .ok a => Q h s a
    | .error e => E h s e) h

section Rules

variable {T : H → Event I σ → H → Prop} {C : H → σ → I.Req → Prop} {E : H → σ → ε → Prop}
variable {h : H} {s : σ}

theorem wp_mono {E' : H → σ → ε → Prop} {x : Comp I σ ε α} {Q Q' : H → σ → α → Prop}
    (hx : wp T C E x Q h s) (hE : ∀ h s e, E h s e → E' h s e)
    (hQ : ∀ h s a, Q h s a → Q' h s a) : wp T C E' x Q' h s := by
  refine Prog.Meets.imp hx (fun _ _ _ hc => hc) ?_
  rintro h s (e | a) hr
  · exact hE _ _ _ hr
  · exact hQ _ _ _ hr

theorem wp_imp {x : Comp I σ ε α} {Q Q' : H → σ → α → Prop} (hx : wp T C E x Q h s)
    (hQ : ∀ h s a, Q h s a → Q' h s a) : wp T C E x Q' h s :=
  wp_mono hx (fun _ _ _ he => he) hQ

theorem wp_and_invariant {x : Comp I σ ε α} {Q : H → σ → α → Prop} {J : H → Prop}
    (hx : wp T C E x Q h s) (hT : ∀ h e h', T h e h' → J h → J h') (hinv : J h) :
    wp T C E x (fun h s a => Q h s a ∧ J h) h s := by
  refine Prog.Meets.imp (Prog.Meets.and_invariant hx hT hinv) (fun _ _ _ hc => hc) ?_
  rintro h s (e | a) hr
  · exact hr.1
  · exact hr

theorem wp_both {C' : H → σ → I.Req → Prop} {E' : H → σ → ε → Prop} {x : Comp I σ ε α}
    {Q Q' : H → σ → α → Prop} (hx : wp T C E x Q h s) (hx' : wp T C' E' x Q' h s) :
    wp T C (fun h s e => E h s e ∧ E' h s e) x (fun h s a => Q h s a ∧ Q' h s a) h s := by
  refine Prog.Meets.imp (Prog.Meets.and hx hx') (fun _ _ _ hc => hc) ?_
  rintro h s (e | a) hr
  · exact hr
  · exact hr

theorem wp_any (x : Comp I σ ε α) :
    wp T (fun _ _ _ => True) (fun _ _ _ => True) x (fun _ _ _ => True) h s := by
  refine Prog.Meets.imp (Prog.meets_true (x s) h) (fun _ _ _ hc => hc) ?_
  rintro h s (e | a) - <;> trivial

theorem wp_forall {ι : Type} [Nonempty ι] {x : Comp I σ ε α} {Q : ι → H → σ → α → Prop}
    (hx : ∀ i, wp T C E x (Q i) h s) : wp T C E x (fun h s a => ∀ i, Q i h s a) h s := by
  refine Prog.Meets.imp (Prog.meets_forall hx) (fun _ _ _ hc => hc) ?_
  rintro h s (e | a) hr
  · exact hr (Classical.arbitrary ι)
  · exact hr

theorem wp_and {C' : H → σ → I.Req → Prop} {E' : H → σ → ε → Prop} {x : Comp I σ ε α}
    {Q Q' : H → σ → α → Prop} (hx : wp T C E x Q h s) (hx' : wp T C' E' x Q' h s) :
    wp T C E x (fun h s a => Q h s a ∧ Q' h s a) h s :=
  wp_mono (wp_both hx hx') (fun _ _ _ he => he.1) fun _ _ _ hq => hq

/-- What is promised may speak of the history that the calls leave. -/
theorem wp_traced {x : Comp I σ ε α} {Q : H → σ → α → Prop} (hx : wp T C E x Q h s)
    (h₀ : List (Event I σ)) :
    wp (fun x e y => T x.1 e y.1 ∧ y.2 = e :: x.2) (fun x => C x.1) (fun x => E x.1) x
      (fun y s' a => Q y.1 s' a ∧ Prog.Exec (Prog.fairly fun _ => True) h₀ (x s) y.2 s' (.ok a))
      (h, h₀) s := by
  refine Prog.Meets.imp (Prog.Meets.traced hx h₀) (fun _ _ _ hc => hc) ?_
  rintro y s' (e | a) ⟨hq, hexec⟩
  · exact hq
  · exact ⟨hq, hexec⟩

@[simp] theorem wp_pure {a : α} {Q : H → σ → α → Prop} :
    wp T C E (pure a) Q h s ↔ Q h s a := Iff.rfl

@[simp] theorem wp_get {Q : H → σ → σ → Prop} : wp T C E get Q h s ↔ Q h s s := Iff.rfl

@[simp] theorem wp_modify {f : σ → σ} {Q : H → σ → Unit → Prop} :
    wp T C E (modify f) Q h s ↔ Q h (f s) () := Iff.rfl

@[simp] theorem wp_throw {e : ε} {Q : H → σ → α → Prop} :
    wp T C E (throw e) Q h s ↔ E h s e := Iff.rfl

@[simp] theorem wp_ofExcept_ok {a : α} {Q : H → σ → α → Prop} :
    wp T C E (ofExcept (.ok a)) Q h s ↔ Q h s a := Iff.rfl

@[simp] theorem wp_ofExcept_error {e : ε} {Q : H → σ → α → Prop} :
    wp T C E (ofExcept (.error e)) Q h s ↔ E h s e := Iff.rfl

theorem wp_ofExcept {x : Except ε α} {Q : H → σ → α → Prop} :
    wp T C E (ofExcept x) Q h s ↔ (∀ a, x = .ok a → Q h s a) ∧ (∀ e, x = .error e → E h s e) := by
  cases x <;> simp

theorem wp_request {q : I.Req} {f : I.Resp q → Except ε α} {Q : H → σ → α → Prop} :
    wp T C E (request q f) Q h s ↔ C h s q ∧ ∀ r h', T h ⟨s, q, r⟩ h' →
      (∀ a, f r = .ok a → Q h' s a) ∧ (∀ e, f r = .error e → E h' s e) := by
  refine and_congr_right fun _ => forall_congr' fun r => forall_congr' fun h' =>
    imp_congr_right fun _ => ?_
  change (match f r with
    | .ok a => Q h' s a
    | .error e => E h' s e) ↔ _
  cases f r <;> simp

@[simp] theorem wp_bind {x : Comp I σ ε α} {f : α → Comp I σ ε β} {Q : H → σ → β → Prop} :
    wp T C E (x >>= f) Q h s ↔ wp T C E x (fun h s a => wp T C E (f a) Q h s) h s := by
  rw [wp, wp, show (x >>= f) s = (x s).bind _ from rfl, Prog.meets_bind]
  constructor <;> refine fun hx => Prog.Meets.imp hx (fun _ _ _ hc => hc) ?_ <;>
    rintro h s (e | a) hr <;> exact hr

@[simp] theorem wp_attempt {x : Comp I σ ε α} {Q : H → σ → Except ε α → Prop} :
    wp T C E (attempt x) Q h s ↔
      wp T C (fun h s e => Q h s (.error e)) x (fun h s a => Q h s (.ok a)) h s := by
  rw [wp, attempt, Prog.meets_bind]
  constructor <;> refine fun hx => Prog.Meets.imp hx (fun _ _ _ hc => hc) ?_ <;>
    rintro h s (e | a) hr <;> exact hr

@[simp] theorem wp_ite {p : Prop} [Decidable p] {x y : Comp I σ ε α} {Q : H → σ → α → Prop} :
    wp T C E (if p then x else y) Q h s ↔
      (p → wp T C E x Q h s) ∧ (¬p → wp T C E y Q h s) := by
  by_cases hp : p <;> simp [hp]

/-- The loop rule: what each turn preserves holds after the loop.  The invariant
may mention the items still to come. -/
theorem wp_foldlM {f : γ → β → Comp I σ ε γ} (Inv : List β → H → σ → γ → Prop)
    (step : ∀ x xs h s a, Inv (x :: xs) h s a → wp T C E (f a x) (Inv xs) h s)
    {xs : List β} {a : γ} (hinit : Inv xs h s a) :
    wp T C E (xs.foldlM f a) (Inv []) h s := by
  induction xs generalizing h s a with
  | nil => exact hinit
  | cons x xs ih =>
    rw [List.foldlM_cons, wp_bind]
    exact wp_imp (step x xs h s a hinit) fun h s a ha => ih ha

end Rules

section Runs

variable {T : H → Event I σ → H → Prop} {h h' : H} {s s' : σ}

theorem exec_bind {x : Comp I σ ε α} {f : α → Comp I σ ε β} {r : Except ε β} :
    Prog.Exec T h ((x >>= f) s) h' s' r ↔
      (∃ h₁ s₁ a, Prog.Exec T h (x s) h₁ s₁ (.ok a) ∧ Prog.Exec T h₁ (f a s₁) h' s' r) ∨
        ∃ e, r = .error e ∧ Prog.Exec T h (x s) h' s' (.error e) := by
  rw [show (x >>= f) s = (x s).bind _ from rfl, Prog.exec_bind]
  constructor
  · rintro ⟨h₁, s₁, e | a, hx, hf⟩
    · obtain ⟨rfl, rfl, rfl⟩ := Prog.exec_done.mp hf
      exact Or.inr ⟨e, rfl, hx⟩
    · exact Or.inl ⟨h₁, s₁, a, hx, hf⟩
  · rintro (⟨h₁, s₁, a, hx, hf⟩ | ⟨e, rfl, hx⟩)
    · exact ⟨h₁, s₁, .ok a, hx, hf⟩
    · exact ⟨h', s', .error e, hx, .done⟩

theorem exec_bind_ok {x : Comp I σ ε α} {f : α → Comp I σ ε β} {b : β} :
    Prog.Exec T h ((x >>= f) s) h' s' (.ok b) ↔
      ∃ h₁ s₁ a, Prog.Exec T h (x s) h₁ s₁ (.ok a) ∧ Prog.Exec T h₁ (f a s₁) h' s' (.ok b) := by
  rw [exec_bind]
  constructor
  · rintro (hok | ⟨e, he, -⟩)
    · exact hok
    · cases he
  · exact Or.inl

theorem exec_attempt {x : Comp I σ ε α} {r : Except ε (Except ε α)} :
    Prog.Exec T h (attempt x s) h' s' r ↔ ∃ o, r = .ok o ∧ Prog.Exec T h (x s) h' s' o := by
  rw [attempt, Prog.exec_bind]
  constructor
  · rintro ⟨h₁, s₁, o, hx, hr⟩
    obtain ⟨rfl, rfl, rfl⟩ := Prog.exec_done.mp hr
    exact ⟨o, rfl, hx⟩
  · rintro ⟨o, rfl, hx⟩
    exact ⟨h', s', o, hx, .done⟩

/-- What holds of every outcome holds of the run that was. -/
theorem wp.exec {C : H → σ → I.Req → Prop} {E : H → σ → ε → Prop} {Q : H → σ → α → Prop}
    {x : Comp I σ ε α} {a : α} (hx : wp T C E x Q h s)
    (he : Prog.Exec T h (x s) h' s' (.ok a)) : Q h' s' a := by
  rw [wp] at hx
  exact hx.exec he

theorem exec_foldlM_append {f : γ → β → Comp I σ ε γ} {xs ys : List β} {a b : γ} :
    Prog.Exec T h ((xs ++ ys).foldlM f a s) h' s' (.ok b) ↔
      ∃ h₁ s₁ a₁, Prog.Exec T h (xs.foldlM f a s) h₁ s₁ (.ok a₁) ∧
        Prog.Exec T h₁ (ys.foldlM f a₁ s₁) h' s' (.ok b) := by
  induction xs generalizing h s a with
  | nil =>
    constructor
    · intro he
      exact ⟨h, s, a, .done, he⟩
    · rintro ⟨h₁, s₁, a₁, hnil, he⟩
      obtain ⟨rfl, rfl, e⟩ := Prog.exec_done.mp hnil
      rw [Except.ok.inj e] at he
      exact he
  | cons x xs ih =>
    simp only [List.cons_append, List.foldlM_cons, exec_bind_ok, ih]
    constructor
    · rintro ⟨h₂, s₂, a₂, hx, h₁, s₁, a₁, hxs, he⟩
      exact ⟨h₁, s₁, a₁, ⟨h₂, s₂, a₂, hx, hxs⟩, he⟩
    · rintro ⟨h₁, s₁, a₁, ⟨h₂, s₂, a₂, hx, hxs⟩, he⟩
      exact ⟨h₂, s₂, a₂, hx, h₁, s₁, a₁, hxs, he⟩

/-- The loop rule over one run: each turn may use how the run came to it and how it went on. -/
theorem exec_foldlM {f : γ → β → Comp I σ ε γ} {xs : List β} {a b : γ}
    (Inv : List β → H → σ → γ → Prop) (hexec : Prog.Exec T h (xs.foldlM f a s) h' s' (.ok b))
    (hinit : Inv [] h s a)
    (step : ∀ before x after, xs = before ++ x :: after → ∀ h₁ s₁ a₁ h₂ s₂ a₂,
      Prog.Exec T h (before.foldlM f a s) h₁ s₁ (.ok a₁) →
      Prog.Exec T h₁ (f a₁ x s₁) h₂ s₂ (.ok a₂) →
      Prog.Exec T h₂ (after.foldlM f a₂ s₂) h' s' (.ok b) →
      Inv before h₁ s₁ a₁ → Inv (before ++ [x]) h₂ s₂ a₂) : Inv xs h' s' b := by
  have hrest : ∀ after before h₁ s₁ a₁, xs = before ++ after →
      Prog.Exec T h (before.foldlM f a s) h₁ s₁ (.ok a₁) →
      Prog.Exec T h₁ (after.foldlM f a₁ s₁) h' s' (.ok b) → Inv before h₁ s₁ a₁ →
      Inv xs h' s' b := by
    intro after
    induction after with
    | nil =>
      intro before h₁ s₁ a₁ hxs _ hafter hinv
      obtain ⟨rfl, rfl, e⟩ := Prog.exec_done.mp hafter
      rw [Except.ok.inj e, hxs, List.append_nil]
      exact hinv
    | cons x after ih =>
      intro before h₁ s₁ a₁ hxs hbefore hafter hinv
      rw [List.foldlM_cons, exec_bind_ok] at hafter
      obtain ⟨h₂, s₂, a₂, hx, hafter⟩ := hafter
      apply ih (before ++ [x]) h₂ s₂ a₂
      · rw [hxs, List.append_assoc, List.singleton_append]
      · refine exec_foldlM_append.mpr ⟨h₁, s₁, a₁, hbefore, ?_⟩
        rw [List.foldlM_cons, exec_bind_ok]
        exact ⟨h₂, s₂, a₂, hx, .done⟩
      · exact hafter
      · exact step before x after hxs h₁ s₁ a₁ h₂ s₂ a₂ hbefore hx hafter hinv
  exact hrest xs [] h s a rfl .done hexec hinit

end Runs

/-- The footprint of a computation: it makes only calls of `K`, and between two calls the
memory moves within `R`. -/
def Within (K : I.Req → Prop) (R : σ → σ → Prop) (x : Comp I σ ε α) : Prop :=
  ∀ s, (x s).Within K R s

namespace Within

variable {K : I.Req → Prop} {R : σ → σ → Prop}

theorem modify {f : σ → σ} (hf : ∀ s, R s (f s)) :
    Within K R (Comp.modify f : Comp I σ ε Unit) := fun s => hf s

theorem mono {K' : I.Req → Prop} {R' : σ → σ → Prop} {x : Comp I σ ε α} (hx : Within K R x)
    (hK : ∀ q, K q → K' q) (hR : ∀ s s', R s s' → R' s s') : Within K' R' x :=
  fun s => (hx s).mono hK hR

/-- An invariant that the footprint cannot break holds at every call and at the end. -/
theorem wp {T : H → Event I σ → H → Prop} {C : H → σ → I.Req → Prop} {J : H → σ → Prop}
    {x : Comp I σ ε α} (hx : Within K R x) (hR : ∀ h s s', J h s → R s s' → J h s')
    (hC : ∀ h s q, J h s → K q → C h s q)
    (hT : ∀ h s q r h', J h s → K q → T h ⟨s, q, r⟩ h' → J h' s) {h : H} {s : σ} (hj : J h s) :
    Comp.wp T C (fun h s _ => J h s) x (fun h s _ => J h s) h s := by
  refine Prog.Meets.imp ((hx s).meets hR hC hT hj) (fun _ _ _ hc => hc) ?_
  rintro h s (e | a) hr
  · exact hr
  · exact hr

variable [IsPreorder σ R]

/-- Against recorded histories, a footprint is all there is to say. -/
theorem frame {Fair : Event I σ → Prop} {C : List (Event I σ) → σ → I.Req → Prop}
    {x : Comp I σ ε α} (hx : Within K R x) (hC : ∀ h s q, K q → C h s q)
    (h : List (Event I σ)) (s : σ) :
    Comp.wp (Prog.fairly Fair) C (fun h' s' _ => R s s' ∧ h <:+ h') x
      (fun h' s' _ => R s s' ∧ h <:+ h') h s := by
  refine hx.wp (J := fun h' s' => R s s' ∧ h <:+ h') ?_ ?_ ?_ ⟨refl_of R s, List.suffix_rfl⟩
  · exact fun h₁ s₁ s₂ hj hs => ⟨trans_of R hj.1 hs, hj.2⟩
  · exact fun h₁ s₁ q _ hq => hC h₁ s₁ q hq
  · rintro h₁ s₁ q r _ hj _ ⟨rfl, -⟩
    exact ⟨hj.1, hj.2.trans (List.suffix_cons _ _)⟩

theorem pure (a : α) : Within K R (Pure.pure a : Comp I σ ε α) := fun s => refl_of R s

theorem get : Within K R (Comp.get : Comp I σ ε σ) := fun s => refl_of R s

theorem throw (e : ε) : Within K R (Comp.throw e : Comp I σ ε α) := fun s => refl_of R s

theorem ofExcept (x : Except ε α) : Within K R (Comp.ofExcept x : Comp I σ ε α) :=
  fun s => refl_of R s

theorem request {q : I.Req} (hq : K q) (f : I.Resp q → Except ε α) :
    Within K R (Comp.request q f : Comp I σ ε α) :=
  fun s => ⟨refl_of R s, hq, fun _ => refl_of R s⟩

theorem bind {x : Comp I σ ε α} {f : α → Comp I σ ε β} (hx : Within K R x)
    (hf : ∀ a, Within K R (f a)) : Within K R (x >>= f) := by
  refine fun s => (hx s).bind ?_
  rintro s (e | a)
  · exact refl_of R s
  · exact hf a s

/-- What a run has added to the history was in the footprint. -/
theorem exec_added {Fair : Event I σ → Prop} {x : Comp I σ ε α} {h h' h₀ : List (Event I σ)}
    {e : Event I σ} {s s' : σ} {r : Except ε α} (hx : Within K R x)
    (hexec : Prog.Exec (Prog.fairly Fair) h (x s) h' s' r) (he : e :: h₀ <:+ h')
    (hh : h <:+ h₀) : K e.req := by
  obtain ⟨-, added, rfl, hadded⟩ := (hx s).exec hexec
  obtain ⟨older, rfl⟩ := hh
  obtain ⟨newer, hnewer⟩ := he
  rw [← List.cons_append, ← List.append_assoc, List.append_cancel_right_eq] at hnewer
  apply hadded
  rw [← hnewer]
  exact List.mem_append_right _ List.mem_cons_self

/-- A call outside the footprint of the first part is made by the rest. -/
theorem exec_reaches {Fair : Event I σ → Prop} {x : Comp I σ ε α} {f : α → Comp I σ ε β}
    {h h' h₀ : List (Event I σ)} {e : Event I σ} {s s' : σ} {r : Except ε β} (hx : Within K R x)
    (hexec : Prog.Exec (Prog.fairly Fair) h ((x >>= f) s) h' s' r) (he : e :: h₀ <:+ h')
    (hh : h <:+ h₀) (hnot : ¬ K e.req) : ∃ h₁ s₁ a, h₁ <:+ h₀ ∧
      Prog.Exec (Prog.fairly Fair) h (x s) h₁ s₁ (.ok a) ∧
      Prog.Exec (Prog.fairly Fair) h₁ (f a s₁) h' s' r := by
  have hlater : ∀ {h₁ s₁ o}, Prog.Exec (Prog.fairly Fair) h (x s) h₁ s₁ o → ¬ e :: h₀ <:+ h₁ :=
    fun hfirst hsuffix => hnot (hx.exec_added hfirst hsuffix hh)
  rcases Comp.exec_bind.mp hexec with ⟨h₁, s₁, a, hfirst, hrest⟩ | ⟨error, -, hfirst⟩
  · refine ⟨h₁, s₁, a, ?_, hfirst, hrest⟩
    rcases List.suffix_or_suffix_of_suffix he hrest.suffix with hsuffix | hsuffix
    · exact absurd hsuffix (hlater hfirst)
    · rcases List.suffix_cons_iff.mp hsuffix with rfl | hsuffix
      · exact absurd List.suffix_rfl (hlater hfirst)
      · exact hsuffix
  · exact absurd he (hlater hfirst)

theorem ofExcept_bind {x : Except ε α} {f : α → Comp I σ ε β}
    (hf : ∀ a, x = .ok a → Within K R (f a)) : Within K R (Comp.ofExcept x >>= f) := by
  intro s
  cases x with
  | error e => exact refl_of R s
  | ok a => exact hf a rfl s

theorem foldlM {f : γ → β → Comp I σ ε γ} (hf : ∀ a x, Within K R (f a x)) (xs : List β)
    (a : γ) : Within K R (xs.foldlM f a) := by
  induction xs generalizing a with
  | nil => exact pure a
  | cons x xs ih => exact bind (hf a x) ih

theorem foldlM_mem {f : γ → β → Comp I σ ε γ} {xs : List β}
    (hf : ∀ x ∈ xs, ∀ a, Within K R (f a x)) (a : γ) : Within K R (xs.foldlM f a) := by
  induction xs generalizing a with
  | nil => exact pure a
  | cons x xs ih =>
    obtain ⟨hx, hxs⟩ := List.forall_mem_cons.mp hf
    exact bind (hx a) (ih hxs)

theorem attempt {x : Comp I σ ε α} (hx : Within K R x) : Within K R (Comp.attempt x) :=
  fun s => (hx s).bind fun s _ => refl_of R s

end Within

end Comp

end Rollforward.Lib
