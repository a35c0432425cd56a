import Rollforward.System

/-! A small concrete set of crates to run the model with: digests spell their
input in hex, a file is cut only where it must be, and a text is a set of letters tagged with
their client and clock, kept beside the set of the deleted ones. -/

namespace Rollforward.Sample

open Std Lib

structure Letter where
  client : Nat
  clock : Nat
  char : Char
  deriving DecidableEq

namespace Letter

def order : Letter → Letter → Ordering :=
  compareLex (compareOn client) (compareLex (compareOn clock) (compareOn fun l => l.char.toNat))

instance : Ord Letter := ⟨order⟩

instance : TransOrd Letter :=
  inferInstanceAs (TransCmp (compareLex (compareOn client)
    (compareLex (compareOn clock) (compareOn fun l : Letter => l.char.toNat))))

instance : LawfulEqOrd Letter where
  compare_self := by
    intro a
    change ((compare a.client a.client).then ((compare a.clock a.clock).then
      (compare a.char.toNat a.char.toNat))) = .eq
    simp
  eq_of_compare := by
    intro a b h
    change ((compare a.client b.client).then ((compare a.clock b.clock).then
      (compare a.char.toNat b.char.toNat))) = .eq at h
    rw [Ordering.then_eq_eq, Ordering.then_eq_eq, Std.compare_eq_iff_eq, Std.compare_eq_iff_eq,
      Std.compare_eq_iff_eq] at h
    cases a; cases b
    simpa [Char.toNat_inj] using h

end Letter

abbrev Letters := ExtTreeSet Letter compare

structure Doc where
  inserted : Letters := ∅
  deleted : Letters := ∅

namespace Doc

def visible (doc : Doc) : List Letter :=
  doc.inserted.toList.filter fun letter => letter ∉ doc.deleted

def text (doc : Doc) : String := String.ofList (doc.visible.map Letter.char)

def merge (doc update : Doc) : Doc where
  inserted := doc.inserted.insertMany update.inserted.toList
  deleted := doc.deleted.insertMany update.deleted.toList

def remove (doc : Doc) (start length : Nat) : Doc :=
  { doc with deleted := doc.deleted.insertMany ((doc.visible.drop start).take length) }

def letters (client clock : Nat) : List Char → List Letter
  | [] => []
  | char :: chars => ⟨client, clock, char⟩ :: letters client (clock + 1) chars

/-- New letters follow the old ones of the same client. -/
def add (client : Nat) (doc : Doc) (text : String) : Doc :=
  let clock := (doc.inserted.toList.filter fun letter => letter.client = client).length
  { doc with inserted := doc.inserted.insertMany (letters client clock text.toList) }

/-- The letters not in `known`, and every deletion. -/
def since (doc : Doc) (known : Letters) : Doc :=
  { doc with inserted := doc.inserted.filter fun letter => letter ∉ known }

end Doc

def hexChar (n : Nat) : Char := if n < 10 then Char.ofNat (48 + n) else Char.ofNat (87 + n)

def hex (data : Bytes) : String :=
  String.ofList (data.flatMap fun byte => [hexChar (byte.toNat / 16), hexChar (byte.toNat % 16)])

/-- Cut points as far apart as `limit` allows. -/
def cuts (limit : Nat) : Nat → Nat → Nat → List (Nat × Nat)
  | 0, _, _ => []
  | fuel + 1, start, rest =>
    if rest = 0 then []
    else if rest ≤ limit then [(start, rest)]
    else (start, limit) :: cuts limit fuel (start + limit) (rest - limit)

@[reducible] def crates : Crates where
  Update := Doc
  Doc := Doc
  StateVector := Letters
  new := {}
  getString := Doc.text
  removeRange := Doc.remove
  insert client doc _ text := doc.add client text
  stateVector := Doc.inserted
  noState := ∅
  encodeStateAsUpdate := Doc.since
  applyUpdate doc update := .ok (doc.merge update)
  blake3 := hex
  fastcdc data _ _ limit := cuts limit data.length 0 data.length
  commitBytes _ _ _ _ timestamp _ := textBytes (toString timestamp)
  conflictBytes key _ _ _ := textBytes key.encoded

theorem hexChar_mem {n : Nat} (h : n < 16) : hexChar n ∈ "0123456789abcdef".toList := by
  decide +revert

theorem mem_hex {data : Bytes} {char : Char} (h : char ∈ (hex data).toList) :
    char ∈ "0123456789abcdef".toList := by
  simp only [hex, String.toList_ofList, List.mem_flatMap, List.mem_cons, List.not_mem_nil,
    or_false] at h
  obtain ⟨byte, -, rfl | rfl⟩ := h
  · exact hexChar_mem (by have := byte.toNat_lt; omega)
  · exact hexChar_mem (Nat.mod_lt _ (by omega))

theorem colon_notMem_hex (data : Bytes) : ':' ∉ (hex data).toList :=
  fun h => absurd (mem_hex h) (by decide)

theorem dot_notMem_hex (data : Bytes) : '.' ∉ (hex data).toList :=
  fun h => absurd (mem_hex h) (by decide)

theorem hexChar_inj {m n : Nat} (hm : m < 16) (hn : n < 16) (h : hexChar m = hexChar n) : m = n := by
  have hall : ∀ m < 16, ∀ n < 16, hexChar m = hexChar n → m = n := by decide
  exact hall m hm n hn h

theorem hex_injective : Function.Injective hex := by
  intro a b h
  replace h := String.ofList_injective h
  induction a generalizing b with
  | nil =>
    cases b with
    | nil => rfl
    | cons y b => simp at h
  | cons x a ih =>
    cases b with
    | nil => simp at h
    | cons y b =>
      simp only [List.flatMap_cons, List.cons_append, List.nil_append, List.cons.injEq] at h
      obtain ⟨hhi, hlo, hrest⟩ := h
      have hx := x.toNat_lt
      have hy := y.toNat_lt
      replace hhi := hexChar_inj (by omega) (by omega) hhi
      replace hlo := hexChar_inj (Nat.mod_lt _ (by omega)) (Nat.mod_lt _ (by omega)) hlo
      rw [ih hrest, UInt8.toNat.inj (show x.toNat = y.toNat by omega)]

section Players

variable [Crates]

/-- The call a client waits in, if it is a batch. -/
def batchOf (w : World) (client : String) : Option CommitBatch :=
  match (w.clients client).prog with
  | .call _ (.commitBatch batch) _ => some batch
  | _ => none

theorem call_of_batchOf {w : World} {client : String} {batch : CommitBatch}
    (h : batchOf w client = some batch) : ∃ s k,
      (w.clients client).prog = .call s (.commitBatch batch) k := by
  unfold batchOf at h
  split at h
  · next s _ k hp =>
    obtain rfl := Option.some.inj h
    exact ⟨s, k, hp⟩
  · cases h

/-- The request of the `reconcile` that a client runs. -/
def reconciling (w : World) (c : String) : Option SyncRequest :=
  match (w.clients c).command with
  | some (.reconcile request) => some request
  | _ => none

theorem command_of_reconciling {w : World} {c : String} {request : SyncRequest}
    (h : reconciling w c = some request) : (w.clients c).command = some (.reconcile request) := by
  unfold reconciling at h
  split at h
  · next hc =>
    obtain rfl := Option.some.inj h
    exact hc
  · cases h

def finished (w : World) (client : String) : Option RuntimeState :=
  match (w.clients client).prog with
  | .done s (.ok _) => some s
  | _ => none

theorem done_of_finished {w : World} {client : String} {s : RuntimeState}
    (h : finished w client = some s) : (w.clients client).prog = .done s (.ok ()) := by
  unfold finished at h
  split at h
  · next hp =>
    obtain rfl := Option.some.inj h
    exact hp
  · cases h

/-- What a host answers when nothing goes wrong; `clock` tells answers apart. -/
def reply (clock : Nat) : Req → Answer
  | .listResources _ => .shown fun _ => true
  | .applyMutations _ => .token (toString clock) false
  | .nowMillis => .millis clock
  | .randomClientId => .clientId clock
  | _ => .serve

/-- A line of a script: a step of the run, or as many answers to one client. -/
inductive Line
  | step (label : Label)
  | answers (client : String) (calls : Nat)

variable (S : Setting) (ok : World → Label → Prop) [∀ w, DecidablePred (ok w)]

def go (w : World) (label : Label) : Option World := if ok w label then w.step S label else none

def answers (client : String) : Nat → Nat → World → Option World
  | 0, _, w => some w
  | calls + 1, clock, w =>
    match (w.clients client).prog with
    | .done _ _ => some w
    | .call _ q _ => do
      let w ← go S ok w (.answer client (reply clock q))
      answers client calls (clock + 1) w

/-- The world at the end of a script, every line of which starts a hundred ticks later. -/
def play : List Line → Nat → World → Option World
  | [], _, w => some w
  | .step label :: lines, clock, w => do
    let w ← go S ok w label
    play lines (clock + 100) w
  | .answers client calls :: lines, clock, w => do
    let w ← answers S ok client calls clock w
    play lines (clock + 100) w

variable {S ok}

theorem go_next {w w' : World} {label : Label} (h : go S ok w label = some w') :
    World.Next S ok w w' := by
  unfold go at h
  split at h
  · next hok => exact ⟨label, hok, h⟩
  · cases h

theorem answers_reach {client : String} {calls clock : Nat} {w w' : World}
    (h : answers S ok client calls clock w = some w') :
    Relation.ReflTransGen (World.Next S ok) w w' := by
  induction calls generalizing clock w with
  | zero =>
    cases h
    exact .refl
  | succ calls ih =>
    rw [answers] at h
    split at h
    · cases h
      exact .refl
    · obtain ⟨v, hv, h⟩ := Option.bind_eq_some_iff.mp h
      exact .head (go_next hv) (ih h)

/-- Every world a script ends in is reached by a run. -/
theorem play_reach {lines : List Line} {clock : Nat} {w w' : World}
    (h : play S ok lines clock w = some w') : Relation.ReflTransGen (World.Next S ok) w w' := by
  induction lines generalizing clock w with
  | nil =>
    cases h
    exact .refl
  | cons line lines ih =>
    cases line with
    | step label =>
      obtain ⟨v, hv, h⟩ := Option.bind_eq_some_iff.mp h
      exact .head (go_next hv) (ih h)
    | answers client calls =>
      obtain ⟨v, hv, h⟩ := Option.bind_eq_some_iff.mp h
      exact (answers_reach hv).trans (ih h)

/-- A script shows a reachable world with any property it ends in. -/
theorem exists_reachable (S : Setting) (ok : World → Label → Prop) [∀ w, DecidablePred (ok w)]
    (lines : List Line) (p : World → Bool)
    (h : (play S ok lines 0 {}).any p = true) : ∃ w, World.Reachable S ok w ∧ p w = true := by
  obtain ⟨w, hw, hp⟩ := (Option.any_eq_true _ _).mp h
  exact ⟨w, play_reach hw, hp⟩

/-- Two scripts, one after the other. -/
theorem exists_later (S : Setting) (ok : World → Label → Prop) [∀ w, DecidablePred (ok w)]
    (lines later : List Line) (p : World → World → Bool)
    (h : ((play S ok lines 0 {}).any fun w₁ => (play S ok later 9000 w₁).any (p w₁)) = true) :
    ∃ w₁ w₂, World.Reachable S ok w₁ ∧ Relation.ReflTransGen (World.Next S ok) w₁ w₂ ∧
      p w₁ w₂ = true := by
  obtain ⟨w₁, hw₁, h⟩ := (Option.any_eq_true _ _).mp h
  obtain ⟨w₂, hw₂, hp⟩ := (Option.any_eq_true _ _).mp h
  exact ⟨w₁, w₂, play_reach hw₁, play_reach hw₂, hp⟩

/-- A version of a file. -/
def text (content token : String) : Option File := some ⟨some (textBytes content), token⟩

/-- Every resource is a text. -/
def texts : Setting := { kindOf := fun _ => .text }

/-- The text of a resource in a state. -/
def content (s : RuntimeState) (key : ResourceKey) : String :=
  match s.textDoc key with
  | .ok doc => TextDoc.content doc
  | .error _ => ""

def key (name : String) : ResourceKey := ⟨"s", name⟩

/-- Save a new version of a file and reconcile. -/
def upload (client name content token : String) : List Line :=
  [.step (.edit client (key name) (text content token)),
    .step (.start client (.reconcile ⟨["s"]⟩)), .answers client 40]

def sync (client : String) : List Line :=
  [.step (.start client (.reconcile ⟨["s"]⟩)), .answers client 40]

def tidy (client : String) : List Line :=
  [.step (.start client (.maintain ⟨[], 1⟩)), .answers client 40]

end Players

end Rollforward.Sample
