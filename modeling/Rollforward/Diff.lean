import Rollforward.Text

/-! `diff_middle` compares code units: it is exact for two texts unless the place where they
part lies between the two surrogates of a character. -/

namespace Rollforward

section Units

/-- A code unit that opens a surrogate pair. -/
def IsHigh (u : Nat) : Prop := 0xD800 ≤ u ∧ u < 0xDC00

/-- A code unit that closes one. -/
def IsLow (u : Nat) : Prop := 0xDC00 ≤ u ∧ u < 0xE000

/-- The offset lies between the two units of a surrogate pair. -/
def SplitsPair (units : List Nat) (offset : Nat) : Prop :=
  ∃ n high low, offset = n + 1 ∧ units[n]? = some high ∧ units[n + 1]? = some low ∧
    IsHigh high ∧ IsLow low

/-- Two characters that are encoded with the same first of two units. -/
def SharesHigh (a b : Char) : Prop :=
  0x10000 ≤ a.toNat ∧ 0x10000 ≤ b.toNat ∧
    (a.toNat - 0x10000) / 0x400 = (b.toNat - 0x10000) / 0x400

/-- Two characters that are encoded with the same second of two units. -/
def SharesLow (a b : Char) : Prop :=
  0x10000 ≤ a.toNat ∧ 0x10000 ≤ b.toNat ∧
    (a.toNat - 0x10000) % 0x400 = (b.toNat - 0x10000) % 0x400

instance (a b : Char) : Decidable (SharesHigh a b) := inferInstanceAs (Decidable (_ ∧ _ ∧ _))

instance (a b : Char) : Decidable (SharesLow a b) := inferInstanceAs (Decidable (_ ∧ _ ∧ _))

/-- A character takes one unit that is no surrogate, or a surrogate pair. -/
theorem encodeUtf16Char_cases (c : Char) :
    (c.toNat < 0x10000 ∧ encodeUtf16Char c = [c.toNat] ∧ ¬ IsHigh c.toNat ∧ ¬ IsLow c.toNat) ∨
    ∃ high low, 0x10000 ≤ c.toNat ∧ encodeUtf16Char c = [high, low] ∧ IsHigh high ∧ IsLow low ∧
      high = 0xD800 + (c.toNat - 0x10000) / 0x400 ∧ low = 0xDC00 + (c.toNat - 0x10000) % 0x400 := by
  have hvalid := c.valid
  rw [UInt32.isValidChar, Nat.isValidChar] at hvalid
  have hval : c.toNat = c.val.toNat := rfl
  rw [encodeUtf16Char]
  split
  · next hsmall =>
    refine Or.inl ⟨hsmall, rfl, ?_, ?_⟩
    · rw [IsHigh]
      omega
    · rw [IsLow]
      omega
  · next hbig =>
    refine Or.inr ⟨_, _, by omega, rfl, ?_, ?_, rfl, rfl⟩
    · rw [IsHigh]
      omega
    · rw [IsLow]
      omega

theorem length_encodeUtf16Char_pos (c : Char) : 0 < (encodeUtf16Char c).length := by
  rcases encodeUtf16Char_cases c with ⟨-, hc, -⟩ | ⟨_, _, -, hc, -⟩ <;> simp [hc]

end Units

section Parting

variable {α : Type} [DecidableEq α] {xs ys : List α}

/-- What is left of two lists after their longest common start. -/
def stripCommon : List α → List α → List α × List α
  | a :: as, b :: bs => if a = b then stripCommon as bs else (a :: as, b :: bs)
  | as, bs => (as, bs)

theorem stripCommon_spec (xs ys : List α) : ∃ start, xs = start ++ (stripCommon xs ys).1 ∧
    ys = start ++ (stripCommon xs ys).2 := by
  fun_induction stripCommon xs ys with
  | case1 as a bs ih =>
    obtain ⟨start, hx, hy⟩ := ih
    exact ⟨a :: start, congrArg (a :: ·) hx, congrArg (a :: ·) hy⟩
  | case2 => exact ⟨[], rfl, rfl⟩
  | case3 => exact ⟨[], rfl, rfl⟩

theorem stripCommon_ne {a b : α} {as bs : List α} (h : stripCommon xs ys = (a :: as, b :: bs)) :
    a ≠ b := by
  fun_induction stripCommon xs ys with
  | case1 _ _ _ ih => exact ih h
  | case2 _ _ _ _ hne =>
    simp only [Prod.mk.injEq, List.cons.injEq] at h
    rwa [← h.1.1, ← h.2.1]
  | case3 _ _ hnone =>
    obtain ⟨rfl, rfl⟩ := Prod.mk.inj h
    exact (hnone a as b bs rfl rfl).elim

/-- The words at which two lists part share a unit. -/
def PartsWithin (shares : α → α → Prop) (xs ys : List α) : Prop :=
  ∃ a ∈ (stripCommon xs ys).1.head?, ∃ b ∈ (stripCommon xs ys).2.head?, shares a b

instance (shares : α → α → Prop) [DecidableRel shares] (xs ys : List α) :
    Decidable (PartsWithin shares xs ys) := by
  unfold PartsWithin
  infer_instance

variable (encode : α → List Nat) {shares : α → α → Prop}

theorem commonLength_append (us vs ws : List Nat) :
    commonLength (us ++ vs) (us ++ ws) = us.length + commonLength vs ws := by
  induction us with
  | nil => simp
  | cons u us ih =>
    rw [List.cons_append, List.cons_append, commonLength, if_pos rfl, ih, List.length_cons]
    omega

/-- Two lists of words agree in the words that they start with. -/
theorem commonLength_flatMap {start : List α} (hx : xs = start ++ (stripCommon xs ys).1)
    (hy : ys = start ++ (stripCommon xs ys).2) :
    commonLength (xs.flatMap encode) (ys.flatMap encode) = (start.flatMap encode).length +
      commonLength ((stripCommon xs ys).1.flatMap encode) ((stripCommon xs ys).2.flatMap encode) := by
  have happend := commonLength_append (start.flatMap encode)
    ((stripCommon xs ys).1.flatMap encode) ((stripCommon xs ys).2.flatMap encode)
  rwa [← List.flatMap_append, ← List.flatMap_append, ← hx, ← hy] at happend

/-- Words that share no unit part at once. -/
theorem commonLength_apart (hapart : ∀ a b, a ≠ b → ¬ shares a b →
      ∃ u us v vs, encode a = u :: us ∧ encode b = v :: vs ∧ u ≠ v)
    (h : ¬ PartsWithin shares xs ys) :
    commonLength ((stripCommon xs ys).1.flatMap encode)
      ((stripCommon xs ys).2.flatMap encode) = 0 := by
  rw [PartsWithin] at h
  cases hstrip : stripCommon xs ys with
  | mk as bs =>
    rw [hstrip] at h
    cases as with
    | nil => simp [commonLength]
    | cons a as =>
      cases bs with
      | nil => cases List.flatMap encode (a :: as) <;> simp [commonLength]
      | cons b bs =>
        have hno : ¬ shares a b := fun hs => h ⟨a, rfl, b, rfl, hs⟩
        obtain ⟨u, us, v, vs, ha, hb, huv⟩ := hapart a b (stripCommon_ne hstrip) hno
        simp [ha, hb, commonLength, huv]

/-- Words that share their first unit agree in that unit alone. -/
theorem commonLength_shared
    (hshare : ∀ a b, a ≠ b → shares a b → ∃ u v w, encode a = [u, v] ∧ encode b = [u, w] ∧ v ≠ w)
    (h : PartsWithin shares xs ys) : ∃ a as b bs, stripCommon xs ys = (a :: as, b :: bs) ∧
      shares a b ∧ commonLength ((stripCommon xs ys).1.flatMap encode)
        ((stripCommon xs ys).2.flatMap encode) = 1 := by
  obtain ⟨a, ha, b, hb, hs⟩ := h
  obtain ⟨as, has⟩ := List.head?_eq_some_iff.mp ha
  obtain ⟨bs, hbs⟩ := List.head?_eq_some_iff.mp hb
  have hstrip : stripCommon xs ys = (a :: as, b :: bs) := Prod.ext has hbs
  refine ⟨a, as, b, bs, hstrip, hs, ?_⟩
  obtain ⟨u, v, w, hea, heb, hvw⟩ := hshare a b (stripCommon_ne hstrip) hs
  simp [hstrip, hea, heb, commonLength, hvw]

theorem commonLength_le (us vs : List Nat) :
    commonLength us vs ≤ us.length ∧ commonLength us vs ≤ vs.length := by
  fun_induction commonLength us vs with
  | case1 | case2 | case3 => simp_all

end Parting

section Slices

/-- The length of a text in code units. -/
def units (cs : List Char) : Nat := (cs.flatMap encodeUtf16Char).length

@[simp] theorem units_nil : units [] = 0 := rfl

@[simp] theorem units_cons (c : Char) (cs : List Char) :
    units (c :: cs) = (encodeUtf16Char c).length + units cs := by simp [units]

@[simp] theorem units_append (xs ys : List Char) : units (xs ++ ys) = units xs + units ys := by
  simp [units]

variable {start stop len : Nat} {xs ys zs : List Char} {i cu : Nat}

/-- The walk goes past what lies before `start`. -/
theorem insertBounds_skip (hstop : start ≤ stop) (hcu : cu + units xs = start) :
    insertBounds start stop len (xs ++ ys) i cu none =
      insertBounds start stop len ys (i + xs.length) start none := by
  induction xs generalizing i cu with
  | nil => simp_all
  | cons x xs ih =>
    have hpos := length_encodeUtf16Char_pos x
    rw [units_cons] at hcu
    rw [List.cons_append, insertBounds, if_neg (by omega), if_neg (by omega), ih (by omega), List.length_cons]
    congr 1
    omega

/-- The walk goes past what lies before `stop`. -/
theorem insertBounds_pass {first : Nat} (hcu : cu + units xs = stop) :
    insertBounds start stop len (xs ++ ys) i cu (some first) =
      insertBounds start stop len ys (i + xs.length) stop (some first) := by
  induction xs generalizing i cu with
  | nil => simp_all
  | cons x xs ih =>
    have hpos := length_encodeUtf16Char_pos x
    rw [units_cons] at hcu
    rw [List.cons_append, insertBounds, if_neg (show ¬ cu ≥ stop by omega)]
    simp only [reduceCtorEq, false_and, if_false]
    rw [ih (by omega), List.length_cons]
    congr 1
    omega

/-- Ends that lie between characters are found. -/
theorem insertBounds_between (hlen : len = (xs ++ ys ++ zs).length) (hstart : start = units xs)
    (hstop : stop = units (xs ++ ys)) :
    insertBounds start stop len (xs ++ ys ++ zs) 0 0 none = (xs.length, (xs ++ ys).length) := by
  have hend : insertBounds start stop len (ys ++ zs) xs.length start (some xs.length) =
      (xs.length, (xs ++ ys).length) := by
    rw [insertBounds_pass (by rw [hstart, hstop, units_append])]
    cases zs with
    | nil => simp [insertBounds, hlen]
    | cons z zs => simp [insertBounds]
  rw [List.append_assoc, insertBounds_skip (by rw [hstart, hstop, units_append]; omega)
    (by rw [hstart, Nat.zero_add]), Nat.zero_add, ← hend]
  cases hrest : ys ++ zs with
  | nil =>
    obtain ⟨rfl, rfl⟩ := List.append_eq_nil_iff.mp hrest
    simp [insertBounds, hlen]
  | cons c cs => simp [insertBounds]

/-- The slice is in order, wherever the ends lie. -/
theorem insertBounds_ordered {found : Option Nat} (hstop : start ≤ stop)
    (hlen : i + xs.length = len) (hfound : ∀ first, found = some first → first ≤ i) :
    (insertBounds start stop len xs i cu found).1 ≤ (insertBounds start stop len xs i cu found).2 ∧
      (insertBounds start stop len xs i cu found).2 ≤ len := by
  induction xs generalizing i cu found with
  | nil =>
    rw [insertBounds]
    cases found with
    | none => exact ⟨le_rfl, le_rfl⟩
    | some first => exact ⟨(hfound first rfl).trans (by simp at hlen; omega), le_rfl⟩
  | cons x xs ih =>
    rw [List.length_cons] at hlen
    have hnext : ∀ first, (if found = none ∧ cu ≥ start then some i else found) = some first →
        first ≤ i := by
      intro first he
      split at he
      · exact (Option.some.inj he).ge
      · exact hfound first he
    rw [insertBounds]
    split
    · next hend =>
      refine ⟨?_, by omega⟩
      cases hf : found with
      | none => simp [show cu ≥ start by omega]
      | some first => simpa using hfound first hf
    · exact ih (by omega) fun first he => (hnext first he).trans (by omega)

end Slices

section Characters

variable {a b : Char}

/-- Between two characters no pair is split. -/
theorem not_splitsPair_between (xs ys : List Char) :
    ¬ SplitsPair ((xs ++ ys).flatMap encodeUtf16Char) (units xs) := by
  rintro ⟨n, high, low, hn, hhigh, -, hishigh, -⟩
  rcases List.eq_nil_or_concat xs with rfl | ⟨init, c, rfl⟩
  · simp at hn
  · have hat : ∀ k, (((init ++ [c]) ++ ys).flatMap encodeUtf16Char)[units init + k]? =
        (encodeUtf16Char c ++ ys.flatMap encodeUtf16Char)[k]? := by
      intro k
      rw [List.append_assoc, List.flatMap_append, List.singleton_append, List.flatMap_cons, units,
        List.getElem?_append_right (Nat.le_add_right _ _), Nat.add_sub_cancel_left]
    rw [List.concat_eq_append] at hn hhigh
    rw [units_append, units_cons, units_nil] at hn
    rcases encodeUtf16Char_cases c with ⟨-, hc, hplain, -⟩ | ⟨u, v, -, hc, -, hv, -, -⟩
    · obtain rfl : n = units init + 0 := by rw [hc] at hn; simpa using hn.symm
      rw [hat, hc] at hhigh
      obtain rfl := Option.some.inj hhigh
      exact hplain hishigh
    · obtain rfl : n = units init + 1 := by rw [hc] at hn; simp at hn; omega
      rw [hat, hc] at hhigh
      obtain rfl := Option.some.inj hhigh
      rw [IsHigh] at hishigh
      rw [IsLow] at hv
      omega

/-- Within a character of two units the pair is split. -/
theorem splitsPair_within (ha : 0x10000 ≤ a.toNat) (xs ys : List Char) :
    SplitsPair ((xs ++ a :: ys).flatMap encodeUtf16Char) (units xs + 1) := by
  rcases encodeUtf16Char_cases a with ⟨hsmall, -⟩ | ⟨u, v, -, hc, hu, hv, -, -⟩
  · omega
  · have hat : ∀ k, ((xs ++ a :: ys).flatMap encodeUtf16Char)[units xs + k]? =
        (u :: v :: ys.flatMap encodeUtf16Char)[k]? := by
      intro k
      rw [List.flatMap_append, List.flatMap_cons, hc, units,
        List.getElem?_append_right (Nat.le_add_right _ _), Nat.add_sub_cancel_left]
      rfl
    exact ⟨units xs, u, v, rfl, hat 0, hat 1, hu, hv⟩

theorem toNat_of_units (ha : 0x10000 ≤ a.toNat) (hb : 0x10000 ≤ b.toNat)
    (hhigh : (a.toNat - 0x10000) / 0x400 = (b.toNat - 0x10000) / 0x400)
    (hlow : (a.toNat - 0x10000) % 0x400 = (b.toNat - 0x10000) % 0x400) : a = b :=
  Char.toNat_inj.mp (by omega)

theorem encode_sharesHigh (hne : a ≠ b) (h : SharesHigh a b) :
    ∃ u v w, encodeUtf16Char a = [u, v] ∧ encodeUtf16Char b = [u, w] ∧ v ≠ w := by
  obtain ⟨ha, hb, hhigh⟩ := h
  rcases encodeUtf16Char_cases a with ⟨hsmall, -⟩ | ⟨u, v, -, hea, -, -, hu, hv⟩
  · omega
  rcases encodeUtf16Char_cases b with ⟨hsmall, -⟩ | ⟨u', w, -, heb, -, -, hu', hw⟩
  · omega
  have hsame : u' = u := by rw [hu, hu', hhigh]
  refine ⟨u, v, w, hea, hsame ▸ heb, fun hlow => hne ?_⟩
  exact toNat_of_units ha hb hhigh (by omega)

theorem encode_not_sharesHigh (hne : a ≠ b) (h : ¬ SharesHigh a b) :
    ∃ u us v vs, encodeUtf16Char a = u :: us ∧ encodeUtf16Char b = v :: vs ∧ u ≠ v := by
  rcases encodeUtf16Char_cases a with ⟨-, hea, hpa, -⟩ | ⟨u, v, ha, hea, hhigh, -, hu, -⟩ <;>
    rcases encodeUtf16Char_cases b with ⟨-, heb, hpb, -⟩ | ⟨u', w, hb, heb, hhigh', -, hu', -⟩ <;>
    refine ⟨_, _, _, _, hea, heb, fun e => ?_⟩
  · exact hne (Char.toNat_inj.mp e)
  · exact hpa (e ▸ hhigh')
  · exact hpb (e ▸ hhigh)
  · exact h ⟨ha, hb, by omega⟩

theorem encode_sharesLow (hne : a ≠ b) (h : SharesLow a b) :
    ∃ u v w, (encodeUtf16Char a).reverse = [u, v] ∧ (encodeUtf16Char b).reverse = [u, w] ∧
      v ≠ w := by
  obtain ⟨ha, hb, hlow⟩ := h
  rcases encodeUtf16Char_cases a with ⟨hsmall, -⟩ | ⟨u, v, -, hea, -, -, hu, hv⟩
  · omega
  rcases encodeUtf16Char_cases b with ⟨hsmall, -⟩ | ⟨u', w, -, heb, -, -, hu', hw⟩
  · omega
  have hsame : w = v := by rw [hv, hw, hlow]
  refine ⟨v, u, u', congrArg List.reverse hea, ?_, fun hhigh => hne ?_⟩
  · rw [heb, hsame]
    rfl
  · exact toNat_of_units ha hb (by omega) hlow

theorem encode_not_sharesLow (hne : a ≠ b) (h : ¬ SharesLow a b) :
    ∃ u us v vs, (encodeUtf16Char a).reverse = u :: us ∧ (encodeUtf16Char b).reverse = v :: vs ∧
      u ≠ v := by
  rcases encodeUtf16Char_cases a with ⟨-, hea, -, hpa⟩ | ⟨u, v, ha, hea, -, hlow, -, hv⟩ <;>
    rcases encodeUtf16Char_cases b with ⟨-, heb, -, hpb⟩ | ⟨u', w, hb, heb, -, hlow', -, hw⟩ <;>
    refine ⟨_, _, _, _, congrArg List.reverse hea, congrArg List.reverse heb, fun e => ?_⟩
  · exact hne (Char.toNat_inj.mp e)
  · exact hpa (e ▸ hlow')
  · exact hpb (e ▸ hlow)
  · exact h ⟨ha, hb, by omega⟩

end Characters

section Exactness

variable {old new : String}

/-- The ends of the slice of `new` that `diff_middle` returns. -/
def sliceBounds (old new : String) : Nat × Nat :=
  let oldU16 := encodeUtf16 old
  let newU16 := encodeUtf16 new
  let start := commonLength oldU16 newU16
  let suffix := commonLength (oldU16.drop start).reverse (newU16.drop start).reverse
  insertBounds start (newU16.length - suffix) new.toList.length new.toList 0 0 none

theorem diffMiddle_slice (old new : String) : (diffMiddle old new).2.2 =
    String.ofList ((new.toList.take (sliceBounds old new).2).drop (sliceBounds old new).1) := rfl

/-- What `diff_middle` promises: the edit turns `old` into `new`, it splits no surrogate pair
of `old`, and the slice it returns is one of `new`. -/
structure DiffExact (old new : String) : Prop where
  edit : (encodeUtf16 old).take (diffMiddle old new).1 ++ encodeUtf16 (diffMiddle old new).2.2 ++
    (encodeUtf16 old).drop ((diffMiddle old new).1 + (diffMiddle old new).2.1) = encodeUtf16 new
  start : ¬ SplitsPair (encodeUtf16 old) (diffMiddle old new).1
  stop : ¬ SplitsPair (encodeUtf16 old) ((diffMiddle old new).1 + (diffMiddle old new).2.1)
  slice : (sliceBounds old new).1 ≤ (sliceBounds old new).2 ∧
    (sliceBounds old new).2 ≤ new.toList.length

/-- The first characters in which the texts differ have no high surrogate in common, and the
last characters in which the rest of them differs have no low surrogate in common. -/
def PartsCleanly (old new : String) : Prop :=
  ¬ PartsWithin SharesHigh old.toList new.toList ∧
    ¬ PartsWithin SharesLow (stripCommon old.toList new.toList).1.reverse
      (stripCommon old.toList new.toList).2.reverse

instance (old new : String) : Decidable (PartsCleanly old new) :=
  inferInstanceAs (Decidable (_ ∧ _))

/-- Where the two texts are told apart, character by character. -/
structure Split (old new : String) (pre gone added post : List Char) : Prop where
  before : old.toList = pre ++ gone ++ post
  after : new.toList = pre ++ added ++ post
  rest : stripCommon old.toList new.toList = (gone ++ post, added ++ post)
  ends : stripCommon (gone ++ post).reverse (added ++ post).reverse = (gone.reverse, added.reverse)

theorem exists_split (old new : String) : ∃ pre gone added post, Split old new pre gone added post := by
  obtain ⟨pre, hold, hnew⟩ := stripCommon_spec old.toList new.toList
  cases hrest : stripCommon old.toList new.toList with
  | mk r t =>
    obtain ⟨post, hr, ht⟩ := stripCommon_spec r.reverse t.reverse
    cases hends : stripCommon r.reverse t.reverse with
    | mk gone added =>
      rw [hrest] at hold hnew
      rw [hends] at hr ht
      have hr' : r = gone.reverse ++ post.reverse := by
        rw [← List.reverse_append, ← hr, List.reverse_reverse]
      have ht' : t = added.reverse ++ post.reverse := by
        rw [← List.reverse_append, ← ht, List.reverse_reverse]
      refine ⟨pre, gone.reverse, added.reverse, post.reverse, ?_, ?_, ?_, ?_⟩
      · rw [hold, List.append_assoc, ← hr']
      · rw [hnew, List.append_assoc, ← ht']
      · rw [hrest, ← hr', ← ht']
      · rw [← hr', ← ht', hends, List.reverse_reverse, List.reverse_reverse]

variable {pre gone added post : List Char}

theorem Split.common (h : Split old new pre gone added post) :
    commonLength (encodeUtf16 old) (encodeUtf16 new) = units pre +
      commonLength ((gone ++ post).flatMap encodeUtf16Char)
        ((added ++ post).flatMap encodeUtf16Char) := by
  have hold : old.toList = pre ++ (stripCommon old.toList new.toList).1 := by
    rw [h.rest, h.before, List.append_assoc]
  have hnew : new.toList = pre ++ (stripCommon old.toList new.toList).2 := by
    rw [h.rest, h.after, List.append_assoc]
  have hcommon := commonLength_flatMap encodeUtf16Char hold hnew
  rwa [h.rest] at hcommon

/-- Texts that part within a pair are cut within it. -/
theorem Split.start_within (h : Split old new pre gone added post)
    (hwithin : PartsWithin SharesHigh old.toList new.toList) :
    SplitsPair (encodeUtf16 old) (commonLength (encodeUtf16 old) (encodeUtf16 new)) := by
  obtain ⟨a, as, b, bs, hstrip, hshares, hone⟩ :=
    commonLength_shared encodeUtf16Char (fun a b => encode_sharesHigh) hwithin
  rw [h.rest] at hstrip hone
  rw [h.common, hone, encodeUtf16, h.before, List.append_assoc, (Prod.mk.inj hstrip).1]
  exact splitsPair_within hshares.1 pre as

theorem Split.start_between (h : Split old new pre gone added post)
    (hclean : ¬ PartsWithin SharesHigh old.toList new.toList) :
    commonLength (encodeUtf16 old) (encodeUtf16 new) = units pre := by
  have hzero := commonLength_apart encodeUtf16Char (fun a b => encode_not_sharesHigh) hclean
  rw [h.rest] at hzero
  rw [h.common, hzero, Nat.add_zero]

/-- The units after the common start, from the end. -/
theorem drop_units (xs ys : List Char) : (((xs ++ ys).flatMap encodeUtf16Char).drop
    (units xs)).reverse = ys.reverse.flatMap fun c => (encodeUtf16Char c).reverse := by
  rw [List.flatMap_append, units, List.drop_left, List.reverse_flatMap]
  rfl

theorem units_reverse (cs : List Char) :
    (cs.reverse.flatMap fun c => (encodeUtf16Char c).reverse).length = units cs := by
  have h := congrArg List.length (drop_units [] cs)
  exact h.symm.trans (by simp [units])

theorem Split.suffix (h : Split old new pre gone added post) :
    commonLength ((encodeUtf16 old).drop (units pre)).reverse
      ((encodeUtf16 new).drop (units pre)).reverse = units post +
      commonLength (gone.reverse.flatMap fun c => (encodeUtf16Char c).reverse)
        (added.reverse.flatMap fun c => (encodeUtf16Char c).reverse) := by
  have hold : (gone ++ post).reverse =
      post.reverse ++ (stripCommon (gone ++ post).reverse (added ++ post).reverse).1 := by
    rw [h.ends, List.reverse_append]
  have hnew : (added ++ post).reverse =
      post.reverse ++ (stripCommon (gone ++ post).reverse (added ++ post).reverse).2 := by
    rw [h.ends, List.reverse_append]
  have hcommon := commonLength_flatMap (fun c => (encodeUtf16Char c).reverse) hold hnew
  rw [h.ends, units_reverse] at hcommon
  rwa [encodeUtf16, encodeUtf16, h.before, h.after, List.append_assoc, List.append_assoc, drop_units,
    drop_units]

/-- Texts that part within a pair from the end are cut within it. -/
theorem Split.stop_within (h : Split old new pre gone added post)
    (hwithin : PartsWithin SharesLow (gone ++ post).reverse (added ++ post).reverse) :
    ∃ cut, SplitsPair (encodeUtf16 old) cut ∧ cut = (encodeUtf16 old).length -
      commonLength ((encodeUtf16 old).drop (units pre)).reverse
        ((encodeUtf16 new).drop (units pre)).reverse := by
  obtain ⟨a, as, b, bs, hstrip, hshares, hone⟩ :=
    commonLength_shared (fun c => (encodeUtf16Char c).reverse) (fun a b => encode_sharesLow) hwithin
  rw [h.ends] at hstrip hone
  have hgone : gone = as.reverse ++ [a] := by
    rw [← List.reverse_cons, ← (Prod.mk.inj hstrip).1, List.reverse_reverse]
  have hold : old.toList = (pre ++ as.reverse) ++ a :: post := by
    rw [h.before, hgone]
    simp
  obtain ⟨u, v, hpair⟩ : ∃ u v, encodeUtf16Char a = [u, v] := by
    rcases encodeUtf16Char_cases a with ⟨hsmall, -⟩ | ⟨u, v, -, he, -⟩
    · have := hshares.1
      omega
    · exact ⟨u, v, he⟩
  refine ⟨units (pre ++ as.reverse) + 1, ?_, ?_⟩
  · rw [encodeUtf16, hold]
    exact splitsPair_within hshares.1 _ _
  · have hlength : (encodeUtf16 old).length = units ((pre ++ as.reverse) ++ a :: post) := by
      rw [encodeUtf16, hold]
      rfl
    rw [h.suffix, hone, hlength]
    simp only [units_append, units_cons, hpair, List.length_cons, List.length_nil]
    omega

theorem Split.suffix_between (h : Split old new pre gone added post)
    (hclean : ¬ PartsWithin SharesLow (gone ++ post).reverse (added ++ post).reverse) :
    commonLength ((encodeUtf16 old).drop (units pre)).reverse
      ((encodeUtf16 new).drop (units pre)).reverse = units post := by
  have hzero := commonLength_apart (fun c => (encodeUtf16Char c).reverse)
    (fun a b => encode_not_sharesLow) hclean
  rw [h.ends] at hzero
  rw [h.suffix, hzero, Nat.add_zero]

/-- If the length of `old` in code units fits in 32 bits, the diff is exact if and only if the
texts part between characters. -/
theorem diffMiddle_exact_iff (hold : (encodeUtf16 old).length < 2 ^ 32) :
    DiffExact old new ↔ PartsCleanly old new := by
  obtain ⟨pre, gone, added, post, h⟩ := exists_split old new
  have hstart : (diffMiddle old new).1 = commonLength (encodeUtf16 old) (encodeUtf16 new) :=
    toU32_of_lt ((commonLength_le _ _).1.trans_lt hold)
  have hdel : (diffMiddle old new).2.1 = (encodeUtf16 old).length -
      commonLength (encodeUtf16 old) (encodeUtf16 new) -
      commonLength ((encodeUtf16 old).drop (commonLength (encodeUtf16 old) (encodeUtf16 new))).reverse
        ((encodeUtf16 new).drop (commonLength (encodeUtf16 old) (encodeUtf16 new))).reverse :=
    toU32_of_lt (by omega)
  have hold' : (encodeUtf16 old).length = units pre + units gone + units post := by
    rw [encodeUtf16, h.before, ← units_append, ← units_append]
    rfl
  have hnew' : (encodeUtf16 new).length = units pre + units added + units post := by
    rw [encodeUtf16, h.after, ← units_append, ← units_append]
    rfl
  have hsuffix : ∀ start, commonLength ((encodeUtf16 old).drop start).reverse
        ((encodeUtf16 new).drop start).reverse ≤ (encodeUtf16 old).length - start ∧
      commonLength ((encodeUtf16 old).drop start).reverse
        ((encodeUtf16 new).drop start).reverse ≤ (encodeUtf16 new).length - start := by
    intro start
    have hle := commonLength_le ((encodeUtf16 old).drop start).reverse
      ((encodeUtf16 new).drop start).reverse
    simpa only [List.length_reverse, List.length_drop] using hle
  rw [PartsCleanly, h.rest]
  constructor
  · intro hexact
    have hfirst : ¬ PartsWithin SharesHigh old.toList new.toList := fun hwithin =>
      hexact.start (hstart ▸ h.start_within hwithin)
    refine ⟨hfirst, fun hwithin => hexact.stop ?_⟩
    obtain ⟨cut, hsplit, hcut⟩ := h.stop_within hwithin
    rw [h.start_between hfirst] at hstart hdel
    have hle := (hsuffix (units pre)).1
    rw [hstart, hdel, show units pre + _ = cut by omega]
    exact hsplit
  · rintro ⟨hfirst, hlast⟩
    have hbounds : sliceBounds old new = (pre.length, (pre ++ added).length) := by
      rw [sliceBounds, h.start_between hfirst, h.suffix_between hlast, h.after]
      exact insertBounds_between rfl rfl (by rw [units_append]; omega)
    rw [h.start_between hfirst] at hstart hdel
    rw [h.suffix_between hlast, hold'] at hdel
    replace hdel : (diffMiddle old new).2.1 = units gone := hdel.trans (by omega)
    have hcut : (diffMiddle old new).1 + (diffMiddle old new).2.1 = units (pre ++ gone) := by
      rw [hstart, hdel, units_append]
    refine ⟨?_, ?_, ?_, ?_⟩
    · have htake : (encodeUtf16 old).take (units pre) = pre.flatMap encodeUtf16Char := by
        rw [encodeUtf16, h.before, List.append_assoc, List.flatMap_append, units, List.take_left]
      have hdrop : (encodeUtf16 old).drop (units (pre ++ gone)) = post.flatMap encodeUtf16Char := by
        rw [encodeUtf16, h.before, List.flatMap_append, units, List.drop_left]
      rw [hcut, hstart, diffMiddle_slice, hbounds, htake, hdrop, h.after, List.take_left,
        List.drop_left, encodeUtf16, encodeUtf16, h.after, String.toList_ofList,
        List.flatMap_append, List.flatMap_append]
    · rw [hstart, encodeUtf16, h.before, List.append_assoc]
      exact not_splitsPair_between _ _
    · rw [hcut, encodeUtf16, h.before]
      exact not_splitsPair_between _ _
    · rw [hbounds, h.after]
      simp

/-- A word is put in after a character of two units. -/
theorem diffMiddle_exact_iff_inserted :
    PartsCleanly "😀 text" "😀 new text" ∧ DiffExact "😀 text" "😀 new text" := by
  have hclean : PartsCleanly "😀 text" "😀 new text" := by decide +kernel
  exact ⟨hclean, (diffMiddle_exact_iff (by decide +kernel)).mpr hclean⟩

/-- Two faces with one high surrogate: the low one alone is deleted, and nothing is inserted. -/
theorem diffMiddle_splits_pair : (encodeUtf16 "😀").length < 2 ^ 32 ∧
    (encodeUtf16 "😁").length < 2 ^ 32 ∧ diffMiddle "😀" "😁" = (1, 1, "") ∧
    ¬ DiffExact "😀" "😁" := by
  have hdiff : diffMiddle "😀" "😁" = (1, 1, "") := by decide +kernel
  refine ⟨by decide +kernel, by decide +kernel, hdiff, fun h => ?_⟩
  have hedit := h.edit
  rw [hdiff] at hedit
  revert hedit
  decide +kernel

end Exactness

end Rollforward
