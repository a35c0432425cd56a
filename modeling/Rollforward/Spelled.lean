import Rollforward.Identity
import Rollforward.Sample

/-! Sample crates whose commit bytes spell out the commit, so that ids are as telling as
the real ones. -/

namespace Rollforward.Sample

open Std Lib

/-- No word is the start of another. -/
def Prefixed (spell : α → Bytes) : Prop :=
  ∀ {a b : α} {r t : Bytes}, spell a ++ r = spell b ++ t → a = b ∧ r = t

def spellChar (c : Char) : Bytes :=
  if c.toNat < 200 then [UInt8.ofNat (c.toNat + 1)]
  else [255, UInt8.ofNat c.toNat, UInt8.ofNat (c.toNat / 256), UInt8.ofNat (c.toNat / 65536)]

def spellChars : List Char → Bytes
  | [] => [0]
  | c :: cs => spellChar c ++ spellChars cs

def spellString (s : String) : Bytes := spellChars s.toList

def spellNat (n : Nat) : Bytes := spellString (toString n)

def spellInt : Int → Bytes
  | .ofNat n => 0 :: spellNat n
  | .negSucc n => 1 :: spellNat n

def spellList (spell : α → Bytes) : List α → Bytes
  | [] => [0]
  | a :: rest => 1 :: (spell a ++ spellList spell rest)

def spellLetter (letter : Letter) : Bytes :=
  spellNat letter.client ++ (spellNat letter.clock ++ spellChar letter.char)

def spellDoc (doc : Doc) : Bytes :=
  spellList spellLetter doc.inserted.toList ++ spellList spellLetter doc.deleted.toList

/-- The character of a byte, with another one for the colon. -/
def plainChar (byte : UInt8) : Char := Char.ofNat (if byte.toNat = 58 then 511 else byte.toNat)

def plainDigest (data : Bytes) : String := String.ofList (data.map plainChar)

section Words

theorem ofNat_inj {m n : Nat} (h : UInt8.ofNat m = UInt8.ofNat n) : m % 256 = n % 256 := by
  simpa using congrArg UInt8.toNat h

theorem toNat_lt_char (c : Char) : c.toNat < 1114112 := by
  have h := c.valid
  rw [UInt32.isValidChar, Nat.isValidChar] at h
  have : c.toNat = c.val.toNat := rfl
  omega

theorem spellChar_prefixed : Prefixed spellChar := by
  intro a b r t h
  have ha : a.toNat < 1114112 := toNat_lt_char a
  have hb : b.toNat < 1114112 := toNat_lt_char b
  unfold spellChar at h
  split at h <;> split at h
  · next hsa hsb =>
    obtain ⟨hbyte, hrest⟩ := List.cons.inj h
    exact ⟨Char.toNat_inj.mp (by have := ofNat_inj hbyte; omega), hrest⟩
  · next hsa hsb =>
    obtain ⟨hbyte, -⟩ := List.cons.inj h
    have := ofNat_inj (n := 255) hbyte
    omega
  · next hsa hsb =>
    obtain ⟨hbyte, -⟩ := List.cons.inj h
    have := ofNat_inj (m := 255) hbyte
    omega
  · next hsa hsb =>
    simp only [List.cons_append, List.nil_append, List.cons.injEq, true_and] at h
    obtain ⟨h₀, h₁, h₂, hrest⟩ := h
    have h₀ := ofNat_inj h₀
    have h₁ := ofNat_inj h₁
    have h₂ := ofNat_inj h₂
    exact ⟨Char.toNat_inj.mp (by omega), hrest⟩

theorem spellChar_head (c : Char) (r t : Bytes) : spellChar c ++ r ≠ 0 :: t := by
  have hc : c.toNat < 1114112 := toNat_lt_char c
  unfold spellChar
  split
  · next hs =>
    intro h
    have := ofNat_inj (n := 0) (List.cons.inj h).1
    omega
  · intro h
    cases h

theorem spellChars_prefixed : Prefixed spellChars := by
  intro a b r t h
  induction a generalizing b with
  | nil =>
    cases b with
    | nil => exact ⟨rfl, (List.cons.inj h).2⟩
    | cons c cs =>
      rw [spellChars, spellChars, List.append_assoc] at h
      exact absurd h.symm (spellChar_head c _ _)
  | cons c cs ih =>
    cases b with
    | nil =>
      rw [spellChars, spellChars, List.append_assoc] at h
      exact absurd h (spellChar_head c _ _)
    | cons d ds =>
      rw [spellChars, spellChars, List.append_assoc, List.append_assoc] at h
      obtain ⟨rfl, hrest⟩ := spellChar_prefixed h
      obtain ⟨rfl, hr⟩ := ih hrest
      exact ⟨rfl, hr⟩

theorem spellString_prefixed : Prefixed spellString := by
  intro a b r t h
  obtain ⟨hs, hr⟩ := spellChars_prefixed h
  exact ⟨String.toList_injective hs, hr⟩

theorem spellNat_prefixed : Prefixed spellNat := by
  intro a b r t h
  obtain ⟨hs, hr⟩ := spellString_prefixed h
  exact ⟨Nat.repr_inj.mp hs, hr⟩

theorem spellInt_prefixed : Prefixed spellInt := by
  intro a b r t h
  cases a <;> cases b <;> simp only [spellInt, List.cons_append, List.cons.injEq] at h
  · obtain ⟨rfl, hr⟩ := spellNat_prefixed h.2
    exact ⟨rfl, hr⟩
  · cases h.1
  · cases h.1
  · obtain ⟨rfl, hr⟩ := spellNat_prefixed h.2
    exact ⟨rfl, hr⟩

theorem spellList_prefixed {spell : α → Bytes} (hspell : Prefixed spell) :
    Prefixed (spellList spell) := by
  intro a b r t h
  induction a generalizing b with
  | nil =>
    cases b with
    | nil => exact ⟨rfl, (List.cons.inj h).2⟩
    | cons s ss => cases (List.cons.inj h).1
  | cons s ss ih =>
    cases b with
    | nil => cases (List.cons.inj h).1
    | cons u us =>
      simp only [spellList, List.cons_append, List.append_assoc, List.cons.injEq, true_and] at h
      obtain ⟨rfl, hrest⟩ := hspell h
      obtain ⟨rfl, hr⟩ := ih hrest
      exact ⟨rfl, hr⟩

theorem spellLetter_prefixed : Prefixed spellLetter := by
  intro a b r t h
  simp only [spellLetter, List.append_assoc] at h
  obtain ⟨hclient, h⟩ := spellNat_prefixed h
  obtain ⟨hclock, h⟩ := spellNat_prefixed h
  obtain ⟨hchar, hr⟩ := spellChar_prefixed h
  cases a
  cases b
  exact ⟨congr (congrArg₂ Letter.mk hclient hclock) hchar, hr⟩

theorem letters_ext {a b : Letters} (h : a.toList = b.toList) : a = b := by
  apply ExtTreeSet.ext_mem
  intro letter
  rw [← ExtTreeSet.mem_toList, h, ExtTreeSet.mem_toList]

theorem spellDoc_inj {a b : Doc} (h : spellDoc a = spellDoc b) : a = b := by
  have hlist : Prefixed (spellList spellLetter) := spellList_prefixed spellLetter_prefixed
  obtain ⟨hinserted, h⟩ := hlist h
  obtain ⟨hdeleted, -⟩ := hlist (congrArg (· ++ []) h)
  cases a
  cases b
  exact congrArg₂ Doc.mk (letters_ext hinserted) (letters_ext hdeleted)

theorem toNat_plainChar (byte : UInt8) :
    (plainChar byte).toNat = if byte.toNat = 58 then 511 else byte.toNat := by
  have hbyte := byte.toNat_lt
  rw [plainChar, Char.ofNat, dif_pos]
  · rfl
  · exact Or.inl (by split <;> omega)

theorem colon_notMem_plainDigest (data : Bytes) : ':' ∉ (plainDigest data).toList := by
  rw [plainDigest, String.toList_ofList]
  intro h
  obtain ⟨byte, -, hbyte⟩ := List.mem_map.mp h
  have hcode := congrArg Char.toNat hbyte
  rw [toNat_plainChar, show ':'.toNat = 58 from rfl] at hcode
  split at hcode <;> omega

theorem plainChar_injective : Function.Injective plainChar := by
  intro a b h
  have ha := a.toNat_lt
  have hb := b.toNat_lt
  have hcode := congrArg Char.toNat h
  rw [toNat_plainChar, toNat_plainChar] at hcode
  refine UInt8.toNat.inj ?_
  split at hcode <;> split at hcode <;> omega

theorem plainDigest_injective : Function.Injective plainDigest := fun _ _ h =>
  List.map_injective_iff.mpr plainChar_injective (String.ofList_injective h)

end Words

section Changes

attribute [local instance] crates

def spellChange : ResourceChange → Bytes
  | .binarySnapshot contentId size chunkHashes =>
    0 :: (spellString contentId ++ (spellNat size ++ spellList spellString chunkHashes))
  | .textDelta delta => 1 :: spellDoc delta
  | .delete => [2]

theorem spellChange_inj {a b : ResourceChange} (h : spellChange a = spellChange b) : a = b := by
  cases a with
  | binarySnapshot contentId size hashes =>
    cases b with
    | binarySnapshot contentId' size' hashes' =>
      obtain ⟨rfl, hsize⟩ := spellString_prefixed (List.cons.inj h).2
      obtain ⟨rfl, hhashes⟩ := spellNat_prefixed hsize
      obtain ⟨rfl, -⟩ := spellList_prefixed spellString_prefixed (congrArg (· ++ []) hhashes)
      rfl
    | textDelta delta => cases (List.cons.inj h).1
    | delete => cases (List.cons.inj h).1
  | textDelta delta =>
    cases b with
    | binarySnapshot contentId size hashes => cases (List.cons.inj h).1
    | textDelta delta' => rw [spellDoc_inj (List.cons.inj h).2]
    | delete => cases (List.cons.inj h).1
  | delete =>
    cases b with
    | binarySnapshot contentId size hashes => cases (List.cons.inj h).1
    | textDelta delta => cases (List.cons.inj h).1
    | delete => rfl

end Changes

@[reducible] def spelled : Crates where
  toYrs := crates.toYrs
  blake3 := plainDigest
  fastcdc data _ _ limit := cuts limit data.length 0 data.length
  commitBytes key parents author counter timestamp change :=
    spellString key.scopeId ++ (spellString key.resourceId ++ (spellList spellString parents ++
      (spellString author ++ (spellNat counter ++ (spellInt timestamp ++ spellChange change)))))
  conflictBytes key _ _ _ := textBytes key.encoded

attribute [local instance] spelled

theorem spelled_collisionless : Collisionless where
  hex := colon_notMem_plainDigest
  digest := plainDigest_injective
  bytes := by
    intro key key' parents parents' author author' counter counter' timestamp timestamp' change
      change' h
    obtain ⟨hscope, h⟩ := spellString_prefixed h
    obtain ⟨hresource, h⟩ := spellString_prefixed h
    obtain ⟨hparents, h⟩ := spellList_prefixed spellString_prefixed h
    obtain ⟨hauthor, h⟩ := spellString_prefixed h
    obtain ⟨hcounter, h⟩ := spellNat_prefixed h
    obtain ⟨htimestamp, h⟩ := spellInt_prefixed h
    refine ⟨?_, hparents, hauthor, hcounter, htimestamp, spellChange_inj h⟩
    cases key
    cases key'
    exact congrArg₂ ResourceKey.mk hscope hresource

end Rollforward.Sample
