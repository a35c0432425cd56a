import Rollforward.Binary

/-! `text.rs`: the text document over `yrs`. -/

namespace Rollforward

variable [Crates]

def textBytes (text : String) : Bytes := text.toUTF8.toList

/-- `std::str::from_utf8`. -/
def fromUtf8 (data : Bytes) : Except SyncError String :=
  match String.fromUTF8? ⟨data.toArray⟩ with
  | some text => .ok text
  | none => .error (.serdeError "invalid utf-8 sequence")

def encodeUtf16Char (c : Char) : List Nat :=
  if c.toNat < 0x10000 then [c.toNat]
  else
    let n := c.toNat - 0x10000
    [0xD800 + n / 0x400, 0xDC00 + n % 0x400]

def encodeUtf16 (text : String) : List Nat := text.toList.flatMap encodeUtf16Char

/-- The length of the common start of two lists. -/
def commonLength : List Nat → List Nat → Nat
  | a :: as, b :: bs => if a = b then commonLength as bs + 1 else 0
  | _, _ => 0

/-- The walk over `new.char_indices()`: positions are those of characters, the
ones a byte offset on a character boundary stands for. -/
def insertBounds (start stop : Nat) (len : Nat) :
    List Char → Nat → Nat → Option Nat → Nat × Nat
  | [], _, _, found => (found.getD len, len)
  | c :: cs, i, cu, found =>
    let found := if found = none ∧ cu ≥ start then some i else found
    if cu ≥ stop then (found.getD len, i)
    else insertBounds start stop len cs (i + 1) (cu + (encodeUtf16Char c).length) found

/-- `diff_middle`: the common prefix and suffix in UTF-16 code units, and what
of `new` lies between them. -/
def diffMiddle (old new : String) : Nat × Nat × String :=
  let oldU16 := encodeUtf16 old
  let newU16 := encodeUtf16 new
  let start := commonLength oldU16 newU16
  let suffix := commonLength (oldU16.drop start).reverse (newU16.drop start).reverse
  let delLen := oldU16.length - start - suffix
  let chars := new.toList
  let (first, last) := insertBounds start (newU16.length - suffix) chars.length chars 0 0 none
  (toU32 start, toU32 delLen, String.ofList ((chars.take last).drop first))

namespace TextDoc

def content (doc : Yrs.Doc) : String := Yrs.getString doc

/-- Replace the content with `new`; the update expresses the change. -/
def setText (client : Nat) (doc : Yrs.Doc) (new : String) : Yrs.Doc × Yrs.Update :=
  let before := Yrs.stateVector doc
  let (start, delLen, insert) := diffMiddle (content doc) new
  let doc := if delLen > 0 then Yrs.removeRange doc start delLen else doc
  let doc := if insert ≠ "" then Yrs.insert client doc start insert else doc
  (doc, Yrs.encodeStateAsUpdate doc before)

def applyDelta (doc : Yrs.Doc) (delta : Yrs.Update) : Except SyncError Yrs.Doc :=
  (Yrs.applyUpdate doc delta).mapError .serdeError

def fullUpdate (doc : Yrs.Doc) : Yrs.Update := Yrs.encodeStateAsUpdate doc Yrs.noState

def fromBaselineAndDeltas (baseline : Option Yrs.Update) (deltas : List Yrs.Update) :
    Except SyncError Yrs.Doc :=
  (baseline.toList ++ deltas).foldlM applyDelta Yrs.new

end TextDoc

end Rollforward
