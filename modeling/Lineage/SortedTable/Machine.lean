import Lineage.SortedTable.Reader

/-!
# Reading sorted tables on a machine

The reader step by step, as a machine with sizes of 64 bits takes them. A slice or an index that lies
outside of what it is taken from, or a size that does not fit, would trap: it ends the program, where
an error is only an answer. A walk through a table keeps positions, and not what is left to read.
-/

namespace Lineage.SortedTable.Machine

/-! ## Traps -/

/-- What would end the program. -/
inductive Trap where
  /-- A slice or an index lies outside. -/
  | range
  /-- The result of an addition or a subtraction does not fit into a size. -/
  | overflow
  /-- A check fails that is made where it cannot fail. -/
  | impossible
  deriving DecidableEq, Repr

/-- Steps that may trap. -/
abbrev Guarded := Except Trap

/-- Steps that may trap, and may fail with an error. -/
abbrev Steps := ExceptT Error Guarded

section
variable {m : Type → Type} [Monad m] [MonadExceptOf Trap m]

def trap {α : Type} (t : Trap) : m α := throwThe Trap t

def add (a b : Nat) : m Nat := if a + b < UInt64.size then pure (a + b) else trap .overflow

def subtract (a b : Nat) : m Nat := if b ≤ a then pure (a - b) else trap .overflow

/-- The bytes between two offsets. -/
def between (b : Bytes) (start stop : Nat) : m Bytes :=
  if start ≤ stop ∧ stop ≤ b.length then pure ((b.drop start).take (stop - start))
  else trap .range

def elementAt {α : Type} (l : List α) (i : Nat) : m α :=
  match l[i]? with
  | some a => pure a
  | none => trap .range

end

def fail {α : Type} (c : Corruption) : Steps α := throw (.corrupt c)

/-- The bytes from an offset on, if it does not lie behind their end. -/
def tail? (b : Bytes) (start : Nat) : Option Bytes :=
  if start ≤ b.length then some (b.drop start) else none

/-- Where a range starts and stops, if that can be told and it stops before the limit. -/
def range? (offset : UInt64) (length : UInt32) (limit : Nat) : Option (Nat × Nat) :=
  let stop := offset.toNat + length.toNat
  if stop < UInt64.size ∧ stop ≤ limit then some (offset.toNat, stop) else none

/-! ## Opening -/

def readNumber (b : Bytes) : Steps Nat := ofExcept (Reader.readNumber b)

def readWord (b : Bytes) : Steps UInt64 :=
  if b.length < 8 then trap .impossible else pure (Bytes.toUInt64 (b.take 8))

def readFooter (b : Bytes) : Steps Footer := do
  if b.length ≠ footerSize then trap .impossible
  let root ← between b 24 56
  let indexOffset ← readWord (← between b 0 b.length)
  let indexLength ← readNumber (← between b 8 b.length)
  let propertiesOffset ← readWord (← between b 12 b.length)
  let propertiesLength ← readNumber (← between b 20 b.length)
  return ⟨indexOffset, indexLength.toUInt32, propertiesOffset, propertiesLength.toUInt32, root⟩

/-- Opens a table. -/
def ofBytes (b : Bytes) : Steps Reader := do
  if b.length < magic.length + footerSize then fail .fileTooSmall
  if (← between b (← subtract b.length magic.length) b.length) ≠ magic then fail .badMagic
  let limit ← subtract b.length (magic.length + footerSize)
  let footer ← readFooter (← between b limit (← add limit footerSize))
  let some index := range? footer.indexOffset footer.indexLength limit | fail .badFooter
  let some properties := range? footer.propertiesOffset footer.propertiesLength limit
    | fail .badFooter
  let .ok index := indexFormat.decode (← between b index.1 index.2) | fail .badIndex
  let .ok properties := Properties.format.decode (← between b properties.1 properties.2)
    | fail .badProperties
  if properties.root ≠ footer.root then fail .rootMismatch
  return { bytes := b, index, properties }

/-! ## Blocks -/

/-- The key in front of a byte string, and the number of bytes it takes. -/
def readKey (b : Bytes) : Steps (InternalKey × Nat) := do
  if b.length < 4 then throw (.key .truncated)
  let length := Bytes.toNat (b.take 4)
  let needed ← add (← add (← add 4 length) 8) 1
  if b.length < needed then throw (.key .truncated)
  let userKey ← between b 4 (← add 4 length)
  let offset ← add 4 length
  let sequence ← between b offset (← add offset 8)
  let code ← elementAt b (← add offset 8)
  let some kind := KeyKind.ofCode? code | throw (.key (.unknownKind code))
  return (⟨userKey, Bytes.toUInt64 sequence, kind⟩, needed)

/-- The given number of entries from an offset on. -/
def readEntries (p : Bytes) : (count : Nat) → (offset : Nat) → Steps (List Entry)
  | 0, _ => return []
  | count + 1, offset => do
    let some rest := tail? p offset | trap .impossible
    let (key, used) ← readKey rest
    let offset ← add offset used
    let length ← readNumber ((tail? p offset).getD [])
    let offset ← add offset 4
    if UInt64.size ≤ offset + length ∨ p.length < offset + length then fail .truncatedValue
    let value ← between p offset (← add offset length)
    let offset ← add offset length
    return (key, value) :: (← readEntries p count offset)

/-- The entries of a block, once its checksum and its hash agree with it. -/
def readBlock (r : Reader) (h : Handle) : Steps (List Entry) := do
  let some (start, stop) := range? h.offset h.length r.bytes.length | fail .blockOutOfBounds
  if h.length.toNat ≤ trailerSize then fail .blockTooSmall
  let middle ← subtract stop trailerSize
  let p ← between r.bytes start middle
  let checksum ← readNumber (← between r.bytes middle r.bytes.length)
  let hash ← between r.bytes (← add middle 4) stop
  if (Crc32c.checksum p).toNat ≠ checksum then fail .checksumMismatch
  if Blake3.hash p ≠ hash then fail .hashMismatch
  readEntries p (← readNumber p) 4

/-! ## Walks -/

/-- Where a walk through a table has come to: the position of the next block in the index, the
entries of the block at hand, and the position of the next one of these. -/
structure Walk where
  block : Nat := 0
  entries : List Entry := []
  entry : Nat := 0

/-- The next entry, and the walk after it. An error ends the walk. -/
def Walk.next (r : Reader) (w : Walk) : Guarded (Option (Except Error Entry) × Walk) :=
  if w.entry < w.entries.length then do
    let e ← elementAt w.entries w.entry
    return (some (.ok e), { w with entry := ← add w.entry 1 })
  else
    match _h : r.index[w.block]? with
    | none => return (none, w)
    | some i => do
      discard <| add (m := Guarded) w.block 1
      match ← (readBlock r i.handle).run with
      | .error e => return (some (.error e), { w with block := r.index.length })
      | .ok entries => next r { block := w.block + 1, entries }
termination_by r.index.length - w.block
decreasing_by
  have := (List.getElem?_eq_some_iff.mp ‹_›).1
  omega

/-- The answers to so many calls for the next entry. -/
def Walk.answers (r : Reader) (w : Walk) : Nat → Guarded (List (Option (Except Error Entry)))
  | 0 => return []
  | n + 1 => do
    let (answer, w) ← w.next r
    return answer :: (← w.answers r n)

end Lineage.SortedTable.Machine
