import Lineage.Bytes
import Lineage.Text.Utf8

/-!
# Fixed layouts

How records are laid out in bytes: numbers in a fixed width, least significant byte first; byte
strings, texts and lists behind their length in eight bytes; optional values behind a byte that
tells whether they are there. Layouts are put together from those of the parts. A layout reads from
the front of a byte string and leaves what follows.
-/

namespace Lineage.Wire

variable {α β : Type}

/-- Why bytes do not follow a layout. -/
inductive Error where
  /-- The bytes end inside a number or tag. -/
  | unexpectedEnd
  /-- A byte string or text claims more bytes than there are. -/
  | lengthPastEnd
  | boolean (found : UInt8)
  | option (found : UInt8)
  | variant (found : UInt32) (count : Nat)
  | text (e : Utf8.Error)
  deriving DecidableEq, Repr

def Error.message : Error → String
  | .unexpectedEnd => "io error: unexpected end of file"
  | .lengthPastEnd => "io error: "
  | .boolean n => s!"invalid u8 while decoding bool, expected 0 or 1, found {n.toNat}"
  | .option n => s!"tag for enum is not valid, found {n.toNat}"
  | .variant n count =>
    s!"invalid value: integer `{n.toNat}`, expected variant index 0 <= i < {count}"
  | .text e => "string is not valid utf8: " ++ e.message

/-- Reads from the front of the bytes at hand. -/
abbrev Reader (α : Type) := StateT Bytes (Except Error) α

/-- How the values of a type are written and read. -/
structure Format (α : Type) where
  write : α → Bytes
  read : Reader α

/-- The value in front of a byte string. -/
def Format.decode (f : Format α) (b : Bytes) : Except Error α :=
  (f.read.run b).map Prod.fst

/-- Takes the given number of bytes. -/
def take (n : Nat) (short : Error) : Reader Bytes := fun b =>
  if n ≤ b.length then .ok (b.take n, b.drop n) else .error short

/-! ## Numbers -/

def uint8 : Format UInt8 where
  write n := [n]
  read := fun
    | [] => .error .unexpectedEnd
    | b :: rest => .ok (b, rest)

def uint32 : Format UInt32 where
  write := Bytes.ofUInt32
  read := Bytes.toUInt32 <$> take 4 .unexpectedEnd

def uint64 : Format UInt64 where
  write := Bytes.ofUInt64
  read := Bytes.toUInt64 <$> take 8 .unexpectedEnd

/-! ## Parts of records -/

def boolean : Format Bool where
  write b := [if b then 1 else 0]
  read := do
    match ← uint8.read with
    | 0 => return false
    | 1 => return true
    | n => throw (.boolean n)

/-- A byte string behind its length. -/
def bytes : Format Bytes where
  write b := uint64.write b.length.toUInt64 ++ b
  read := do
    let n ← uint64.read
    take n.toNat .lengthPastEnd

/-- A text in UTF-8 behind its length in bytes. -/
def text : Format String where
  write s := bytes.write (Bytes.ofText s)
  read := do
    match Utf8.decode (← bytes.read) with
    | .ok s => return s
    | .error e => throw (.text e)

/-- The given number of bytes without their length. -/
def raw (n : Nat) : Format Bytes where
  write b := b
  read := take n .unexpectedEnd

/-! ## Composition -/

/-- A value that may be absent. -/
def optional (f : Format α) : Format (Option α) where
  write
    | none => [0]
    | some a => 1 :: f.write a
  read := do
    match ← uint8.read with
    | 0 => return none
    | 1 => return some (← f.read)
    | n => throw (.option n)

/-- The given number of values, one behind the other. -/
def readMany (f : Format α) : Nat → Reader (List α)
  | 0 => return []
  | n + 1 => do
    let a ← f.read
    return a :: (← readMany f n)

/-- A list behind its length. -/
def list (f : Format α) : Format (List α) where
  write l := uint64.write l.length.toUInt64 ++ l.flatMap f.write
  read := do
    let n ← uint64.read
    readMany f n.toNat

/-- One value behind the other. -/
def pair (f : Format α) (g : Format β) : Format (α × β) where
  write p := f.write p.1 ++ g.write p.2
  read := do
    let a ← f.read
    return (a, ← g.read)

/-- The layout of a type whose values are made of those of another. -/
def via (f : Format α) (make : α → β) (parts : β → α) : Format β where
  write b := f.write (parts b)
  read := make <$> f.read

end Lineage.Wire
