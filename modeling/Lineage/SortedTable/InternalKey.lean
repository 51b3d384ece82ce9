import Lineage.Bytes

/-!
# Internal keys

A sorted table holds versions of user keys. An internal key names one version: the user key, the
sequence number it was written at, and whether it puts a value or deletes. Newer versions of a user
key come before older ones.
-/

namespace Lineage

/-- What a version does to its user key. -/
inductive KeyKind where
  | deletion
  | put
  deriving DecidableEq, Repr

/-- One version of a user key. -/
structure InternalKey where
  userKey : Bytes
  sequence : UInt64
  kind : KeyKind
  deriving DecidableEq, Repr

namespace KeyKind

def code : KeyKind → UInt8
  | .deletion => 0
  | .put => 1

def ofCode? : UInt8 → Option KeyKind
  | 0 => some .deletion
  | 1 => some .put
  | _ => none

end KeyKind

namespace InternalKey

/-- User keys ascend; of one user key, later versions come first, and puts before deletions. -/
instance : Ord InternalKey where
  compare a b :=
    (compare a.userKey b.userKey).then
      ((compare b.sequence a.sequence).then (compare b.kind.code a.kind.code))

/-! ## Layout -/

inductive DecodeError where
  | truncated
  | unknownKind (code : UInt8)
  deriving DecidableEq, Repr

def DecodeError.message : DecodeError → String
  | .truncated => "truncated input"
  | .unknownKind k => s!"unknown entry kind: {k.toNat}"

/-- The user key behind its length in four bytes, the sequence number, and the kind. -/
def encode (k : InternalKey) : Bytes :=
  Bytes.ofUInt32 k.userKey.length.toUInt32 ++ k.userKey ++ Bytes.ofUInt64 k.sequence ++
    [k.kind.code]

def encodedLength (k : InternalKey) : Nat := 4 + k.userKey.length + 8 + 1

/-- The length of a user key that four bytes cannot hold. -/
structure TooLarge where
  length : Nat
  deriving DecidableEq, Repr

def TooLarge.message (e : TooLarge) : String :=
  s!"user key of {e.length} bytes cannot be encoded"

/-- A byte string with a key behind it. -/
def appendTo (b : Bytes) (k : InternalKey) : Except TooLarge Bytes :=
  if k.userKey.length < UInt32.size then .ok (b ++ k.encode)
  else .error ⟨k.userKey.length⟩

/-- The key in front of a byte string, and the number of bytes it takes. -/
def decode (b : Bytes) : Except DecodeError (InternalKey × Nat) :=
  let n := Bytes.toNat (b.take 4)
  if b.length < 4 ∨ b.length < 4 + n + 9 then .error .truncated
  else
    let code := (b.drop (4 + n + 8)).headD 0
    match KeyKind.ofCode? code with
    | none => .error (.unknownKind code)
    | some kind =>
      .ok (⟨(b.drop 4).take n, Bytes.toUInt64 ((b.drop (4 + n)).take 8), kind⟩, 4 + n + 9)

end InternalKey

end Lineage
