import Lineage.Bytes

/-!
# Reading UTF-8

`Utf8.decode` reads bytes as text or says where the first bytes stand that are no character.
`Utf8.decodeLossy` reads them all the same, with one replacement character for each longest run of
bytes that begins a character and does not finish it.
-/

namespace Lineage.Utf8

/-- How bytes fail to be a character. -/
inductive Fault where
  /-- So many bytes begin no character, or one that the next byte does not go on with. -/
  | invalid (length : Nat)
  /-- The bytes end inside a character. -/
  | incomplete
  deriving DecidableEq, Repr

/-- Where text in UTF-8 breaks off. -/
structure Error where
  index : Nat
  fault : Fault
  deriving DecidableEq, Repr

def Error.message (e : Error) : String :=
  match e.fault with
  | .invalid n => s!"invalid utf-8 sequence of {n} bytes from index {e.index}"
  | .incomplete => s!"incomplete utf-8 byte sequence from index {e.index}"

/-! ## One character -/

/-- What a first byte announces: how many bytes follow, the range of the first of these, and the
highest digits of the code point. -/
structure Lead where
  following : Nat
  low : UInt8
  high : UInt8
  digits : Nat

/-- What the first byte of a character outside ASCII announces. The ranges leave out forms longer
than needed, surrogates, and code points past the last. -/
def lead? (x : UInt8) : Option Lead :=
  if x < 0xC2 then none
  else if x < 0xE0 then some ⟨1, 0x80, 0xBF, x.toNat - 0xC0⟩
  else if x < 0xF0 then
    some ⟨2, if x = 0xE0 then 0xA0 else 0x80, if x = 0xED then 0x9F else 0xBF, x.toNat - 0xE0⟩
  else if x < 0xF5 then
    some ⟨3, if x = 0xF0 then 0x90 else 0x80, if x = 0xF4 then 0x8F else 0xBF, x.toNat - 0xF0⟩
  else none

/-- The code point whose first `length` bytes gave `code` and of which `n` bytes are to follow. -/
def finish (length code : Nat) : (n : Nat) → (low high : UInt8) → Bytes → Except Fault Nat
  | 0, _, _, _ => .ok code
  | _ + 1, _, _, [] => .error .incomplete
  | n + 1, low, high, y :: rest =>
    if low ≤ y ∧ y ≤ high then
      finish (length + 1) (64 * code + y.toNat % 64) n 0x80 0xBF rest
    else .error (.invalid length)

/-- The character that begins with a byte, and how many bytes after that one belong to it. -/
def decodeChar (x : UInt8) (rest : Bytes) : Except Fault (Char × Nat) :=
  if x < 0x80 then .ok (Char.ofNat x.toNat, 0)
  else match lead? x with
    | none => .error (.invalid 1)
    | some l =>
      (finish 1 l.digits l.following l.low l.high rest).map fun c => (Char.ofNat c, l.following)

/-! ## Text -/

/-- Reads bytes that begin at the given index of a text. -/
def decodeFrom (index : Nat) : Bytes → Except Error (List Char)
  | [] => .ok []
  | x :: rest =>
    match decodeChar x rest with
    | .error f => .error ⟨index, f⟩
    | .ok (c, n) => (decodeFrom (index + 1 + n) (rest.drop n)).map (c :: ·)
termination_by b => b.length
decreasing_by simp only [List.length_drop, List.length_cons]; omega

/-- The text that bytes encode, or where they stop to encode one. -/
def decode (b : Bytes) : Except Error String :=
  (decodeFrom 0 b).map String.ofList

/-- The characters that bytes encode, U+FFFD where they encode none. -/
def charsLossy : Bytes → List Char
  | [] => []
  | x :: rest =>
    match decodeChar x rest with
    | .ok (c, n) => c :: charsLossy (rest.drop n)
    | .error .incomplete => ['\uFFFD']
    | .error (.invalid n) => '\uFFFD' :: charsLossy (rest.drop (n - 1))
termination_by b => b.length
decreasing_by all_goals (simp only [List.length_drop, List.length_cons]; omega)

/-- The text that bytes encode, U+FFFD where they encode none. -/
def decodeLossy (b : Bytes) : String :=
  String.ofList (charsLossy b)

end Lineage.Utf8
