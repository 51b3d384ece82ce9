import Lineage.Bytes

/-!
# BLAKE3

The unkeyed BLAKE3 hash with 256 bits of output. A message is cut into chunks of 1024 bytes, the
leaves of a binary tree in which every left subtree is complete; a chunk is a chain of blocks of
64 bytes. `Node` is the last compression of a chunk or of a pair of subtrees, left open because
the root is compressed with a flag of its own.
-/

namespace Lineage.Blake3

/-- A chaining value. -/
abbrev Chain := Vector UInt32 8

/-- The words of one block. -/
abbrev Block := Vector UInt32 16

/-- The initial chaining value. -/
def iv : Chain :=
  #v[0x6A09E667, 0xBB67AE85, 0x3C6EF372, 0xA54FF53A, 0x510E527F, 0x9B05688C, 0x1F83D9AB, 0x5BE0CD19]

/-- The order in which a round takes the words of the round before. -/
def schedule : Vector (Fin 16) 16 :=
  #v[2, 6, 3, 10, 7, 0, 4, 13, 1, 11, 12, 5, 9, 14, 15, 8]

def chunkStart : UInt32 := 1
def chunkEnd : UInt32 := 2
def parentFlag : UInt32 := 4
def rootFlag : UInt32 := 8

/-! ## Compression -/

/-- A word rotated to the right by less than its width. -/
def rotateRight (x : UInt32) (k : UInt32) : UInt32 :=
  (x >>> k) ||| (x <<< (32 - k))

/-- Mixes two message words into four words of the state. -/
def mix (s : Block) (a b c d : Fin 16) (x y : UInt32) : Block :=
  let s := s.set a (s[a] + s[b] + x)
  let s := s.set d (rotateRight (s[d] ^^^ s[a]) 16)
  let s := s.set c (s[c] + s[d])
  let s := s.set b (rotateRight (s[b] ^^^ s[c]) 12)
  let s := s.set a (s[a] + s[b] + y)
  let s := s.set d (rotateRight (s[d] ^^^ s[a]) 8)
  let s := s.set c (s[c] + s[d])
  s.set b (rotateRight (s[b] ^^^ s[c]) 7)

/-- One round: the columns of the state, then its diagonals. -/
def round (s m : Block) : Block :=
  let s := mix s 0 4 8 12 m[0] m[1]
  let s := mix s 1 5 9 13 m[2] m[3]
  let s := mix s 2 6 10 14 m[4] m[5]
  let s := mix s 3 7 11 15 m[6] m[7]
  let s := mix s 0 5 10 15 m[8] m[9]
  let s := mix s 1 6 11 12 m[10] m[11]
  let s := mix s 2 7 8 13 m[12] m[13]
  mix s 3 4 9 14 m[14] m[15]

/-- The given number of rounds. -/
def rounds : Nat → Block → Block → Block
  | 0, s, _ => s
  | n + 1, s, m => rounds n (round s m) (schedule.map fun i => m[i])

/-- Compresses a block under a chaining value. -/
def compress (chain : Chain) (block : Block) (counter : UInt64) (length flags : UInt32) : Chain :=
  let start : Block := #v[chain[0], chain[1], chain[2], chain[3],
    chain[4], chain[5], chain[6], chain[7], iv[0], iv[1], iv[2], iv[3],
    counter.toUInt32, (counter >>> 32).toUInt32, length, flags]
  let s := rounds 7 start block
  #v[s[0] ^^^ s[8], s[1] ^^^ s[9], s[2] ^^^ s[10], s[3] ^^^ s[11], s[4] ^^^ s[12], s[5] ^^^ s[13],
    s[6] ^^^ s[14], s[7] ^^^ s[15]]

/-! ## Tree -/

/-- A compression still to be done. -/
structure Node where
  chain : Chain
  block : Block
  counter : UInt64
  length : UInt32
  flags : UInt32

/-- The chaining value of a node below the root. -/
def Node.inner (n : Node) : Chain := compress n.chain n.block n.counter n.length n.flags

/-- The chaining value of the root, which is the hash. -/
def Node.root (n : Node) : Chain :=
  compress n.chain n.block 0 n.length (n.flags ||| rootFlag)

/-- The words of at most 64 bytes, zeros behind the last. -/
def blockOf (b : Bytes) : Block :=
  Vector.ofFn fun i => Bytes.toUInt32 ((b.drop (4 * i)).take 4)

/-- The last node of a chunk, of which the bytes before `b` are in the chaining value. -/
def chunk (counter : UInt64) (chain : Chain) (flags : UInt32) (b : Bytes) : Node :=
  if b.length ≤ 64 then
    ⟨chain, blockOf b, counter, b.length.toUInt32, flags ||| chunkEnd⟩
  else
    chunk counter (compress chain (blockOf (b.take 64)) counter 64 flags) 0 (b.drop 64)
termination_by b.length
decreasing_by simp; omega

/-- The node above two subtrees. -/
def parent (left right : Chain) : Node where
  chain := iv
  block := left ++ right
  counter := 0
  length := 64
  flags := parentFlag

/-- How much of a message of `n` bytes, more than one chunk, lies in the left subtree: the largest
power of two of chunks that leaves something for the right one. -/
def leftLength (n : Nat) : Nat :=
  1024 <<< ((n - 1) / 1024).log2

theorem leftLength_pos (n : Nat) : 0 < leftLength n := by
  rw [leftLength, Nat.shiftLeft_eq]
  exact Nat.mul_pos (by decide) (Nat.two_pow_pos _)

theorem leftLength_lt {n : Nat} (h : 1024 < n) : leftLength n < n := by
  have hq : (n - 1) / 1024 ≠ 0 := by omega
  have := Nat.log2_self_le hq
  rw [leftLength, Nat.shiftLeft_eq]
  omega

/-- The top node of the tree over a message that begins at the chunk numbered `counter`. -/
def tree (counter : UInt64) (b : Bytes) : Node :=
  if b.length ≤ 1024 then
    chunk counter iv chunkStart b
  else
    let n := leftLength b.length
    parent (tree counter (b.take n)).inner
      (tree (counter + (n / 1024).toUInt64) (b.drop n)).inner
termination_by b.length
decreasing_by
  all_goals
    have h1 := leftLength_pos b.length
    have h2 := leftLength_lt (n := b.length) (by omega)
    simp
    omega

/-- The 32 bytes of the hash of a message. -/
def hash (b : Bytes) : Bytes :=
  (tree 0 b).root.toList.flatMap Bytes.ofUInt32

end Lineage.Blake3
