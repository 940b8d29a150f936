import TamperEvident.Bytes
import TamperEvident.Binary

/-! BLAKE3 with 32-byte digests: plain, keyed, and for deriving keys. -/

namespace TamperEvident.Blake3

abbrev Chain := Vector UInt32 8

abbrev Words := Vector UInt32 16

def initial : Chain :=
  #v[0x6A09E667, 0xBB67AE85, 0x3C6EF372, 0xA54FF53A, 0x510E527F, 0x9B05688C, 0x1F83D9AB,
    0x5BE0CD19]

def rotateRight (x : UInt32) (n : UInt32) : UInt32 := (x >>> n) ||| (x <<< (32 - n))

def mix (v : Words) (a b c d : Fin 16) (x y : UInt32) : Words :=
  let v := v.set a (v[a] + v[b] + x)
  let v := v.set d (rotateRight (v[d] ^^^ v[a]) 16)
  let v := v.set c (v[c] + v[d])
  let v := v.set b (rotateRight (v[b] ^^^ v[c]) 12)
  let v := v.set a (v[a] + v[b] + y)
  let v := v.set d (rotateRight (v[d] ^^^ v[a]) 8)
  let v := v.set c (v[c] + v[d])
  v.set b (rotateRight (v[b] ^^^ v[c]) 7)

/-- Columns, then diagonals. -/
def round (m v : Words) : Words :=
  let v := mix v 0 4 8 12 m[0] m[1]
  let v := mix v 1 5 9 13 m[2] m[3]
  let v := mix v 2 6 10 14 m[4] m[5]
  let v := mix v 3 7 11 15 m[6] m[7]
  let v := mix v 0 5 10 15 m[8] m[9]
  let v := mix v 1 6 11 12 m[10] m[11]
  let v := mix v 2 7 8 13 m[12] m[13]
  mix v 3 4 9 14 m[14] m[15]

def permute (m : Words) : Words :=
  #v[m[2], m[6], m[3], m[10], m[7], m[0], m[4], m[13], m[1], m[11], m[12], m[5], m[9], m[14],
    m[15], m[8]]

def rounds : Nat → Words → Words → Words
  | 0, _, v => v
  | n + 1, m, v => rounds n (permute m) (round m v)

/-- A compression still to be made, so that the last one can be marked. -/
structure Node where
  chain : Chain
  block : Words
  counter : Nat
  length : Nat
  flags : UInt32

def chunkStart : UInt32 := 1

def chunkEnd : UInt32 := 2

def parentFlag : UInt32 := 4

def rootFlag : UInt32 := 8

def Node.compress (n : Node) (flags : UInt32) : Words :=
  let v : Words := n.chain ++
    #v[initial[0], initial[1], initial[2], initial[3], UInt32.ofNat n.counter,
      UInt32.ofNat (n.counter / 2 ^ 32), UInt32.ofNat n.length, flags]
  let v := rounds 7 n.block v
  let low := Vector.ofFn fun i : Fin 8 => v[i.val] ^^^ v[i.val + 8]
  let high := Vector.ofFn fun i : Fin 8 => v[i.val + 8] ^^^ n.chain[i]
  low ++ high

def Node.value (n : Node) : Chain :=
  let v := n.compress n.flags
  Vector.ofFn fun i : Fin 8 => v[i.val]

def Node.digest (n : Node) : Bytes :=
  let v := n.compress (n.flags ||| rootFlag)
  (v.toList.take 8).flatMap fun w => Bytes.littleEndian 4 w.toNat

theorem Node.length_digest (n : Node) : n.digest.length = 32 := by
  simp [Node.digest, List.length_flatMap, List.map_const']

/-- Little-endian words, with zeros where the bytes end. -/
def words (n : Nat) (bytes : Bytes) : Vector UInt32 n :=
  let a := bytes.toArray
  Vector.ofFn fun i =>
    let byte (j : Nat) : UInt32 := (a[4 * i.val + j]?.getD 0).toUInt32
    byte 0 ||| (byte 1 <<< 8) ||| (byte 2 <<< 16) ||| (byte 3 <<< 24)

/-- The blocks of a chunk from `chain` on, the last of them kept back. -/
def chunkFrom (counter : Nat) (flags first : UInt32) (chain : Chain) : List Bytes → Node
  | [] => ⟨chain, words 16 [], counter, 0, flags ||| first ||| chunkEnd⟩
  | [block] => ⟨chain, words 16 block, counter, block.length, flags ||| first ||| chunkEnd⟩
  | block :: rest =>
    let node : Node := ⟨chain, words 16 block, counter, block.length, flags ||| first⟩
    chunkFrom counter flags 0 node.value rest

def chunk (key : Chain) (flags : UInt32) (counter : Nat) (bytes : Bytes) : Node :=
  chunkFrom counter flags chunkStart key (bytes.pieces 64)

def parent (key : Chain) (flags : UInt32) (left right : Node) : Node :=
  ⟨key, left.value ++ right.value, 0, 64, flags ||| parentFlag⟩

def tree (key : Chain) (flags : UInt32) (counter : Nat) (chunks : List Bytes) : Node :=
  match chunks with
  | [] => chunk key flags counter []
  | [only] => chunk key flags counter only
  | first :: second :: rest =>
    let all := first :: second :: rest
    let n := splitPoint all.length
    parent key flags (tree key flags counter (all.take n))
      (tree key flags (counter + n) (all.drop n))
termination_by chunks.length
decreasing_by
  all_goals
    have := splitPoint_pos (first :: second :: rest).length
    have := splitPoint_lt (show 2 ≤ (first :: second :: rest).length by simp)
    simp only [List.length_take, List.length_drop]
    omega

def digestWith (key : Chain) (flags : UInt32) (data : Bytes) : Bytes :=
  (tree key flags 0 (data.pieces 1024)).digest

theorem length_digestWith (key : Chain) (flags : UInt32) (data : Bytes) :
    (digestWith key flags data).length = 32 := Node.length_digest _

def hash (data : Bytes) : Bytes := digestWith initial 0 data

/-- A key is 32 bytes. -/
def keyedHash (key data : Bytes) : Bytes := digestWith (words 8 key) 16 data

def deriveKey (context : String) (material : Bytes) : Bytes :=
  digestWith (words 8 (digestWith initial 32 (Bytes.ofText context))) 64 material

end TamperEvident.Blake3
