/-!
# Digests

The hash function BLAKE3 in its unkeyed mode, with 256 bits of output. The input is cut into chunks
of 1024 bytes and a chunk into blocks of 64 bytes, each compressed into the chaining value of those
before it. More than one chunk makes a binary tree whose left branches hold a power of two of
chunks.
-/

namespace RegisterMachine.Digest

abbrev Block := Vector UInt32 16

abbrev ChainingValue := Vector UInt32 8

def initialValue : ChainingValue :=
  #v[0x6A09E667, 0xBB67AE85, 0x3C6EF372, 0xA54FF53A, 0x510E527F, 0x9B05688C, 0x1F83D9AB, 0x5BE0CD19]

/-- The order in which the words of a message enter the next round. -/
def permutation : Vector (Fin 16) 16 :=
  #v[2, 6, 3, 10, 7, 0, 4, 13, 1, 11, 12, 5, 9, 14, 15, 8]

def chunkStart : UInt32 := 1
def chunkEnd : UInt32 := 2
def parent : UInt32 := 4
def root : UInt32 := 8

def chunkLength : Nat := 1024
def blockLength : Nat := 64

def rotateRight (word count : UInt32) : UInt32 := (word >>> count) ||| (word <<< (32 - count))

def mix (state : Block) (a b c d : Fin 16) (x y : UInt32) : Block :=
  let a1 := state[a] + state[b] + x
  let d1 := rotateRight (state[d] ^^^ a1) 16
  let c1 := state[c] + d1
  let b1 := rotateRight (state[b] ^^^ c1) 12
  let a2 := a1 + b1 + y
  let d2 := rotateRight (d1 ^^^ a2) 8
  let c2 := c1 + d2
  let b2 := rotateRight (b1 ^^^ c2) 7
  (((state.set a a2).set b b2).set c c2).set d d2

def round (state message : Block) : Block :=
  let state := mix state 0 4 8 12 message[0] message[1]
  let state := mix state 1 5 9 13 message[2] message[3]
  let state := mix state 2 6 10 14 message[4] message[5]
  let state := mix state 3 7 11 15 message[6] message[7]
  let state := mix state 0 5 10 15 message[8] message[9]
  let state := mix state 1 6 11 12 message[10] message[11]
  let state := mix state 2 7 8 13 message[12] message[13]
  mix state 3 4 9 14 message[14] message[15]

def rounds : Nat → Block → Block → Block
  | 0, state, _ => state
  | n + 1, state, message =>
    rounds n (round state message) (permutation.map fun i => message[i])

/-- A block that is yet to be compressed, with the chaining value before it. -/
structure Node where
  before : ChainingValue
  block : Block
  counter : UInt64
  length : UInt32
  flags : UInt32

def Node.compress (node : Node) : ChainingValue :=
  let start : Block := node.before ++
    #v[initialValue[0], initialValue[1], initialValue[2], initialValue[3],
      node.counter.toUInt32, (node.counter >>> 32).toUInt32, node.length, node.flags]
  let state := rounds 7 start node.block
  Vector.ofFn fun (i : Fin 8) => state[i.val] ^^^ state[i.val + 8]

/-- The word of four bytes, the first of them lowest. -/
def wordOf (bytes : Array UInt8) (position : Nat) : UInt32 :=
  let byte (i : Nat) : UInt32 := (bytes[position + i]?.getD 0).toUInt32
  byte 0 ||| (byte 1 <<< 8) ||| (byte 2 <<< 16) ||| (byte 3 <<< 24)

def blockOf (bytes : List UInt8) : Block :=
  let bytes := bytes.toArray
  Vector.ofFn fun i => wordOf bytes (4 * i)

/-- The last block of a chunk, after the others have been compressed. -/
def chunkNode (counter : UInt64) (before : ChainingValue) (flags : UInt32) (input : List UInt8) :
    Node :=
  if input.length ≤ blockLength then
    ⟨before, blockOf input, counter, .ofNat input.length, flags ||| chunkEnd⟩
  else
    let next : Node := ⟨before, blockOf (input.take blockLength), counter, .ofNat blockLength, flags⟩
    chunkNode counter next.compress 0 (input.drop blockLength)
termination_by input.length
decreasing_by simp only [blockLength, List.length_drop] at *; omega

/-- The bytes below the left branch of a tree over more than one chunk. -/
def leftLength (length : Nat) : Nat := 2 ^ (length - 1).log2

theorem leftLength_lt {length : Nat} (h : 1 < length) : leftLength length < length := by
  have := Nat.log2_self_le (n := length - 1) (by omega)
  unfold leftLength
  omega

def treeNode (counter : UInt64) (input : List UInt8) : Node :=
  if input.length ≤ chunkLength then chunkNode counter initialValue chunkStart input
  else
    let left := leftLength input.length
    let leftNode := treeNode counter (input.take left)
    let rightNode := treeNode (counter + .ofNat (left / chunkLength)) (input.drop left)
    ⟨initialValue, leftNode.compress ++ rightNode.compress, 0, .ofNat blockLength, parent⟩
termination_by input.length
decreasing_by
  · have := @leftLength_lt input.length (by rename_i h; unfold chunkLength at h; omega)
    simp only [List.length_take]
    omega
  · have := Nat.two_pow_pos (input.length - 1).log2
    rename_i h
    simp only [List.length_drop, leftLength]
    unfold chunkLength at h
    omega

def hash (input : List UInt8) : ChainingValue :=
  let node := treeNode 0 input
  { node with flags := node.flags ||| root }.compress

def hexDigits (byte : UInt8) : List Char :=
  [(byte.toNat / 16).digitChar, (byte.toNat % 16).digitChar]

def text (digest : ChainingValue) : String :=
  String.ofList <| digest.toList.flatMap fun (word : UInt32) =>
    [word, word >>> 8, word >>> 16, word >>> 24].flatMap fun (w : UInt32) => hexDigits w.toUInt8

end RegisterMachine.Digest
