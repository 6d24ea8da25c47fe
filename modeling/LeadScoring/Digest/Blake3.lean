/-!
# BLAKE3 digests

The hash function BLAKE3 with its default output of 32 bytes.  The input is cut into chunks of
1024 bytes, a chunk is compressed in blocks of 64 bytes, and the chunks become the leaves of a
binary tree whose left subtrees are complete.  The tree is built with a stack of finished
subtrees: two of equal size are joined at once.

Main definitions:

- `Blake3.compress`: the compression function.
- `Blake3.hash`: the digest of a row of bytes.
- `Blake3.hexDigest`: the digest of a text in hexadecimal.
-/

namespace LeadScoring.Blake3

/-- Eight words that stand for all input below a node. -/
abbrev ChainingValue := Vector UInt32 8

/-- Sixteen words: a block of input, or the state of a compression. -/
abbrev Block := Vector UInt32 16

/-- The initial chaining value. -/
def initialValue : ChainingValue :=
  #v[0x6A09E667, 0xBB67AE85, 0x3C6EF372, 0xA54FF53A, 0x510E527F, 0x9B05688C, 0x1F83D9AB,
    0x5BE0CD19]

/-! ## Domain flags -/

/-- The first block of a chunk. -/
def chunkStart : UInt32 := 1

/-- The last block of a chunk. -/
def chunkEnd : UInt32 := 2

/-- A node above two others. -/
def parent : UInt32 := 4

/-- The topmost node. -/
def root : UInt32 := 8

/-! ## Compression -/

/-- Rotation to the right. -/
def rotate (x : UInt32) (n : UInt32) : UInt32 :=
  (x >>> n) ||| (x <<< (32 - n))

/-- Mixes two message words into four words of the state. -/
def mix (v : Block) (a b c d : Fin 16) (x y : UInt32) : Block :=
  let va := v[a] + v[b] + x
  let vd := rotate (v[d] ^^^ va) 16
  let vc := v[c] + vd
  let vb := rotate (v[b] ^^^ vc) 12
  let va := va + vb + y
  let vd := rotate (vd ^^^ va) 8
  let vc := vc + vd
  let vb := rotate (vb ^^^ vc) 7
  (((v.set a va).set b vb).set c vc).set d vd

/-- One round: the columns of the state, then its diagonals. -/
def round (v m : Block) : Block :=
  let v := mix v 0 4 8 12 m[0] m[1]
  let v := mix v 1 5 9 13 m[2] m[3]
  let v := mix v 2 6 10 14 m[4] m[5]
  let v := mix v 3 7 11 15 m[6] m[7]
  let v := mix v 0 5 10 15 m[8] m[9]
  let v := mix v 1 6 11 12 m[10] m[11]
  let v := mix v 2 7 8 13 m[12] m[13]
  mix v 3 4 9 14 m[14] m[15]

/-- The order in which the next round takes the message words. -/
def permute (m : Block) : Block :=
  #v[m[2], m[6], m[3], m[10], m[7], m[0], m[4], m[13], m[1], m[11], m[12], m[5], m[9], m[14],
    m[15], m[8]]

/-- A number of rounds, the message permuted between them. -/
def rounds : Nat → Block → Block → Block
  | 0, v, _ => v
  | n + 1, v, m => rounds n (round v m) (permute m)

/-- A node of the tree before its flags are complete. -/
structure Node where
  value : ChainingValue
  block : Block
  counter : UInt64
  length : UInt32
  flags : UInt32

/-- The first eight words of the compression of a node. -/
def compress (node : Node) : ChainingValue :=
  let h := node.value
  let low := node.counter.toUInt32
  let high := (node.counter >>> 32).toUInt32
  let v : Block :=
    #v[h[0], h[1], h[2], h[3], h[4], h[5], h[6], h[7], initialValue[0], initialValue[1],
      initialValue[2], initialValue[3], low, high, node.length, node.flags]
  let v := rounds 7 v node.block
  #v[v[0] ^^^ v[8], v[1] ^^^ v[9], v[2] ^^^ v[10], v[3] ^^^ v[11], v[4] ^^^ v[12],
    v[5] ^^^ v[13], v[6] ^^^ v[14], v[7] ^^^ v[15]]

/-! ## Chunks -/

/-- The list cut into pieces of a given size, the last one possibly shorter. -/
def pieces (size : Nat) (bytes : List UInt8) : Nat → List (List UInt8)
  | 0 => []
  | n + 1 => bytes.take size :: pieces size (bytes.drop size) n

/-- All pieces of a list; the empty list has one empty piece. -/
def cut (size : Nat) (bytes : List UInt8) : List (List UInt8) :=
  pieces size bytes (((bytes.length + size - 1) / size) + (if bytes.isEmpty then 1 else 0))

/-- A byte of a block, zero past its end. -/
def byteAt (bytes : Array UInt8) (i : Nat) : UInt32 :=
  (bytes.getD i 0).toUInt32

/-- The words of a block, lowest byte first, filled up with zeros. -/
def wordsOf (bytes : List UInt8) : Block :=
  let bytes := bytes.toArray
  Vector.ofFn fun i =>
    byteAt bytes (4 * i) ||| (byteAt bytes (4 * i + 1) <<< 8) |||
      (byteAt bytes (4 * i + 2) <<< 16) ||| (byteAt bytes (4 * i + 3) <<< 24)

/-- The node of a chunk from the blocks still to be read. -/
def chunkNode (counter : UInt64) (value : ChainingValue) (flags : UInt32) :
    List (List UInt8) → Node
  | [] => ⟨value, wordsOf [], counter, 0, flags ||| chunkEnd⟩
  | [block] =>
    ⟨value, wordsOf block, counter, UInt32.ofNat block.length, flags ||| chunkEnd⟩
  | block :: blocks =>
    chunkNode counter (compress ⟨value, wordsOf block, counter, 64, flags⟩) 0 blocks

/-- The node of a chunk of at most 1024 bytes. -/
def nodeOfChunk (counter : Nat) (chunk : List UInt8) : Node :=
  chunkNode (UInt64.ofNat counter) initialValue chunkStart (cut 64 chunk)

/-! ## The tree -/

/-- The node above two subtrees. -/
def parentNode (left right : ChainingValue) : Node :=
  ⟨initialValue,
    #v[left[0], left[1], left[2], left[3], left[4], left[5], left[6], left[7], right[0],
      right[1], right[2], right[3], right[4], right[5], right[6], right[7]], 0, 64, parent⟩

/-- Puts a complete subtree on the stack and joins it with equally large ones. -/
def push (size : Nat) (value : ChainingValue) :
    List (Nat × ChainingValue) → List (Nat × ChainingValue)
  | [] => [(size, value)]
  | (top, left) :: stack =>
    if top = size then push (2 * size) (compress (parentNode left value)) stack
    else (size, value) :: (top, left) :: stack

/-- The topmost node: the last chunk joined with the stack from its top down. -/
def rootNode (counter : Nat) (stack : List (Nat × ChainingValue)) : List (List UInt8) → Node
  | [] => nodeOfChunk counter []
  | [chunk] =>
    stack.foldl (fun node (_, left) => parentNode left (compress node)) (nodeOfChunk counter chunk)
  | chunk :: chunks =>
    rootNode (counter + 1) (push 1 (compress (nodeOfChunk counter chunk)) stack) chunks

/-- The bytes of a word, lowest first. -/
def bytesOfWord (w : UInt32) : List UInt8 :=
  [w.toUInt8, (w >>> 8).toUInt8, (w >>> 16).toUInt8, (w >>> 24).toUInt8]

/-- The digest of a row of bytes. -/
def hash (bytes : List UInt8) : List UInt8 :=
  let node := rootNode 0 [] (cut 1024 bytes)
  (compress { node with flags := node.flags ||| root }).toList.flatMap bytesOfWord

/-- A byte as two hexadecimal digits. -/
def hexByte (b : UInt8) : List Char :=
  [Nat.digitChar (b.toNat / 16), Nat.digitChar (b.toNat % 16)]

/-- The digest of the UTF-8 bytes of a text, in hexadecimal. -/
def hexDigest (text : String) : String :=
  String.ofList ((hash text.toUTF8.toList).flatMap hexByte)

end LeadScoring.Blake3
