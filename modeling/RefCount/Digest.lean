/-
BLAKE2b with 32 bytes of digest and no key: words of 64 bits, twelve rounds
over blocks of 128 bytes, each of which mixes the sixteen words of the work
vector by columns and then by diagonals, with the words of the block in the
order that the round prescribes.
-/
import RefCount.Text.Bytes

namespace RefCount.Digest

/-- Eight words: the state between blocks. -/
abbrev Chain := Vector UInt64 8

/-- Sixteen words: a block, or the work vector. -/
abbrev Words := Vector UInt64 16

/-- The words that the state starts from. -/
def start : Chain :=
  #v[0x6a09e667f3bcc908, 0xbb67ae8584caa73b, 0x3c6ef372fe94f82b, 0xa54ff53a5f1d36f1,
    0x510e527fade682d1, 0x9b05688c2b3e6c1f, 0x1f83d9abfb41bd6b, 0x5be0cd19137e2179]

/-- The order of a block's words in each round. -/
def schedule : List (Vector (Fin 16) 16) :=
  [#v[0, 1, 2, 3, 4, 5, 6, 7, 8, 9, 10, 11, 12, 13, 14, 15],
    #v[14, 10, 4, 8, 9, 15, 13, 6, 1, 12, 0, 2, 11, 7, 5, 3],
    #v[11, 8, 12, 0, 5, 2, 15, 13, 10, 14, 3, 6, 7, 1, 9, 4],
    #v[7, 9, 3, 1, 13, 12, 11, 14, 2, 6, 5, 10, 4, 0, 15, 8],
    #v[9, 0, 5, 7, 2, 4, 10, 15, 14, 1, 11, 12, 6, 8, 3, 13],
    #v[2, 12, 6, 10, 0, 11, 8, 3, 4, 13, 7, 5, 15, 14, 1, 9],
    #v[12, 5, 1, 15, 14, 13, 4, 10, 0, 7, 6, 3, 9, 2, 8, 11],
    #v[13, 11, 7, 14, 12, 1, 3, 9, 5, 0, 15, 4, 8, 6, 2, 10],
    #v[6, 15, 14, 9, 11, 3, 0, 8, 12, 2, 13, 7, 1, 4, 10, 5],
    #v[10, 2, 8, 4, 7, 6, 1, 5, 15, 11, 9, 14, 3, 12, 13, 0],
    #v[0, 1, 2, 3, 4, 5, 6, 7, 8, 9, 10, 11, 12, 13, 14, 15],
    #v[14, 10, 4, 8, 9, 15, 13, 6, 1, 12, 0, 2, 11, 7, 5, 3]]

/-- The four words that a mixing step works on: the columns, then the
diagonals. -/
def lanes : List (Fin 16 × Fin 16 × Fin 16 × Fin 16) :=
  [(0, 4, 8, 12), (1, 5, 9, 13), (2, 6, 10, 14), (3, 7, 11, 15),
    (0, 5, 10, 15), (1, 6, 11, 12), (2, 7, 8, 13), (3, 4, 9, 14)]

def rotateRight (x n : UInt64) : UInt64 := (x >>> n) ||| (x <<< (64 - n))

/-- Mixes two words into four of the work vector. -/
def mix (v : Words) (lane : Fin 16 × Fin 16 × Fin 16 × Fin 16) (x y : UInt64) : Words :=
  let (ia, ib, ic, id) := lane
  let a := v[ia] + v[ib] + x
  let d := rotateRight (v[id] ^^^ a) 32
  let c := v[ic] + d
  let b := rotateRight (v[ib] ^^^ c) 24
  let a := a + b + y
  let d := rotateRight (d ^^^ a) 16
  let c := c + d
  let b := rotateRight (b ^^^ c) 63
  (((v.set ia a).set ib b).set ic c).set id d

def mixRound (block : Words) (v : Words) (order : Vector (Fin 16) 16) : Words :=
  lanes.zipIdx.foldl
    (fun v (lane, i) =>
      let word (j : Nat) : UInt64 := block[order.toArray.getD j 0]
      mix v lane (word (2 * i)) (word (2 * i + 1)))
    v

/-- Takes a block into the state. `count` is the number of bytes up to its
end. -/
def compress (h : Chain) (block : Words) (count : Nat) (isLast : Bool) : Chain :=
  let work : Words := h ++ start
  let work := (work.set 12 (work[12] ^^^ count.toUInt64)).set 13
    (work[13] ^^^ (count / Nat.pow 2 64).toUInt64)
  let work := if isLast then work.set 14 (~~~work[14]) else work
  let work := schedule.foldl (mixRound block) work
  Vector.ofFn fun i => h[i] ^^^ work[i.val] ^^^ work[i.val + 8]

/-- The number whose bytes are given, the lowest first. -/
def littleEndian : Bytes → UInt64
  | [] => 0
  | b :: bs => b.toUInt64 ||| (littleEndian bs <<< 8)

/-- The words of a block; missing bytes are zero. -/
def wordsOf (block : Bytes) : Words :=
  Vector.ofFn fun i => littleEndian ((block.drop (8 * i.val)).take 8)

/-- Takes the blocks of a message into the state. `left` bounds their number,
and `done` is the number of bytes before. -/
def absorb : Nat → Chain → Nat → Bytes → Chain
  | 0, h, _, _ => h
  | left + 1, h, done, message =>
    if message.length ≤ 128 then compress h (wordsOf message) (done + message.length) true
    else
      absorb left (compress h (wordsOf (message.take 128)) (done + 128) false) (done + 128)
        (message.drop 128)

/-- The bytes of a word, the lowest first. -/
def bytesOf (w : UInt64) : Bytes := (List.range 8).map fun i => (w >>> (8 * i.toUInt64)).toUInt8

def digest (message : Bytes) : Bytes :=
  let h := start.set 0 (start[0] ^^^ 0x01010020)
  let h := absorb (message.length / 128 + 1) h 0 message
  (h.toList.flatMap bytesOf).take 32

end RefCount.Digest
