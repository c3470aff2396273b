/-!
# A seeded stream of random words

The ChaCha stream cipher with 20 rounds, used as a source of random numbers: the key is expanded from a seed,
blocks are numbered from zero by a 64-bit counter, and the words of the blocks in order, two at a time, are
the numbers of the stream.
-/

namespace FiniteDomain.Random

/-! ## Blocks -/

/-- A block of sixteen words. -/
abbrev Block := Vector UInt32 16

/-- A word rotated to the left. -/
def rotateLeft (x : UInt32) (n : UInt32) : UInt32 :=
  (x <<< n) ||| (x >>> (32 - n))

/-- Mixes four words of a block. -/
def quarterRound (a b c d : Fin 16) (s : Block) : Block :=
  let s := s.set a (s[a] + s[b])
  let s := s.set d (rotateLeft (s[d] ^^^ s[a]) 16)
  let s := s.set c (s[c] + s[d])
  let s := s.set b (rotateLeft (s[b] ^^^ s[c]) 12)
  let s := s.set a (s[a] + s[b])
  let s := s.set d (rotateLeft (s[d] ^^^ s[a]) 8)
  let s := s.set c (s[c] + s[d])
  s.set b (rotateLeft (s[b] ^^^ s[c]) 7)

/-- Mixes the columns of a block, then its diagonals. -/
def doubleRound (s : Block) : Block :=
  let s := quarterRound 0 4 8 12 s
  let s := quarterRound 1 5 9 13 s
  let s := quarterRound 2 6 10 14 s
  let s := quarterRound 3 7 11 15 s
  let s := quarterRound 0 5 10 15 s
  let s := quarterRound 1 6 11 12 s
  let s := quarterRound 2 7 8 13 s
  quarterRound 3 4 9 14 s

/-- The block before mixing: four constants, the key, the counter, and two zeros. -/
def initialBlock (key : Vector UInt32 8) (counter : UInt64) : Block :=
  (#v[0x61707865, 0x3320646e, 0x79622d32, 0x6b206574] : Vector UInt32 4) ++ key
    ++ (#v[counter.toUInt32, (counter >>> 32).toUInt32, 0, 0] : Vector UInt32 4)

/-- The block with a number. -/
def block (key : Vector UInt32 8) (counter : UInt64) : Block :=
  let start := initialBlock key counter
  (Nat.repeat doubleRound 10 start).zipWith (· + ·) start

/-! ## Keys -/

/-- The state of the key expansion after one step. -/
def nextState (state : UInt64) : UInt64 :=
  state * 6364136223846793005 + 11634580027462260723

/-- The key word of a state of the key expansion: some of its high bits, rotated to the right by as much as
the highest five say. -/
def keyWord (state : UInt64) : UInt32 :=
  let x := (((state >>> 18) ^^^ state) >>> 27).toUInt32
  let n := (state >>> 59).toUInt32
  (x >>> n) ||| (x <<< ((32 - n) % 32))

/-- The key of a seed. -/
def keyOfSeed (seed : UInt64) : Vector UInt32 8 :=
  Vector.ofFn fun i => keyWord (Nat.repeat nextState (i.val + 1) seed)

/-! ## Numbers -/

/-- Random numbers by their place in a stream. -/
abbrev Draws := Nat → UInt64

/-- The stream of a seed. -/
def seeded (seed : UInt64) : Draws :=
  let key := keyOfSeed seed
  fun k =>
    let words := block key (UInt64.ofNat (k / 8))
    let low := words.toList.getD (2 * (k % 8)) 0
    let high := words.toList.getD (2 * (k % 8) + 1) 0
    low.toUInt64 ||| (high.toUInt64 <<< 32)

/-- Given numbers played again and again; zeros if there are none. -/
def cyclic (numbers : List UInt64) : Draws :=
  fun k => numbers.getD (k % numbers.length) 0

end FiniteDomain.Random
