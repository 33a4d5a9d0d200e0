/-!
A reproducible stream of random words: the keystream of ChaCha with twelve rounds under a key that
is spread from a 64-bit seed. The stream is endless, so drawing a word always succeeds.
-/

namespace ClauseLearning.Randomness

/-- The state of the cipher: sixteen words. -/
abbrev Block := Vector UInt32 16

/-- The word with its bits rotated to the left; the amount is between 1 and 31. -/
def rotateLeft (x amount : UInt32) : UInt32 :=
  (x <<< amount) ||| (x >>> (32 - amount))

/-- One step of a quarter round: `a += b`, then `d` is mixed with `a` and rotated. -/
def mixStep (s : Block) (a b d : Fin 16) (amount : UInt32) : Block :=
  let s := s.set a (s[a] + s[b])
  s.set d (rotateLeft (s[d] ^^^ s[a]) amount)

/-- A quarter round on four words of the state. -/
def quarterRound (s : Block) (a b c d : Fin 16) : Block :=
  mixStep (mixStep (mixStep (mixStep s a b d 16) c d b 12) a b d 8) c d b 7

/-- A round on the columns and a round on the diagonals. -/
def doubleRound (s : Block) : Block :=
  let s := quarterRound s 0 4 8 12
  let s := quarterRound s 1 5 9 13
  let s := quarterRound s 2 6 10 14
  let s := quarterRound s 3 7 11 15
  let s := quarterRound s 0 5 10 15
  let s := quarterRound s 1 6 11 12
  let s := quarterRound s 2 7 8 13
  quarterRound s 3 4 9 14

/-- The state before the rounds: four constants, the key, a 64-bit counter and a zero nonce. -/
def initialBlock (key : Vector UInt32 8) (counter : UInt64) : Block :=
  #v[0x61707865, 0x3320646E, 0x79622D32, 0x6B206574, key[0], key[1], key[2], key[3], key[4], key[5],
    key[6], key[7], counter.toUInt32, (counter >>> 32).toUInt32, 0, 0]

/-- The words that the cipher gives for one value of the counter. -/
def cipherBlock (key : Vector UInt32 8) (counter : UInt64) : Block :=
  let start := initialBlock key counter
  Vector.zipWith (· + ·) (Nat.repeat doubleRound 6 start) start

/-- A position in a keystream. -/
structure Keystream where
  /-- The key of the cipher. -/
  key : Vector UInt32 8
  /-- The counter of the current block. -/
  counter : UInt64
  /-- The current block. -/
  block : Block
  /-- The next word of the current block. -/
  position : Fin 16

namespace Keystream

/-- The start of the block with the given counter. -/
def atBlock (key : Vector UInt32 8) (counter : UInt64) : Keystream :=
  ⟨key, counter, cipherBlock key counter, 0⟩

/-- The next word, and the stream after it. -/
def next (s : Keystream) : UInt32 × Keystream :=
  (s.block[s.position],
    if h : s.position.val + 1 < 16 then { s with position := ⟨s.position.val + 1, h⟩ }
    else atBlock s.key (s.counter + 1))

/-- The next two words as one number, the first being the low half. -/
def nextPair (s : Keystream) : Nat × Keystream :=
  let (low, s) := s.next
  let (high, s) := s.next
  (low.toNat + UInt32.size * high.toNat, s)

/-- One step of the generator that spreads a seed over a key. -/
def spreadStep (state : UInt64) : UInt64 :=
  state * 6364136223846793005 + 11634580027462260723

/-- The key word of a state of that generator: a xorshift, then a rotation by the top bits. -/
def spreadWord (state : UInt64) : UInt32 :=
  let mixed := (((state >>> 18) ^^^ state) >>> 27).toUInt32
  let amount := (state >>> 59).toUInt32
  (mixed >>> amount) ||| (mixed <<< ((32 - amount) % 32))

/-- The key of a seed. -/
def keyOfSeed (seed : UInt64) : Vector UInt32 8 :=
  Vector.ofFn fun i => spreadWord (Nat.repeat spreadStep (i.val + 1) seed)

/-- The stream of a seed. -/
def ofSeed (seed : UInt64) : Keystream :=
  atBlock (keyOfSeed seed) 0

end Keystream

end ClauseLearning.Randomness
