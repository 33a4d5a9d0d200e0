import ClauseLearning.Randomness.Keystream

/-!
Random choices from a keystream: a fair coin, a number below a bound, an element of a list, and
distinct numbers below a bound. Numbers below a bound are uniform because words that would favour
some of them are refused and drawn again.
-/

namespace ClauseLearning.Randomness

/-- A fair coin. -/
def coin (s : Keystream) : Bool × Keystream :=
  let (x, s) := s.nextPair
  (x < UInt64.size / 2, s)

/-- The largest low half with which a scaled word is accepted: the widest multiple of the range. -/
def acceptance (range : Nat) : Nat :=
  range <<< (31 - range.log2) - 1

/-- A number below the range, scaled from a word; after `tries` refusals the word at hand is
taken, so that the result is below the range whatever the stream holds. -/
def belowWithin (range : Nat) : Nat → Keystream → Nat × Keystream
  | 0, s =>
    let (word, s) := s.next
    (word.toNat * range / UInt32.size, s)
  | tries + 1, s =>
    let (word, s) := s.next
    let scaled := word.toNat * range
    if scaled % UInt32.size ≤ acceptance range then (scaled / UInt32.size, s)
    else belowWithin range tries s

/-- A uniform number below a positive range of at most 32 bits. Each word is refused with a chance
below one half, so a thousand refusals in a row do not occur. -/
def below (range : Nat) (s : Keystream) : Nat × Keystream :=
  belowWithin range 1000 s

/-- Goes through a list from its `seen`-th element, each replacing the one held with chance one in
the number of elements seen. -/
def chooseFrom (seen : Nat) (held : Option α) : List α → Keystream → Option α × Keystream
  | [], s => (held, s)
  | x :: rest, s =>
    let (i, s) := below (seen + 1) s
    chooseFrom (seen + 1) (if i = 0 then some x else held) rest s

/-- A uniform element of a list, none if it is empty. -/
def choose (xs : List α) (s : Keystream) : Option α × Keystream :=
  chooseFrom 0 none xs s

/-- Settles the positions from `i` on, `count` of them, by swapping in a random later element. -/
def shuffleFrom (i : Nat) : Nat → Array Nat → Keystream → Array Nat × Keystream
  | 0, xs, s => (xs, s)
  | count + 1, xs, s =>
    let (offset, s) := below (xs.size - i) s
    shuffleFrom (i + 1) count (xs.swapIfInBounds i (i + offset)) s

/-- `k` distinct numbers below `n`, from a partial shuffle of all of them. -/
def sampleByShuffle (n k : Nat) (s : Keystream) : List Nat × Keystream :=
  let (xs, s) := shuffleFrom 0 k (Array.range n) s
  (xs.toList.take k, s)

/-- The list with `x` right before the first `mark`, or at its end if there is no `mark`. -/
def insertBefore (mark x : Nat) : List Nat → List Nat
  | [] => [x]
  | y :: rest => if y = mark then x :: y :: rest else y :: insertBefore mark x rest

/-- Adds a number for each bound from `top` on, `count` of them: a draw up to the bound, or the
bound itself right before the draw if that is there already. -/
def fillFrom (top : Nat) : Nat → List Nat → Keystream → List Nat × Keystream
  | 0, picked, s => (picked, s)
  | count + 1, picked, s =>
    let (t, s) := below (top + 1) s
    let picked := if t ∈ picked then insertBefore t top picked else picked ++ [t]
    fillFrom (top + 1) count picked s

/-- `k` distinct numbers below `n`, one draw for each. -/
def sampleByFilling (n k : Nat) (s : Keystream) : List Nat × Keystream :=
  fillFrom (n - k) k [] s

/-- Whether shuffling all `n` numbers is the cheaper way to sample `k` of them. -/
def shufflingPays (n k : Nat) : Bool :=
  if k < 163 then
    11 < k && (if n < 500000 then 10 * n < (100 + 16 * k) * k else 45 * n < (350 + 8 * k) * k)
  else if n < 500000 then n < 270 * k else 9 * n < 330 * k

/-- `k` distinct numbers below `n`, for `k ≤ n`, in random order. -/
def sample (n k : Nat) (s : Keystream) : List Nat × Keystream :=
  if shufflingPays n k then sampleByShuffle n k s else sampleByFilling n k s

end ClauseLearning.Randomness
