/-!
# Drawing at random

Some elements of a list are drawn without putting any back. What is drawn is settled by a list of
indices, each into what is left at that moment; the indices come from a generator that always
yields the same ones from the same seed. Nothing else is asked of a source of indices than to answer
a bound with a number below it, so drawing is written for any such source.

* **`Draw.pull?`**: one element out of an array, the last one taking its place.
* **`Draw.select`**: the elements that a list of indices draws.
* **`Draw.sampleBy`**: so many elements, the indices taken from some source.
* **`Generator.below`**: a number below a bound, all equally likely.
* **`Draw.sample`**: so many elements, the indices taken from a generator.
-/

namespace ExactCover

/-! ### Drawing by index -/

namespace Draw

variable {α : Type}

/-- The element at an index, and the array without it: the last element moves to its place. -/
@[inline] def pull? (xs : Array α) (i : Nat) : Option (α × Array α) :=
  if h : i < xs.size then some (xs[i], (xs.set i (xs.back (by omega))).pop) else none

/-- The elements that a list of indices draws, one after the other. Indices out of range draw
nothing. -/
def select : Array α → List Nat → List α
  | _, [] => []
  | xs, i :: rest =>
    match pull? xs i with
    | some (x, left) => x :: select left rest
    | none => select xs rest

theorem size_of_pull? {xs left : Array α} {i : Nat} {x : α} (h : pull? xs i = some (x, left)) :
    left.size + 1 = xs.size := by
  unfold pull? at h
  split at h
  · cases h; simp; omega
  · cases h

/-! ### Drawing from a source of indices -/

section Source

variable {m : Type → Type} [Monad m]

/-- Indices for so many draws out of a list of the given length, which must not be shorter. For each
draw the source is asked for a number below the length of what is left. -/
@[specialize] def indices (below : Nat → m Nat) : Nat → Nat → m (List Nat)
  | 0, _ => return []
  | amount + 1, length => do
    let i ← below length
    return i :: (← indices below amount (length - 1))

/-- So many elements in the order in which they are drawn; all of them, in their own order and
without a draw, if there are no more than that. -/
@[specialize] def sampleBy (below : Nat → m Nat) (amount : Nat) (xs : List α) : m (List α) :=
  if xs.length ≤ amount then return xs
  else return select xs.toArray (← indices below amount xs.length)

end Source

end Draw

/-! ### The generator -/

/-- A generator of 64-bit words: a counter in steps of a fixed size, its value scrambled by a wide
multiplication. -/
structure Generator where
  state : UInt64
  deriving DecidableEq, Repr

namespace Generator

def increment : UInt64 := 0x2d358dccaa6c78a5

/-- What one factor of the multiplication is mixed with. -/
def mask : UInt64 := 0x8bb84b93962eacc9

/-- The two halves of a product of two words, the high one first. -/
def wideProduct (a b : UInt64) : UInt64 × UInt64 :=
  let product := a.toNat * b.toNat
  (UInt64.ofNat (product / UInt64.size), UInt64.ofNat product)

def next (g : Generator) : UInt64 × Generator :=
  let state := g.state + increment
  let (high, low) := wideProduct state (state ^^^ mask)
  (low ^^^ high, ⟨state⟩)

/-- A number below `n`, from the high half of a word times `n`. Words whose low half falls below
`threshold` would make some numbers likelier than others, so another word is taken; the first
argument bounds how often. -/
def drawBelow (n : UInt64) (threshold : UInt64) : Nat → Generator → Nat × Generator
  | 0, g => (0, g)
  | fuel + 1, g =>
    let (word, g) := g.next
    let (high, low) := wideProduct word n
    if low < threshold then drawBelow n threshold fuel g else (high.toNat, g)

/-- A number below `n`, all of them equally likely. -/
def below (n : Nat) (g : Generator) : Nat × Generator :=
  let n := UInt64.ofNat n
  drawBelow n ((0 - n) % n) UInt64.size g

end Generator

namespace Draw

/-- So many elements, drawn by the numbers of a generator. Answers the generator after the draws. -/
def sample {α : Type} (amount : Nat) (xs : List α) (g : Generator) : List α × Generator :=
  (sampleBy (m := StateM Generator) (fun n g => g.below n) amount xs).run g

end Draw

end ExactCover
