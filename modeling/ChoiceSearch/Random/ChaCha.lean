import ChoiceSearch.Random.Generator

/-!
# The ChaCha generator

The block function of ChaCha with twelve rounds, as a generator of 64-bit
words. A block is sixteen 32-bit words made from a key of eight words and a
64-bit block counter; a 64-bit word is made of two consecutive ones, the low
half first. The key is derived from a 64-bit seed by a linear congruential
generator whose output is permuted by a shift and a rotation.
-/

namespace ChoiceSearch

/-- The state of a ChaCha generator. -/
structure ChaCha where
  /-- The key. -/
  key : Array UInt32
  /-- The number of 64-bit words handed out. -/
  taken : Nat := 0
deriving Inhabited

namespace ChaCha

/-- The words of the constant that starts every block. -/
def constants : Array UInt32 := #[0x61707865, 0x3320646e, 0x79622d32, 0x6b206574]

/-- Rotates a word to the left. -/
def rotateLeft (x : UInt32) (n : UInt32) : UInt32 :=
  (x <<< n) ||| (x >>> (32 - n))

/-- Mixes four words of a block in place. -/
def quarterRound (s : Array UInt32) (a b c d : Nat) : Array UInt32 :=
  let xa := s.getD a 0
  let xb := s.getD b 0
  let xc := s.getD c 0
  let xd := s.getD d 0
  let xa := xa + xb
  let xd := rotateLeft (xd ^^^ xa) 16
  let xc := xc + xd
  let xb := rotateLeft (xb ^^^ xc) 12
  let xa := xa + xb
  let xd := rotateLeft (xd ^^^ xa) 8
  let xc := xc + xd
  let xb := rotateLeft (xb ^^^ xc) 7
  (((s.setIfInBounds a xa).setIfInBounds b xb).setIfInBounds c xc).setIfInBounds d xd

/-- A round over the columns of a block followed by one over its diagonals. -/
def doubleRound (s : Array UInt32) : Array UInt32 :=
  let s := quarterRound s 0 4 8 12
  let s := quarterRound s 1 5 9 13
  let s := quarterRound s 2 6 10 14
  let s := quarterRound s 3 7 11 15
  let s := quarterRound s 0 5 10 15
  let s := quarterRound s 1 6 11 12
  let s := quarterRound s 2 7 8 13
  quarterRound s 3 4 9 14

/-- The block with the given number. -/
def block (key : Array UInt32) (number : Nat) : Array UInt32 :=
  let counter : Array UInt32 :=
    #[UInt32.ofNat number, UInt32.ofNat (number >>> 32), 0, 0]
  let start := constants ++ key ++ counter
  let mixed := (List.range 6).foldl (fun s _ => doubleRound s) start
  Array.zipWith (· + ·) mixed start

/-- The next 64-bit word. -/
def next (g : ChaCha) : UInt64 × ChaCha :=
  let words := block g.key (g.taken / 8)
  let position := 2 * (g.taken % 8)
  let low := (words.getD position 0).toUInt64
  let high := (words.getD (position + 1) 0).toUInt64
  (low ||| (high <<< 32), { g with taken := g.taken + 1 })

/-- One word of a key: the next state of the congruential generator, and its
permuted output. -/
def keyWord (state : UInt64) : UInt64 × UInt32 :=
  let state := state * 6364136223846793005 + 11634580027462260723
  let folded := (((state >>> 18) ^^^ state) >>> 27).toUInt32
  let turn := (state >>> 59).toUInt32
  (state, (folded >>> turn) ||| (folded <<< ((32 - turn) % 32)))

/-- The key words that follow a state, one after the other. -/
def keyWords : Nat → UInt64 → List UInt32
  | 0, _ => []
  | count + 1, state =>
    let (state, word) := keyWord state
    word :: keyWords count state

/-- The generator with the given seed. -/
def ofSeed (seed : UInt64) : ChaCha :=
  { key := (keyWords 8 seed).toArray }

instance : Generator ChaCha Float where
  uniform g := let (word, g) := g.next; (unitDouble word, g)

end ChaCha

end ChoiceSearch
