/-!
# Generators of uniform numbers

Sampling takes uniform numbers from a generator: a state together with a
function that yields the next number and the next state. A generator of words
becomes one of numbers in `[0, 1)` by dividing the upper 53 bits of a word by
`2 ^ 53`.
-/

namespace ChoiceSearch

/-- A source of uniform numbers, with states of type `G`. -/
class Generator (G R : Type) where
  /-- The next uniform number in `[0, 1)`, and the state after it. -/
  uniform : G → R × G

/-- The double in `[0, 1)` made of the upper 53 bits of a word. -/
def unitDouble (word : UInt64) : Float :=
  Float.scaleB (Float.ofNat (word >>> 11).toNat) (-53)

/-- A generator that hands out a list of words again and again. -/
structure Cycle where
  /-- The words. -/
  words : Array UInt64
  /-- The number of words handed out. -/
  taken : Nat := 0

namespace Cycle

/-- The next word; zero if there is none to hand out. -/
def next (c : Cycle) : UInt64 × Cycle :=
  (c.words.getD (c.taken % c.words.size) 0, { c with taken := c.taken + 1 })

instance : Generator Cycle Float where
  uniform c := let (word, c) := c.next; (unitDouble word, c)

end Cycle

end ChoiceSearch
