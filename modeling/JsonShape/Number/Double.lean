import JsonShape.Number.Rounding

namespace JsonShape

-- A finite double: a sign and a magnitude.
structure Binary64 where
  negative : Bool
  quanta : Nat
  representable : Representable quanta
deriving DecidableEq

-- The number that a double stands for.
inductive Double
  | finite (quanta : Int) (representable : Representable quanta.natAbs)
  | infinite
deriving DecidableEq

namespace Binary64

-- The double with this sign and magnitude, unless the magnitude is too large.
def ofQuanta? (negative : Bool) (quanta : Nat) : Option Binary64 :=
  if h : Representable quanta then some ⟨negative, quanta, h⟩ else none

theorem ofQuanta?_quanta (x : Binary64) : ofQuanta? x.negative x.quanta = some x := by
  simp [ofQuanta?, x.representable]

def negativeZero : Binary64 := ⟨true, 0, representable_zero⟩

end Binary64

namespace Double

-- The number with this sign and magnitude; one that is too large is infinite.
def ofQuanta (negative : Bool) (quanta : Nat) : Double :=
  if h : Representable quanta then
    .finite (if negative then -quanta else quanta) (by split <;> simpa using h)
  else .infinite

def ofInt (n : Int) : Double :=
  ofQuanta (n < 0) (nearestQuanta n.natAbs 1)

def zero : Double := .finite 0 representable_zero

end Double

def Binary64.value (x : Binary64) : Double :=
  .ofQuanta x.negative x.quanta

theorem Binary64.value_ne_infinite (x : Binary64) : x.value ≠ .infinite := by
  simp [value, Double.ofQuanta, x.representable]

end JsonShape
