/-!
# Binary floating point formats

A format of the usual binary family is fixed by the width of its significand and of its exponent. A bit pattern is
read as a sign with a number `m * 2 ^ q`, or as an infinity, or as no number; `Format.round` gives the pattern nearest
to a quotient, a tie going to the even one. Every operation of the project on floating point numbers is an exact one
followed by one rounding.
-/

namespace ManagedCode.Floating

-- Powers and sums of numbers are those of the core library, whatever else a module imports.
attribute [instance (2000)] instPowNat Zero.ofOfNat0
attribute [default_instance 20000] instPowNat

/-- A binary format: `precision` significand bits, the leading one included, and `exponentBits` bits of exponent. -/
structure Format where
  precision : Nat
  exponentBits : Nat
  deriving DecidableEq, Repr

def single : Format := ⟨24, 8⟩

def double : Format := ⟨53, 11⟩

namespace Format

/-- The number of bits below the sign. -/
def magnitudeBits (f : Format) : Nat := f.exponentBits + f.precision - 1

/-- The least exponent that a number of the format is written with. -/
def minExponent (f : Format) : Int := 3 - (2 : Int) ^ (f.exponentBits - 1) - f.precision

/-- The magnitude pattern of infinity: all exponent bits set, no fraction. -/
def infinity (f : Format) : Nat := (2 ^ f.exponentBits - 1) * 2 ^ (f.precision - 1)

/-- The magnitude pattern of the quiet value that is no number. -/
def quiet (f : Format) : Nat := f.infinity + 2 ^ (f.precision - 2)

end Format

/-- What a bit pattern stands for. -/
inductive Reading where
  | nan
  | infinite (negative : Bool)
  /-- The number `± m * 2 ^ q`; zero keeps its sign. -/
  | finite (negative : Bool) (m : Nat) (q : Int)
  deriving DecidableEq, Repr

def Format.read (f : Format) (bits : Nat) : Reading :=
  let negative := bits.testBit f.magnitudeBits
  let magnitude := bits % 2 ^ f.magnitudeBits
  let fraction := magnitude % 2 ^ (f.precision - 1)
  let exponent := magnitude / 2 ^ (f.precision - 1)
  if magnitude > f.infinity then .nan
  else if magnitude = f.infinity then .infinite negative
  else if exponent = 0 then .finite negative fraction f.minExponent
  else .finite negative (fraction + 2 ^ (f.precision - 1)) (f.minExponent + exponent - 1)

/-- The quotient `n / d` rounded to a whole number, a tie going to the even neighbour. -/
def divideToEven (n d : Nat) : Nat :=
  let q := n / d
  let r := n % d
  if 2 * r < d then q
  else if 2 * r > d then q + 1
  else q + q % 2

/-- The exponent `e` with `2 ^ e ≤ n / d < 2 ^ (e + 1)`, for positive `n` and `d`. -/
def floorLog2 (n d : Nat) : Int :=
  let guess : Int := (Nat.log2 n : Int) - Nat.log2 d
  let fits := if 0 ≤ guess then d * 2 ^ guess.toNat ≤ n else d ≤ n * 2 ^ (-guess).toNat
  if fits then guess else guess - 1

/-- The magnitude pattern nearest to `n / d`, for a positive `d`; what is too large becomes infinity. The exponent
field and the significand are added, so that a significand that rounds up to the next power of two carries into the
exponent. -/
def Format.roundMagnitude (f : Format) (n d : Nat) : Nat :=
  if n = 0 then 0
  else
    let q := max (floorLog2 n d - (f.precision - 1 : Nat)) f.minExponent
    let m := if 0 ≤ q then divideToEven n (d * 2 ^ q.toNat) else divideToEven (n * 2 ^ (-q).toNat) d
    min f.infinity ((q - f.minExponent).toNat * 2 ^ (f.precision - 1) + m)

def Format.sign (f : Format) (negative : Bool) (magnitude : Nat) : Nat :=
  if negative then magnitude + 2 ^ f.magnitudeBits else magnitude

/-- The pattern nearest to `± n / d`. -/
def Format.round (f : Format) (negative : Bool) (n d : Nat) : Nat := f.sign negative (f.roundMagnitude n d)

/-- The pattern nearest to `± m * 2 ^ q`. -/
def Format.roundScaled (f : Format) (negative : Bool) (m : Nat) (q : Int) : Nat :=
  if 0 ≤ q then f.round negative (m * 2 ^ q.toNat) 1 else f.round negative m (2 ^ (-q).toNat)

/-- The pattern in `g` nearest to what `bits` stands for in `f`. A pattern that is no number stays one, keeps its sign
and as much of its payload as fits, and becomes quiet. -/
def Format.convert (f g : Format) (bits : Nat) : Nat :=
  match f.read bits with
  | .nan =>
    let payload := bits % 2 ^ (f.precision - 1)
    let moved := payload * 2 ^ (g.precision - 1) / 2 ^ (f.precision - 1)
    g.sign (bits.testBit f.magnitudeBits) (g.infinity + (moved ||| 2 ^ (g.precision - 2)))
  | .infinite negative => g.sign negative g.infinity
  | .finite negative m q => g.roundScaled negative m q

end ManagedCode.Floating
