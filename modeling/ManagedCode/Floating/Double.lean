import ManagedCode.Floating.Format

/-!
# Numbers of 64 bits

`Double` is a bit pattern of the 64 bit format. Each operation computes exactly and rounds once; comparisons treat the
two zeros as equal and a pattern that is no number as unordered.
-/

namespace ManagedCode

open Floating

/-- A floating point number of 64 bits, kept as its pattern so that nothing of it is lost in storage. -/
structure Double where
  bits : BitVec 64
  deriving DecidableEq, Repr

namespace Double

/-- The pattern with the value `n`, cut to 64 bits. -/
def ofNat (n : Nat) : Double := ⟨BitVec.ofNat 64 n⟩

def reading (x : Double) : Reading := double.read x.bits.toNat

def nan : Double := ofNat double.quiet

def infinity (negative : Bool) : Double := ofNat (double.sign negative double.infinity)

def zero (negative : Bool) : Double := ofNat (double.sign negative 0)

/-- The number nearest to `± n / d`. -/
def ofQuotient (negative : Bool) (n d : Nat) : Double := ofNat (double.round negative n d)

/-- The number nearest to `± m * 2 ^ q`. -/
def ofScaled (negative : Bool) (m : Nat) (q : Int) : Double := ofNat (double.roundScaled negative m q)

/-- The number nearest to a whole number. -/
def ofInt (n : Int) : Double := ofQuotient (decide (n < 0)) n.natAbs 1

def isNegative (x : Double) : Bool := x.bits.msb

def isNaN (x : Double) : Bool := x.reading == .nan

def isFinite (x : Double) : Bool :=
  match x.reading with
  | .finite .. => true
  | _ => false

def neg (x : Double) : Double := ⟨x.bits ^^^ BitVec.ofNat 64 (2 ^ 63)⟩

/-- `± m * 2 ^ q` as a whole number of units `2 ^ unit`, for a unit not above `q`. -/
def units (negative : Bool) (m : Nat) (q unit : Int) : Int :=
  let n : Int := m * 2 ^ (q - unit).toNat
  if negative then -n else n

/-- An exact sum that is zero is negative only if both summands are. -/
def add (x y : Double) : Double :=
  match x.reading, y.reading with
  | .nan, _ | _, .nan => nan
  | .infinite s, .infinite t => if s = t then infinity s else nan
  | .infinite s, .finite .. => infinity s
  | .finite .., .infinite t => infinity t
  | .finite s m p, .finite t n q =>
    let unit := min p q
    let sum := units s m p unit + units t n q unit
    if sum = 0 then zero (s && t) else ofScaled (decide (sum < 0)) sum.natAbs unit

def sub (x y : Double) : Double := add x y.neg

def mul (x y : Double) : Double :=
  match x.reading, y.reading with
  | .nan, _ | _, .nan => nan
  | .infinite s, .infinite t => infinity (s != t)
  | .infinite s, .finite t n _ | .finite t n _, .infinite s => if n = 0 then nan else infinity (s != t)
  | .finite s m p, .finite t n q => ofScaled (s != t) (m * n) (p + q)

def div (x y : Double) : Double :=
  match x.reading, y.reading with
  | .nan, _ | _, .nan | .infinite _, .infinite _ => nan
  | .infinite s, .finite t _ _ => infinity (s != t)
  | .finite s _ _, .infinite t => zero (s != t)
  | .finite s m p, .finite t n q =>
    if n = 0 then (if m = 0 then nan else infinity (s != t))
    else if p ≥ q then ofQuotient (s != t) (m * 2 ^ (p - q).toNat) n
    else ofQuotient (s != t) m (n * 2 ^ (q - p).toNat)

/-- The remainder of the division truncated toward zero. It is exact and has the sign of the dividend. -/
def rem (x y : Double) : Double :=
  match x.reading, y.reading with
  | .nan, _ | _, .nan | .infinite _, _ => nan
  | .finite .., .infinite _ => x
  | .finite s m p, .finite _ n q =>
    if n = 0 then nan
    else
      let unit := min p q
      ofScaled s ((m * 2 ^ (p - unit).toNat) % (n * 2 ^ (q - unit).toNat)) unit

/-- The order of numbers is the order of these keys; both zeros have the key 0. -/
def key (x : Double) : Int :=
  let magnitude : Int := (x.bits.toNat % 2 ^ 63 : Nat)
  if x.isNegative then -magnitude else magnitude

def eq (x y : Double) : Bool := !x.isNaN && !y.isNaN && x.key == y.key

def lt (x y : Double) : Bool := !x.isNaN && !y.isNaN && decide (x.key < y.key)

def le (x y : Double) : Bool := !x.isNaN && !y.isNaN && decide (x.key ≤ y.key)

/-- The whole number toward zero, where there is one. -/
def truncate? (x : Double) : Option Int :=
  match x.reading with
  | .finite s m q =>
    let n := if 0 ≤ q then m * 2 ^ q.toNat else m / 2 ^ (-q).toNat
    some (if s then -(n : Int) else n)
  | _ => none

/-- The pattern of 32 bits nearest to the number. -/
def toSingle (x : Double) : BitVec 32 := BitVec.ofNat 32 (double.convert single x.bits.toNat)

/-- The number that a pattern of 32 bits stands for. -/
def ofSingle (b : BitVec 32) : Double := ofNat (single.convert double b.toNat)

/-- The nearest number that 32 bits can hold. -/
def narrow (x : Double) : Double := ofSingle x.toSingle

end Double

end ManagedCode
