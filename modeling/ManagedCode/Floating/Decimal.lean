import ManagedCode.Floating.Double
import ManagedCode.Text.Numeral

/-!
# Decimal text of floating point numbers

`shortest` finds the fewest decimal digits that read back as the same number, and of those the nearest to it. The
printers differ in where they place the point: `Double.text` always writes positionally, `Double.debugText` keeps a
fraction and turns to an exponent for very small and very large numbers. `Double.parse?` reads decimal text.
-/

namespace ManagedCode.Floating

/-- Digits `d₁d₂…dₙ` with the meaning `0.d₁d₂…dₙ * 10 ^ point`. -/
structure Digits where
  digits : Nat
  count : Nat
  point : Int
  deriving DecidableEq, Repr

/-- Compares `m * 2 ^ q / 4` with `c * 10 ^ e`, exactly. -/
def compareScaled (m : Nat) (q : Int) (c : Nat) (e : Int) : Ordering :=
  let left := m * (if 0 ≤ q then 2 ^ q.toNat else 1) * (if e < 0 then 10 ^ (-e).toNat else 1)
  let right := 4 * c * (if 0 ≤ e then 10 ^ e.toNat else 1) * (if q < 0 then 2 ^ (-q).toNat else 1)
  compare left right

/-- The largest `c` with `c * 10 ^ e ≤ m * 2 ^ q`. -/
def floorAt (m : Nat) (q e : Int) : Nat :=
  (m * (if 0 ≤ q then 2 ^ q.toNat else 1) * (if e < 0 then 10 ^ (-e).toNat else 1)) /
    ((if 0 ≤ e then 10 ^ e.toNat else 1) * (if q < 0 then 2 ^ (-q).toNat else 1))

def width (n : Nat) : Nat := (Nat.toDigits 10 n).length

/-- The least `point` with `m * 2 ^ q < 10 ^ point`, for a positive `m`. -/
def decimalPoint (m : Nat) (q : Int) : Int :=
  if 0 ≤ q then width (m * 2 ^ q.toNat)
  else
    let whole := m / 2 ^ (-q).toNat
    if whole ≠ 0 then width whole
    else
      -- `m * 2 ^ q < 1`: scale by a power of ten that makes it a whole number of at least one digit.
      let shift := ((-q).toNat * 78913) / 262144 + 1
      (width (m * 10 ^ shift / 2 ^ (-q).toNat) : Int) - shift

/-- Of the two neighbours of the number on the grid of `10 ^ e`, the nearest that lies strictly between `lo` and `hi`
(quarter units of `2 ^ q`), the ends included for an even significand. A tie goes up. -/
def candidate? (m : Nat) (q : Int) (lo hi : Nat) (e : Int) : Option Nat :=
  let inside (c : Nat) : Bool :=
    let low := compareScaled lo q c e
    let high := compareScaled hi q c e
    (low == .lt || (low == .eq && m % 2 == 0)) && (high == .gt || (high == .eq && m % 2 == 0))
  let below := floorAt m q e
  let above := below + 1
  match inside below, inside above with
  | true, true =>
    -- Twice the number against the sum of the neighbours.
    if compareScaled (8 * m) q (below + above) e == .lt then some below else some above
  | true, false => some below
  | false, true => some above
  | false, false => none

/-- The first grid, from coarse to fine, on which a neighbour reads back. -/
def searchGrid (m : Nat) (q : Int) (lo hi : Nat) (point : Int) : (fuel : Nat) → (n : Nat) → Nat × Int
  | 0, n => (floorAt m q (point - n), point - n)
  | fuel + 1, n =>
    match candidate? m q lo hi (point - n) with
    | some c => (c, point - n)
    | none => searchGrid m q lo hi point fuel (n + 1)

def stripZeros : (fuel : Nat) → Nat → Nat
  | 0, n => n
  | fuel + 1, n => if n ≠ 0 && n % 10 == 0 then stripZeros fuel (n / 10) else n

/-- The fewest digits that read back as `m * 2 ^ q` in the format, and of those the nearest. -/
def Format.shortest (f : Format) (m : Nat) (q : Int) : Digits :=
  let hi := 4 * m + 2
  -- The gap below a power of two is half the gap above it.
  let lo := if m = 2 ^ (f.precision - 1) && q > f.minExponent then 4 * m - 1 else 4 * m - 2
  let (c, e) := searchGrid m q lo hi (decimalPoint m q) 20 1
  let digits := stripZeros 20 c
  ⟨digits, width digits, (width c : Int) + e⟩

/-- Writes digits positionally, with at least `places` digits behind the point. -/
def Digits.positional (d : Digits) (places : Nat) : String :=
  let ds := Nat.toDigits 10 d.digits
  let whole := if d.point ≤ 0 then ['0'] else ds.take d.point.toNat ++ List.replicate (d.point.toNat - d.count) '0'
  let fraction := if d.point ≤ 0 then List.replicate (-d.point).toNat '0' ++ ds else ds.drop d.point.toNat
  let fraction := fraction ++ List.replicate (places - fraction.length) '0'
  String.ofList (if fraction.isEmpty then whole else whole ++ '.' :: fraction)

/-- Writes digits with one of them before the point and an exponent. -/
def Digits.exponential (d : Digits) : String :=
  let ds := Nat.toDigits 10 d.digits
  let mantissa := if d.count ≤ 1 then ds else ds.take 1 ++ '.' :: ds.drop 1
  String.ofList mantissa ++ "e" ++ Text.decimalInt (d.point - 1)

/-- Writes a pattern: signs and names of what is no number, and otherwise the shortest digits as `write` lays them
out. -/
def Format.show (f : Format) (bits : Nat) (zero : String) (write : Digits → String) : String :=
  let signed (negative : Bool) (s : String) := if negative then "-" ++ s else s
  match f.read bits with
  | .nan => "NaN"
  | .infinite negative => signed negative "inf"
  | .finite negative m q => signed negative (if m = 0 then zero else write (f.shortest m q))

/-- The unsigned decimal number at the front: the digits before the point, those behind it, and the rest. -/
def scanDecimal (cs : List Char) : List Char × List Char × List Char :=
  let whole := cs.takeWhile Char.isDigit
  match cs.dropWhile Char.isDigit with
  | '.' :: rest => (whole, rest.takeWhile Char.isDigit, rest.dropWhile Char.isDigit)
  | rest => (whole, [], rest)

/-- The exponent written after a decimal number; no exponent means zero. -/
def scanExponent? : List Char → Option Int
  | [] => some 0
  | c :: cs =>
    if c == 'e' || c == 'E' then
      match cs with
      | '-' :: ds => (Text.readDigits 10 ds).map fun n => -(n : Int)
      | '+' :: ds => (Text.readDigits 10 ds).map Int.ofNat
      | ds => (Text.readDigits 10 ds).map Int.ofNat
    else none

/-- The pattern nearest to `± c * 10 ^ e`. Exponents far outside the range of the format are decided by size, so that no
huge power is computed. -/
def Format.ofDecimal (f : Format) (negative : Bool) (c : Nat) (e : Int) : Nat :=
  let size := (width c : Int) + e
  let reach : Int := 2 ^ f.exponentBits
  if c = 0 || size < -reach then f.sign negative 0
  else if size > reach then f.sign negative f.infinity
  else if 0 ≤ e then f.round negative (c * 10 ^ e.toNat) 1
  else f.round negative c (10 ^ (-e).toNat)

end ManagedCode.Floating

namespace ManagedCode.Double

open Floating

/-- Positional text: whole numbers have no point. -/
def text (x : Double) : String := double.show x.bits.toNat "0" (·.positional 0)

/-- Positional text of a pattern of 32 bits. -/
def singleText (b : BitVec 32) : String := single.show b.toNat "0" (·.positional 0)

/-- Text that shows the number is one of floating point: a fraction is always kept, and below `10 ^ -4` or from
`10 ^ 16` on an exponent is written. -/
def debugText (x : Double) : String :=
  double.show x.bits.toNat "0.0" fun d =>
    if -4 < d.point ∧ d.point ≤ 16 then d.positional 1 else d.exponential

/-- Reads a sign and a decimal number, an infinity or the name of what is no number. -/
def parse? (cs : List Char) : Option Double :=
  let (negative, body) := match cs with
    | '-' :: rest => (true, rest)
    | '+' :: rest => (false, rest)
    | _ => (false, cs)
  let name := String.ofList (body.map Char.toLower)
  if name == "inf" || name == "infinity" then some (infinity negative)
  else if name == "nan" then some (ofNat (double.sign negative double.quiet))
  else
    let (whole, fraction, rest) := scanDecimal body
    let digits := whole ++ fraction
    match Text.readDigits 10 digits, scanExponent? rest with
    | some c, some e => some (ofNat (double.ofDecimal negative c (e - fraction.length)))
    | _, _ => none

end ManagedCode.Double
