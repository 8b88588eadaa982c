import ManagedCode.Text.Blank

/-!
# Numerals

Reading and writing whole numbers. A numeral is a nonempty run of digits; `readUnsigned` and `readSigned` allow one sign
in front of it, as the command line, the settings and the listings all do.
-/

namespace ManagedCode.Text

/-- The value of a digit in bases up to sixteen. -/
def digitValue? (c : Char) : Option Nat :=
  if '0' ≤ c && c ≤ '9' then some (c.toNat - '0'.toNat)
  else if 'a' ≤ c && c ≤ 'f' then some (c.toNat - 'a'.toNat + 10)
  else if 'A' ≤ c && c ≤ 'F' then some (c.toNat - 'A'.toNat + 10)
  else none

/-- The number that a run of digits denotes in `base`, read from the left onto `acc`. -/
def readDigitsFrom (base : Nat) (acc : Nat) : List Char → Option Nat
  | [] => some acc
  | c :: cs =>
    match digitValue? c with
    | some d => if d < base then readDigitsFrom base (acc * base + d) cs else none
    | none => none

/-- The number that a nonempty run of digits denotes in `base`. -/
def readDigits (base : Nat) (cs : List Char) : Option Nat :=
  if cs.isEmpty then none else readDigitsFrom base 0 cs

/-- A number below `bound`, with an optional plus sign. -/
def readUnsigned (base bound : Nat) (cs : List Char) : Option Nat :=
  let digits := match cs with
    | '+' :: rest => rest
    | _ => cs
  (readDigits base digits).filter (· < bound)

/-- A number of `width` bits in two's complement, with an optional sign. -/
def readSigned (base width : Nat) (cs : List Char) : Option Int :=
  match cs with
  | '-' :: rest => ((readDigits base rest).filter (· ≤ 2 ^ (width - 1))).map fun n => -(n : Int)
  | _ => (readUnsigned base (2 ^ (width - 1)) cs).map Int.ofNat

/-- Writes `n` in decimal. -/
def decimal (n : Nat) : String := String.ofList (Nat.toDigits 10 n)

/-- Writes `n` in decimal with a minus sign when it is negative. -/
def decimalInt (n : Int) : String :=
  if n < 0 then "-" ++ decimal n.natAbs else decimal n.natAbs

/-- Puts `fill` in front of a text until it has `width` characters. -/
def padLeft (width : Nat) (fill : Char) (s : String) : String :=
  String.ofList (List.replicate (width - s.length) fill) ++ s

/-- Puts blanks behind a text until it has `width` characters. -/
def padRight (width : Nat) (s : String) : String :=
  s ++ String.ofList (List.replicate (width - s.length) ' ')

/-- Writes `n` in base sixteen with at least `width` digits. -/
def hex (width n : Nat) : String := padLeft width '0' (String.ofList (Nat.toDigits 16 n))

/-- The label of a code offset. -/
def label (offset : Nat) : String := "IL_" ++ hex 4 offset

end ManagedCode.Text
