import ManagedCode.Command.Argument
import ManagedCode.Proofs.Literals

/-!
# Integer arguments

A kind of integers has a width, and its bits are read as signed or as unsigned (`Kind.number?`). Whatever the kind, an
argument is read as a signed number of 64 bits, which is then narrowed (`Argument.read_of_signed`). So the numbers of
the upper half of 64 unsigned bits cannot be written.
-/

namespace ManagedCode

namespace Text

/-- A numeral, with or without a sign. -/
inductive Signed (base : Nat) : List Char → Int → Prop where
  | plain {cs : List Char} {n : Nat} : Unsigned base cs n → Signed base cs n
  | minus {cs : List Char} {n : Nat} : Numeral base cs n → Signed base ('-' :: cs) (-n)

theorem not_unsigned_minus {base n : Nat} {cs : List Char} : ¬ Unsigned base ('-' :: cs) n := by
  intro h
  rcases h.head with heq | ⟨d, hd, -⟩
  · cases heq
  · exact not_digit (by decide) hd

/-- **A signed number is read exactly if it fits.** -/
theorem readSigned_eq_some_iff {base width : Nat} {cs : List Char} {n : Int} : readSigned base width cs = some n ↔
    Signed base cs n ∧ -2 ^ (width - 1) ≤ n ∧ n < 2 ^ (width - 1) := by
  have hpos := Nat.two_pow_pos (width - 1)
  have hcast : ((2 ^ (width - 1) : Nat) : Int) = 2 ^ (width - 1) := by norm_cast
  by_cases hminus : ∃ rest, cs = '-' :: rest
  · obtain ⟨rest, rfl⟩ := hminus
    have hread : readSigned base width ('-' :: rest) =
      ((readDigits base rest).filter (· ≤ 2 ^ (width - 1))).map fun m : Nat => -(m : Int) := by
        cases h : (readDigits base rest).filter (· ≤ 2 ^ (width - 1)) <;> simp [readSigned, h]
    simp only [hread, Option.map_eq_some_iff, Option.filter_eq_some_iff, readDigits_eq_some_iff, decide_eq_true_iff]
    constructor
    · rintro ⟨m, ⟨hm, hle⟩, rfl⟩
      exact ⟨.minus hm, by omega, by omega⟩
    · rintro ⟨h, hlow, hhigh⟩
      cases h with
      | plain h => exact absurd h not_unsigned_minus
      | @minus _ m hm => exact ⟨m, ⟨hm, by omega⟩, rfl⟩
  · have hread : readSigned base width cs = (readUnsigned base (2 ^ (width - 1)) cs).map Int.ofNat := by
      unfold readSigned
      split
      · exact absurd ⟨_, rfl⟩ hminus
      · rfl
    simp only [hread, Option.map_eq_some_iff, readUnsigned_eq_some_iff]
    constructor
    · rintro ⟨m, ⟨hm, hlt⟩, rfl⟩
      exact ⟨.plain hm, Int.le_trans (by omega) (Int.natCast_nonneg m), hcast ▸ Int.ofNat_lt.2 hlt⟩
    · rintro ⟨h, -, hhigh⟩
      cases h with
      | @plain _ m h => exact ⟨m, ⟨h, by omega⟩, rfl⟩
      | minus => exact absurd ⟨_, rfl⟩ hminus

theorem Signed.unique {base : Nat} {n m : Int} {cs : List Char} (h : Signed base cs n) (h' : Signed base cs m) :
    n = m := by
  cases h with
  | plain h =>
    cases h' with
    | plain h' => exact congrArg Nat.cast (h.unique h')
    | minus => exact absurd h not_unsigned_minus
  | minus h =>
    cases h' with
    | plain h' => exact absurd h' not_unsigned_minus
    | minus h' => rw [h.unique h']

theorem signed_decimalInt (n : Int) : Signed 10 (decimalInt n).toList n := by
  have hdecimal (m : Nat) : Numeral 10 (decimal m).toList m := by
    rw [decimal, String.toList_ofList]
    exact numeral_toDigits (by decide) (by decide) m
  unfold decimalInt
  by_cases hn : n < 0
  · have hminus := Signed.minus (hdecimal n.natAbs)
    rw [if_pos hn, String.toList_append]
    rwa [show -(n.natAbs : Int) = n by omega] at hminus
  · have hplain := Signed.plain (.inl (hdecimal n.natAbs))
    rw [if_neg hn]
    rwa [show (n.natAbs : Int) = n by omega] at hplain

end Text

/-! ## Kinds of integers -/

namespace Word

theorem setWidth_signExtend {m n w : Nat} (x : BitVec w) (hn : m ≤ n) (hw : m ≤ w) :
    (x.signExtend n).setWidth m = x.setWidth m := by
  apply BitVec.eq_of_getLsbD_eq
  intro i hi
  have hin : i < n := by omega
  have hiw : i < w := by omega
  simp only [BitVec.getLsbD_setWidth, BitVec.getLsbD_signExtend, hi, hin, hiw, decide_true, Bool.true_and, if_true]

theorem setWidth_ofInt {m w : Nat} (n : Int) (h : m ≤ w) : (BitVec.ofInt w n).setWidth m = BitVec.ofInt m n := by
  apply BitVec.eq_of_toNat_eq
  have hdvd : ((2 ^ m : Nat) : Int) ∣ (2 ^ w : Nat) := Int.natCast_dvd_natCast.2 (Nat.pow_dvd_pow 2 h)
  have hm : ((2 ^ m : Nat) : Int) ≠ 0 := by have := Nat.two_pow_pos m; omega
  have hw : ((2 ^ w : Nat) : Int) ≠ 0 := by have := Nat.two_pow_pos w; omega
  rw [BitVec.toNat_setWidth, BitVec.toNat_ofInt, BitVec.toNat_ofInt, ← Int.natCast_inj, Int.natCast_emod,
    Int.toNat_of_nonneg (Int.emod_nonneg _ hw), Int.toNat_of_nonneg (Int.emod_nonneg _ hm),
    Int.emod_emod_of_dvd _ hdvd]

end Word

namespace Kind

def isInteger (k : Kind) : Bool := k.stackType ∈ [StackType.int32, .int64, .nativeInt]

def isUnsigned (k : Kind) : Bool := k ∈ [boolean, char, u1, u2, u4, u8, u]

/-- The bits of a location of this kind. -/
def width (k : Kind) : Nat := 8 * k.size

/-- The numbers that a location of an integer kind can hold. -/
def InRange (k : Kind) (n : Int) : Prop :=
  if k.isUnsigned then 0 ≤ n ∧ n < 2 ^ k.width else -2 ^ (k.width - 1) ≤ n ∧ n < 2 ^ (k.width - 1)

instance (k : Kind) (n : Int) : Decidable (k.InRange n) := inferInstanceAs (Decidable (ite _ _ _))

/-- The number that the bits of a value say in the width and with the sign of an integer kind. -/
def number? (k : Kind) (v : Value) : Option Int :=
  v.bits?.map fun b => if k.isUnsigned then ((b.setWidth k.width).toNat : Int) else (b.setWidth k.width).toInt

/-- **A location keeps the low bits of an integer**, and what it loads is stored back as it is. -/
theorem coerce_bits {k : Kind} (hk : k.isInteger = true) {v : Value} {b : BitVec 64} (hv : v.bits? = some b) :
    ∃ w c, k.coerce v = some w ∧ k.coerce w = some w ∧ w.bits? = some c ∧ c.setWidth k.width = b.setWidth k.width := by
  cases k
  all_goals try cases hk
  all_goals
    simp only [coerce, hv, Option.map_some]
    refine ⟨_, _, rfl, ?_, rfl, ?_⟩
  all_goals simp [Value.bits?, Word.setWidth_signExtend, width, size]

theorem number?_of_bits {k : Kind} {n : Int} (hn : k.InRange n) {v : Value} {b : BitVec 64} (hv : v.bits? = some b)
    (hb : b.setWidth k.width = BitVec.ofInt k.width n) : k.number? v = some n := by
  have hcast : ((2 ^ k.width : Nat) : Int) = 2 ^ k.width := by norm_cast
  rw [number?, hv, Option.map_some, hb]
  unfold InRange at hn
  split at hn
  · rename_i hu
    rw [if_pos hu, BitVec.toNat_ofInt, Int.emod_eq_of_lt hn.1 (hcast ▸ hn.2), Int.toNat_of_nonneg hn.1]
  · rename_i hu
    have hpos : 0 < k.width := by cases k <;> decide
    rw [if_neg hu, BitVec.toInt_ofInt_eq_self hpos hn.1 hn.2]

end Kind

namespace Argument

section

variable {name : String} {k : Kind}

theorem cutAt_colon (hname : (name, k) ∈ Kind.names) (digits : String) :
    Text.cutAt ':' (name ++ ":" ++ digits).toList = some (name.toList, digits.toList) := by
  have hplain : ∀ p ∈ Kind.names, ':' ∉ p.1.toList := by decide
  rw [String.toList_append, String.toList_append, List.append_assoc, Text.cutAt_append (hplain _ hname)]
  simp [Text.cutAt]

theorem read_name (hname : (name, k) ∈ Kind.names) : Kind.read name = .ok k := by
  have hall : ∀ p ∈ Kind.names, Kind.ofName? p.1 = some p.2 := by decide
  simp [Kind.read, hall _ hname]

theorem read_eq_ok {digits : String} {v w : Value} (hname : (name, k) ∈ Kind.names)
    (hv : readValue k digits.toList = .ok v) (hw : k.coerce v = some w) :
    read (name ++ ":" ++ digits) = .ok (k, w) := by
  simp only [read, cutAt_colon hname, String.ofList_toList, read_name hname, bind, Except.bind, hv, hw]
  rfl

theorem read_eq_error {digits : String} {e : ArgumentError} (hname : (name, k) ∈ Kind.names)
    (he : readValue k digits.toList = .error e) : read (name ++ ":" ++ digits) = .error e := by
  simp only [read, cutAt_colon hname, String.ofList_toList, read_name hname, bind, Except.bind, he]

theorem readValue_of_fits {cs : List Char} {n : Int} (hk : k.isInteger = true)
    (h : Text.readSigned 10 64 cs = some n) :
    ∃ v b, readValue k cs = .ok v ∧ v.bits? = some b ∧ b.setWidth k.width = BitVec.ofInt k.width n := by
  cases k
  all_goals try cases hk
  all_goals
    simp only [readValue, Kind.stackType, h, Option.map_some]
    refine ⟨_, _, rfl, rfl, ?_⟩
  all_goals simp [Word.setWidth_signExtend, Word.setWidth_ofInt, Kind.width, Kind.size]

theorem readValue_of_large {cs : List Char} (hk : k.isInteger = true) (h : Text.readSigned 10 64 cs = none) :
    readValue k cs = .error (.invalidValue k (String.ofList cs)) := by
  cases k
  all_goals try cases hk
  all_goals simp [readValue, Kind.stackType, h]

/-- **An integer argument is read in 64 bits and narrowed**: the value is as a location of the kind loads it, and has
the low bits of the number. -/
theorem read_of_signed {digits : String} {n : Int} (hname : (name, k) ∈ Kind.names) (hk : k.isInteger = true)
    (hn : Text.Signed 10 digits.toList n) (hlow : -2 ^ 63 ≤ n) (hhigh : n < 2 ^ 63) :
    ∃ v b, read (name ++ ":" ++ digits) = .ok (k, v) ∧ k.coerce v = some v ∧ v.bits? = some b ∧
      b.setWidth k.width = BitVec.ofInt k.width n := by
  have hread : Text.readSigned 10 64 digits.toList = some n := Text.readSigned_eq_some_iff.2 ⟨hn, hlow, hhigh⟩
  obtain ⟨v, b, hv, hb, hbits⟩ := readValue_of_fits hk hread
  obtain ⟨w, c, hw, hloads, hc, hkeeps⟩ := Kind.coerce_bits hk hb
  exact ⟨w, c, read_eq_ok hname hv hw, hloads, hc, hkeeps.trans hbits⟩

theorem read_of_large {digits : String} {n : Int} (hname : (name, k) ∈ Kind.names) (hk : k.isInteger = true)
    (hn : Text.Signed 10 digits.toList n) (hhigh : 2 ^ 63 ≤ n) :
    read (name ++ ":" ++ digits) = .error (.invalidValue k digits) := by
  have hread : Text.readSigned 10 64 digits.toList = none := by
    rw [Option.eq_none_iff_forall_ne_some]
    intro m hm
    obtain ⟨hm, -, hlt⟩ := Text.readSigned_eq_some_iff.1 hm
    rw [hn.unique hm] at hhigh
    exact absurd hlt (Int.not_lt.2 hhigh)
  have herror := readValue_of_large hk hread
  rw [String.ofList_toList] at herror
  exact read_eq_error hname herror

end

theorem fits_of_inRange {k : Kind} {n : Int} (hk : k.isInteger = true) (hn : k.InRange n) :
    -2 ^ 63 ≤ n ∧ (2 ^ 63 ≤ n → k = .u8 ∨ k = .u) := by
  cases k
  all_goals try cases hk
  all_goals
    simp [Kind.InRange, Kind.isUnsigned, Kind.width, Kind.size] at hn ⊢
    omega

/-- **Which integers can be written as arguments**: a number in the range of an integer kind is read, as the value that
stands for it in a location of the kind, exactly if it is below `2 ^ 63`. The numbers above are in the range of the two
kinds of 64 unsigned bits alone, and there they are refused as invalid. -/
theorem integer_arguments_iff {name : String} {k : Kind} (hname : (name, k) ∈ Kind.names) (hk : k.isInteger = true)
    {n : Int} (hn : k.InRange n) : Text.Signed 10 (Text.decimalInt n).toList n ∧
    (2 ^ 63 ≤ n → k = .u8 ∨ k = .u) ∧
    ∀ digits : String, Text.Signed 10 digits.toList n →
      ((∃ v, read (name ++ ":" ++ digits) = .ok (k, v) ∧ k.coerce v = some v ∧ k.number? v = some n) ↔ n < 2 ^ 63) ∧
      (2 ^ 63 ≤ n → read (name ++ ":" ++ digits) = .error (.invalidValue k digits)) := by
  obtain ⟨hlow, hlarge⟩ := fits_of_inRange hk hn
  refine ⟨Text.signed_decimalInt n, hlarge, fun digits hdigits => ⟨⟨?_, ?_⟩, read_of_large hname hk hdigits⟩⟩
  · rintro ⟨v, hv, -⟩
    refine Int.not_le.1 fun hhigh => ?_
    rw [read_of_large hname hk hdigits hhigh] at hv
    cases hv
  · intro hhigh
    obtain ⟨v, b, hv, hloads, hb, hbits⟩ := read_of_signed hname hk hdigits hlow hhigh
    exact ⟨v, hv, hloads, Kind.number?_of_bits hn hb hbits⟩

/-- Both sides of the bound: the greatest signed number as a native unsigned one, and the number behind it, which is
refused. -/
theorem native_bound_written : Kind.u.InRange (2 ^ 63 - 1) ∧ Kind.u.InRange (2 ^ 63) ∧
    (∃ v, read "u:9223372036854775807" = .ok (.u, v) ∧ Kind.u.coerce v = some v ∧
      Kind.u.number? v = some (2 ^ 63 - 1)) ∧
    read "u:9223372036854775808" = .error (.invalidValue .u "9223372036854775808") := by
  have hname : ("u", Kind.u) ∈ Kind.names := by decide
  have hlow : Kind.u.InRange (2 ^ 63 - 1) := by decide
  have hhigh : Kind.u.InRange (2 ^ 63) := by decide
  obtain ⟨hbelow, -, hread⟩ := integer_arguments_iff hname (by decide) hlow
  obtain ⟨habove, -, hrefused⟩ := integer_arguments_iff hname (by decide) hhigh
  have hbelowText : Text.decimalInt (2 ^ 63 - 1) = "9223372036854775807" := by decide +kernel
  have haboveText : Text.decimalInt (2 ^ 63) = "9223372036854775808" := by decide +kernel
  rw [hbelowText] at hbelow
  rw [haboveText] at habove
  exact ⟨hlow, hhigh, (hread _ hbelow).1.2 (by decide), (hrefused _ habove).2 (by decide)⟩

/-- A number in the range of its kind that cannot be written: the greatest one of 64 unsigned bits. -/
theorem not_every_integer_written : ¬ ∀ name k n, (name, k) ∈ Kind.names → k.isInteger = true → k.InRange n →
    ∃ v, read (name ++ ":" ++ Text.decimalInt n) = .ok (k, v) ∧ k.number? v = some n := by
  intro hall
  obtain ⟨v, hv, -⟩ := hall "u8" .u8 (2 ^ 64 - 1) (by decide) (by decide) (by decide)
  have hname : ("u8", Kind.u8) ∈ Kind.names := by decide
  rw [read_of_large hname (by decide) (Text.signed_decimalInt _) (by decide)] at hv
  cases hv

end Argument

end ManagedCode
