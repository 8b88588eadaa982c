import ManagedCode.Listing

/-!
# Integer literals

What a text says as an integer is told by rules (`Denotes`): a digit on the right multiplies what stands before it by
the base. A listing reads such texts from the left (`readDigits_eq_some_iff`), and bounds them by 64 bits. A number of
the upper half of the unsigned range is read as the integer with the same bits. That is how hexadecimal patterns are
written, but decimal numbers are read so too, and there it is another integer than the text says.
-/

namespace ManagedCode

namespace Text

/-! ## Characters of ASCII -/

theorem ascii_of_le {c top : Char} (htop : top.toNat < 128) (h : c.val ≤ top.val) : c.toNat < 128 :=
  Nat.lt_of_le_of_lt (UInt32.le_iff_toNat_le.1 h) htop

/-- What a table says of each number below 128 holds of the characters of ASCII. -/
theorem of_ascii (P : Char → Prop) (h : ∀ n < 128, P (Char.ofNat n)) {c : Char} (hc : c.toNat < 128) : P c := by
  have hrow := h c.toNat hc
  rwa [Char.ofNat_toNat] at hrow

/-! ## Digits -/

def lowerDigits : List Char := ['0', '1', '2', '3', '4', '5', '6', '7', '8', '9', 'a', 'b', 'c', 'd', 'e', 'f']

def upperDigits : List Char := ['0', '1', '2', '3', '4', '5', '6', '7', '8', '9', 'A', 'B', 'C', 'D', 'E', 'F']

def Digit (c : Char) (d : Nat) : Prop := lowerDigits[d]? = some c ∨ upperDigits[d]? = some c

instance (c : Char) (d : Nat) : Decidable (Digit c d) := inferInstanceAs (Decidable (_ ∨ _))

/-- **The number that a run of digits writes in a base.** -/
inductive Numeral (base : Nat) : List Char → Nat → Prop where
  | single {c : Char} {d : Nat} : Digit c d → d < base → Numeral base [c] d
  | snoc {cs : List Char} {c : Char} {n d : Nat} : Numeral base cs n → Digit c d → d < base →
      Numeral base (cs ++ [c]) (n * base + d)

theorem Digit.lt {c : Char} {d : Nat} (h : Digit c d) : d < 16 := by
  rcases h with h | h <;> exact (List.getElem?_eq_some_iff.1 h).1

theorem Digit.ascii {c : Char} {d : Nat} (h : Digit c d) : c.toNat < 128 := by
  have hlower : ∀ c ∈ lowerDigits, c.toNat < 128 := by simp [lowerDigits]
  have hupper : ∀ c ∈ upperDigits, c.toNat < 128 := by simp [upperDigits]
  rcases h with h | h
  · exact hlower c (List.mem_of_getElem? h)
  · exact hupper c (List.mem_of_getElem? h)

theorem ascii_of_digitValue? {c : Char} {d : Nat} (h : digitValue? c = some d) : c.toNat < 128 := by
  unfold digitValue? at h
  simp only [Bool.and_eq_true, decide_eq_true_eq] at h
  split at h
  · rename_i hc
    exact ascii_of_le (by decide : '9'.toNat < 128) hc.2
  · split at h
    · rename_i hc
      exact ascii_of_le (by decide : 'f'.toNat < 128) hc.2
    · split at h
      · rename_i hc
        exact ascii_of_le (by decide : 'F'.toNat < 128) hc.2
      · cases h

theorem digitValue?_eq_some_iff {c : Char} {d : Nat} : digitValue? c = some d ↔ Digit c d := by
  have hiff (hc : c.toNat < 128) : ∀ d < 16, digitValue? c = some d ↔ Digit c d :=
    of_ascii (fun c => ∀ d < 16, digitValue? c = some d ↔ Digit c d) (by decide +kernel) hc
  have hbelow (hc : c.toNat < 128) : ∀ d ∈ digitValue? c, d < 16 :=
    of_ascii (fun c => ∀ d ∈ digitValue? c, d < 16) (by decide +kernel) hc
  constructor
  · intro h
    have hc := ascii_of_digitValue? h
    exact (hiff hc d (hbelow hc d h)).1 h
  · intro h
    exact (hiff h.ascii d h.lt).2 h

def digitIn? (base : Nat) (c : Char) : Option Nat := (digitValue? c).filter (· < base)

theorem digitIn?_eq_some_iff {base d : Nat} {c : Char} : digitIn? base c = some d ↔ Digit c d ∧ d < base := by
  rw [← digitValue?_eq_some_iff, digitIn?, Option.filter_eq_some_iff, decide_eq_true_iff]

theorem readDigitsFrom_cons (base acc : Nat) (c : Char) (cs : List Char) :
    readDigitsFrom base acc (c :: cs) = (digitIn? base c).bind fun d => readDigitsFrom base (acc * base + d) cs := by
  cases h : digitValue? c with
  | none => simp [readDigitsFrom, digitIn?, h]
  | some d => by_cases hd : d < base <;> simp [readDigitsFrom, digitIn?, h, hd, Option.filter_some]

theorem readDigitsFrom_snoc (base : Nat) (c : Char) : ∀ (cs : List Char) (acc : Nat),
    readDigitsFrom base acc (cs ++ [c]) =
      (readDigitsFrom base acc cs).bind fun n => (digitIn? base c).map fun d => n * base + d
  | [], acc => by
    cases h : digitIn? base c <;> simp [readDigitsFrom_cons, h, readDigitsFrom]
  | a :: cs, acc => by
    cases h : digitIn? base a <;> simp [readDigitsFrom_cons, h, readDigitsFrom_snoc base c cs]

/-- Reading on behind digits that were read. -/
theorem Numeral.append {base : Nat} : ∀ {cs pre : List Char} {acc n : Nat}, Numeral base pre acc →
    readDigitsFrom base acc cs = some n → Numeral base (pre ++ cs) n
  | [], pre, acc, n, h, hread => by
    cases hread
    simpa using h
  | c :: cs, pre, acc, n, h, hread => by
    rw [readDigitsFrom_cons, Option.bind_eq_some_iff] at hread
    obtain ⟨d, hd, hrest⟩ := hread
    obtain ⟨hdigit, hlt⟩ := digitIn?_eq_some_iff.1 hd
    simpa using (h.snoc hdigit hlt).append hrest

/-- **Reading from the left finds the number that the digits write.** -/
theorem readDigits_eq_some_iff {base n : Nat} {cs : List Char} : readDigits base cs = some n ↔ Numeral base cs n := by
  constructor
  · intro h
    cases cs with
    | nil => cases h
    | cons c cs =>
      have hread : readDigitsFrom base 0 (c :: cs) = some n := h
      rw [readDigitsFrom_cons, Option.bind_eq_some_iff, Nat.zero_mul] at hread
      obtain ⟨d, hd, hrest⟩ := hread
      obtain ⟨hdigit, hlt⟩ := digitIn?_eq_some_iff.1 hd
      rw [Nat.zero_add] at hrest
      exact (Numeral.single hdigit hlt).append hrest
  · intro h
    have hne : cs ≠ [] := by cases h <;> simp
    have hread : readDigitsFrom base 0 cs = some n := by
      induction h with
      | single hc hd =>
        rw [readDigitsFrom_cons, digitIn?_eq_some_iff.2 ⟨hc, hd⟩, Nat.zero_mul]
        simp [readDigitsFrom]
      | @snoc cs c n d hcs hc hd ih =>
        rw [readDigitsFrom_snoc, ih (by cases hcs <;> simp), digitIn?_eq_some_iff.2 ⟨hc, hd⟩]
        rfl
    simpa [readDigits, hne] using hread

theorem Numeral.digits {base n : Nat} {cs : List Char} (h : Numeral base cs n) :
    ∀ c ∈ cs, ∃ d, Digit c d ∧ d < base := by
  induction h with
  | single hc hd => exact fun c hmem => List.mem_singleton.1 hmem ▸ ⟨_, hc, hd⟩
  | snoc _ hc hd ih =>
    intro c hmem
    rcases List.mem_append.1 hmem with hmem | hmem
    · exact ih c hmem
    · exact List.mem_singleton.1 hmem ▸ ⟨_, hc, hd⟩

theorem Numeral.unique {base n m : Nat} {cs : List Char} (h : Numeral base cs n) (h' : Numeral base cs m) : n = m :=
  Option.some.inj ((readDigits_eq_some_iff.2 h).symm.trans (readDigits_eq_some_iff.2 h'))

/-- **Written numbers are numerals.** -/
theorem numeral_toDigits {base : Nat} (hlow : 1 < base) (hhigh : base ≤ 16) (n : Nat) :
    Numeral base (Nat.toDigits base n) n := by
  have hdigit : ∀ d < 16, Digit d.digitChar d := by decide
  induction n using Nat.strongRecOn with
  | ind n ih =>
    by_cases h : n < base
    · rw [Nat.toDigits_of_lt_base h]
      exact .single (hdigit n (by omega)) h
    · have hmod : n % base < base := Nat.mod_lt _ (by omega)
      rw [Nat.toDigits_of_base_le hlow (Nat.le_of_not_lt h)]
      have hsnoc := (ih (n / base) (Nat.div_lt_self (by omega) hlow)).snoc (hdigit (n % base) (by omega)) hmod
      rwa [Nat.mul_comm, Nat.div_add_mod] at hsnoc

theorem not_digit {c : Char} (h : ∀ d < 16, ¬ Digit c d) {d : Nat} : ¬ Digit c d := fun hd => h d hd.lt hd

/-- A numeral, with or without a plus sign. -/
def Unsigned (base : Nat) (cs : List Char) (n : Nat) : Prop :=
  Numeral base cs n ∨ ∃ digits, cs = '+' :: digits ∧ Numeral base digits n

theorem readUnsigned_eq_some_iff {base bound n : Nat} {cs : List Char} :
    readUnsigned base bound cs = some n ↔ Unsigned base cs n ∧ n < bound := by
  have hfilter (digits : List Char) :
      (readDigits base digits).filter (· < bound) = some n ↔ Numeral base digits n ∧ n < bound := by
    rw [Option.filter_eq_some_iff, readDigits_eq_some_iff, decide_eq_true_iff]
  by_cases hplus : ∃ digits, cs = '+' :: digits
  · obtain ⟨digits, rfl⟩ := hplus
    have hnot : ¬ Numeral base ('+' :: digits) n := fun h => by
      obtain ⟨d, hd, -⟩ := h.digits '+' List.mem_cons_self
      exact not_digit (by decide) hd
    show (readDigits base digits).filter (· < bound) = some n ↔ _
    simp [hfilter, Unsigned, hnot]
  · have hread : readUnsigned base bound cs = (readDigits base cs).filter (· < bound) := by
      unfold readUnsigned
      split
      · exact absurd ⟨_, rfl⟩ hplus
      · rfl
    have hnone : ¬ ∃ digits, cs = '+' :: digits ∧ Numeral base digits n := fun ⟨digits, h, _⟩ => hplus ⟨digits, h⟩
    simp [hread, hfilter, Unsigned, hnone]

theorem Unsigned.unique {base n m : Nat} {cs : List Char} (h : Unsigned base cs n) (h' : Unsigned base cs m) :
    n = m := by
  have hn := readUnsigned_eq_some_iff.2 ⟨h, show n < n + m + 1 by omega⟩
  have hm := readUnsigned_eq_some_iff.2 ⟨h', show m < n + m + 1 by omega⟩
  exact Option.some.inj (hn.symm.trans hm)

theorem Unsigned.head {base n : Nat} {c : Char} {cs : List Char} (h : Unsigned base (c :: cs) n) :
    c = '+' ∨ ∃ d, Digit c d ∧ d < base := by
  rcases h with h | ⟨digits, heq, -⟩
  · exact .inr (h.digits c List.mem_cons_self)
  · exact .inl (List.cons.inj heq).1

end Text

/-! ## Signs and prefixes -/

namespace Listing

open Text

/-- The number that a literal without its minus sign says, hexadecimal or not. -/
inductive Magnitude : (hexadecimal : Bool) → List Char → Nat → Prop where
  | decimal {cs : List Char} {n : Nat} : Unsigned 10 cs n → Magnitude false cs n
  | hexadecimal {x : Char} {cs : List Char} {n : Nat} : x = 'x' ∨ x = 'X' → Unsigned 16 cs n →
      Magnitude true ('0' :: x :: cs) n

/-- **The integer that a literal says.** -/
inductive Denotes : (hexadecimal : Bool) → List Char → Int → Prop where
  | plain {hexadecimal : Bool} {cs : List Char} {n : Nat} : Magnitude hexadecimal cs n → Denotes hexadecimal cs n
  | minus {hexadecimal : Bool} {cs : List Char} {n : Nat} : Magnitude hexadecimal cs n →
      Denotes hexadecimal ('-' :: cs) (-n)

/-- The integer of 64 bits with the bits of a number below `2 ^ 64`. -/
def withBitsOf (n : Int) : Int := if n < 2 ^ 63 then n else n - 2 ^ 64

def readMagnitude? (digits : List Char) : Option Nat :=
  match digits with
  | '0' :: 'x' :: rest | '0' :: 'X' :: rest => readUnsigned 16 (2 ^ 64) rest
  | _ => readUnsigned 10 (2 ^ 64) digits

theorem not_digit_x {x : Char} (hx : x = 'x' ∨ x = 'X') {d : Nat} : ¬ Digit x d := by
  rcases hx with rfl | rfl <;> exact not_digit (by decide)

/-- A text with the prefix is no decimal number. -/
theorem not_decimal {x : Char} {cs : List Char} {n : Nat} (hx : x = 'x' ∨ x = 'X') :
    ¬ Unsigned 10 ('0' :: x :: cs) n := by
  rintro (h | ⟨digits, heq, -⟩)
  · obtain ⟨d, hd, -⟩ := h.digits x (by simp)
    exact not_digit_x hx hd
  · cases heq

theorem readMagnitude?_eq_some_iff {cs : List Char} {n : Nat} :
    readMagnitude? cs = some n ↔ (∃ hexadecimal, Magnitude hexadecimal cs n) ∧ n < 2 ^ 64 := by
  by_cases hprefix : ∃ x rest, (x = 'x' ∨ x = 'X') ∧ cs = '0' :: x :: rest
  · obtain ⟨x, rest, hx, rfl⟩ := hprefix
    have hread : readMagnitude? ('0' :: x :: rest) = readUnsigned 16 (2 ^ 64) rest := by
      rcases hx with rfl | rfl <;> rfl
    rw [hread, readUnsigned_eq_some_iff]
    refine and_congr_left fun _ => ⟨fun h => ⟨true, .hexadecimal hx h⟩, ?_⟩
    rintro ⟨_, h | ⟨-, h⟩⟩
    · exact absurd h (not_decimal hx)
    · exact h
  · have hread : readMagnitude? cs = readUnsigned 10 (2 ^ 64) cs := by
      unfold readMagnitude?
      split
      · exact absurd ⟨_, _, .inl rfl, rfl⟩ hprefix
      · exact absurd ⟨_, _, .inr rfl, rfl⟩ hprefix
      · rfl
    rw [hread, readUnsigned_eq_some_iff]
    refine and_congr_left fun _ => ⟨fun h => ⟨false, .decimal h⟩, ?_⟩
    rintro ⟨_, h | ⟨hx, h⟩⟩
    · exact h
    · exact absurd ⟨_, _, hx, rfl⟩ hprefix

theorem Magnitude.unique {k k' : Bool} {cs : List Char} {n n' : Nat} (h : Magnitude k cs n)
    (h' : Magnitude k' cs n') : k = k' ∧ n = n' := by
  cases h with
  | decimal h =>
    cases h' with
    | decimal h' => exact ⟨rfl, h.unique h'⟩
    | hexadecimal hx h' => exact absurd h (not_decimal hx)
  | hexadecimal hx h =>
    cases h' with
    | decimal h' => exact absurd h' (not_decimal hx)
    | hexadecimal _ h' => exact ⟨rfl, h.unique h'⟩

theorem not_magnitude_minus {k : Bool} {cs : List Char} {n : Nat} : ¬ Magnitude k ('-' :: cs) n := by
  intro h
  cases h with
  | decimal h =>
    rcases h.head with heq | ⟨d, hd, -⟩
    · cases heq
    · exact not_digit (by decide) hd

theorem Denotes.unique {k k' : Bool} {cs : List Char} {n n' : Int} (h : Denotes k cs n) (h' : Denotes k' cs n') :
    k = k' ∧ n = n' := by
  cases h with
  | plain h =>
    cases h' with
    | plain h' =>
      obtain ⟨hk, rfl⟩ := h.unique h'
      exact ⟨hk, rfl⟩
    | minus h' => exact absurd h not_magnitude_minus
  | minus h =>
    cases h' with
    | plain h' => exact absurd h' not_magnitude_minus
    | minus h' =>
      obtain ⟨hk, rfl⟩ := h.unique h'
      exact ⟨hk, rfl⟩

theorem toInt_ofNat_withBitsOf {n : Nat} (hn : n < 2 ^ 64) : (BitVec.ofNat 64 n).toInt = withBitsOf n := by
  unfold withBitsOf
  rw [BitVec.toInt_eq_toNat_cond, BitVec.toNat_ofNat, Nat.mod_eq_of_lt hn]
  split <;> split <;> omega

/-- **What is read**: any integer that a text says, of the signed or the unsigned range of 64 bits. -/
theorem readInteger?_eq_some_iff {cs : List Char} {v : Int} : readInteger? cs = some v ↔
    ∃ k n, Denotes k cs n ∧ -2 ^ 63 ≤ n ∧ n < 2 ^ 64 ∧ v = withBitsOf n := by
  by_cases hminus : ∃ rest, cs = '-' :: rest
  · obtain ⟨rest, rfl⟩ := hminus
    have hread : readInteger? ('-' :: rest) = (readMagnitude? rest).bind fun m =>
      if m ≤ 2 ^ 63 then some (-(m : Int)) else none := rfl
    rw [hread, Option.bind_eq_some_iff]
    constructor
    · rintro ⟨m, hm, hv⟩
      obtain ⟨⟨k, hk⟩, -⟩ := readMagnitude?_eq_some_iff.1 hm
      split at hv
      · cases hv
        exact ⟨k, _, .minus hk, by omega, by omega, by rw [withBitsOf, if_pos (by omega)]⟩
      · cases hv
    · rintro ⟨k, n, hn, hlow, hhigh, rfl⟩
      cases hn with
      | plain h => exact absurd h not_magnitude_minus
      | @minus _ m h =>
        refine ⟨m, readMagnitude?_eq_some_iff.2 ⟨⟨k, h⟩, by omega⟩, ?_⟩
        rw [if_pos (by omega), withBitsOf, if_pos (by omega)]
  · have hread : readInteger? cs = (readMagnitude? cs).bind fun m => some (BitVec.ofNat 64 m).toInt := by
      unfold readInteger?
      split
      rename_i heq
      split at heq
      · exact absurd ⟨_, rfl⟩ hminus
      · cases heq
        rfl
    rw [hread, Option.bind_eq_some_iff]
    constructor
    · rintro ⟨m, hm, hv⟩
      obtain ⟨⟨k, hk⟩, hlt⟩ := readMagnitude?_eq_some_iff.1 hm
      cases hv
      exact ⟨k, _, .plain hk, by omega, by omega, toInt_ofNat_withBitsOf hlt⟩
    · rintro ⟨k, n, hn, -, hhigh, rfl⟩
      cases hn with
      | @plain _ m h =>
        have hlt : m < 2 ^ 64 := by omega
        exact ⟨m, readMagnitude?_eq_some_iff.2 ⟨⟨k, h⟩, hlt⟩, by rw [toInt_ofNat_withBitsOf hlt]⟩
      | minus => exact absurd ⟨_, rfl⟩ hminus

/-- Where a literal fits, it is read. -/
theorem Denotes.readInteger? {k : Bool} {cs : List Char} {n : Int} (h : Denotes k cs n) :
    Listing.readInteger? cs = if -2 ^ 63 ≤ n ∧ n < 2 ^ 64 then some (withBitsOf n) else none := by
  split
  · rename_i hfits
    exact readInteger?_eq_some_iff.2 ⟨k, n, h, hfits.1, hfits.2, rfl⟩
  · rename_i hout
    rw [Option.eq_none_iff_forall_ne_some]
    intro v hv
    obtain ⟨k', n', h', hlow, hhigh, -⟩ := readInteger?_eq_some_iff.1 hv
    obtain ⟨-, rfl⟩ := h.unique h'
    exact hout ⟨hlow, hhigh⟩

theorem withBitsOf_congr (n : Int) : (2 ^ 64 : Int) ∣ withBitsOf n - n := by
  unfold withBitsOf
  split <;> omega

theorem denotes_decimalInt (n : Int) : Denotes false (decimalInt n).toList n := by
  have hdecimal (m : Nat) : Magnitude false (decimal m).toList m := by
    unfold decimal
    rw [String.toList_ofList]
    exact .decimal (.inl (numeral_toDigits (by decide) (by decide) m))
  unfold decimalInt
  by_cases hn : n < 0
  · have hminus := Denotes.minus (hdecimal n.natAbs)
    rw [if_pos hn, String.toList_append]
    rwa [show -(n.natAbs : Int) = n by omega] at hminus
  · have hplain := Denotes.plain (hdecimal n.natAbs)
    rw [if_neg hn]
    rwa [show (n.natAbs : Int) = n by omega] at hplain

theorem denotes_hexadecimal (n : Nat) : Denotes true ('0' :: 'x' :: Nat.toDigits 16 n) n :=
  .plain (.hexadecimal (.inl rfl) (.inl (numeral_toDigits (by decide) (by decide) n)))

/-- **How integer literals are read.** A hexadecimal literal that fits 64 bits, with its sign or without one, gives the
integer with its bits. A decimal literal gives the integer that it says if that is in the signed range of 64 bits, and
is refused if it is in neither range; but in the upper half of the unsigned range, and there alone, it is not refused:
it gives the negative integer with the same bits. A text that says no integer is refused. All words of 64 bits can be
written, as signed numbers in decimal and as bits in hexadecimal. -/
theorem integer_literals_exact_iff (cs : List Char) :
    (∀ n, Denotes true cs n → (2 ^ 64 : Int) ∣ withBitsOf n - n ∧ (n < 2 ^ 63 → withBitsOf n = n) ∧
      readInteger? cs = if -2 ^ 63 ≤ n ∧ n < 2 ^ 64 then some (withBitsOf n) else none) ∧
    (∀ n, Denotes false cs n →
      (readInteger? cs = (if -2 ^ 63 ≤ n ∧ n < 2 ^ 63 then some n else none) ↔ ¬ (2 ^ 63 ≤ n ∧ n < 2 ^ 64)) ∧
      (2 ^ 63 ≤ n → n < 2 ^ 64 → readInteger? cs = some (n - 2 ^ 64))) ∧
    ((∀ k n, ¬ Denotes k cs n) → readInteger? cs = none) ∧
    (∀ k k' n n', Denotes k cs n → Denotes k' cs n' → k = k' ∧ n = n') ∧
    ∀ w : BitVec 64, readInteger? (decimalInt w.toInt).toList = some w.toInt ∧
      readInteger? ('0' :: 'x' :: Nat.toDigits 16 w.toNat) = some w.toInt := by
  refine ⟨fun n h => ⟨withBitsOf_congr n, fun hn => if_pos hn, h.readInteger?⟩, fun n h => ⟨?_, ?_⟩, ?_, ?_, ?_⟩
  · rw [h.readInteger?, withBitsOf]
    by_cases hupper : 2 ^ 63 ≤ n ∧ n < 2 ^ 64
    · rw [if_pos (by omega), if_neg (by omega), if_neg (by omega)]
      exact iff_of_false (Option.some_ne_none _) (not_not_intro hupper)
    · refine iff_of_true ?_ hupper
      by_cases hfits : -2 ^ 63 ≤ n ∧ n < 2 ^ 63
      · rw [if_pos (by omega), if_pos hfits.2, if_pos hfits]
      · rw [if_neg (by omega), if_neg hfits]
  · intro hlow hhigh
    rw [h.readInteger?, if_pos (by omega), withBitsOf, if_neg (by omega)]
  · intro hnone
    rw [Option.eq_none_iff_forall_ne_some]
    intro v hv
    obtain ⟨k, n, h, -⟩ := readInteger?_eq_some_iff.1 hv
    exact hnone k n h
  · exact fun k k' n n' h h' => h.unique h'
  · intro w
    have hlow := w.le_toInt
    have hhigh := w.toInt_lt
    have hbits : withBitsOf w.toNat = w.toInt := by
      rw [← toInt_ofNat_withBitsOf w.isLt, BitVec.ofNat_toNat, BitVec.setWidth_eq]
    constructor
    · rw [(denotes_decimalInt w.toInt).readInteger?, if_pos (by omega), withBitsOf, if_pos (by omega)]
    · rw [(denotes_hexadecimal w.toNat).readInteger?, if_pos (by omega), hbits]

/-- The bounds of a word: the least number is read in hexadecimal, and the number above the greatest one is read in
decimal as the least. -/
theorem least_word_read : Denotes true "-0x8000000000000000".toList (-2 ^ 63) ∧
    readInteger? "-0x8000000000000000".toList = some (-2 ^ 63) ∧ Denotes false "9223372036854775808".toList (2 ^ 63) ∧
    readInteger? "9223372036854775808".toList = some (-2 ^ 63) := by
  have hhex : Denotes true "-0x8000000000000000".toList (-2 ^ 63) := by
    have hdigits : Unsigned 16 (Nat.toDigits 16 (2 ^ 63)) (2 ^ 63) :=
      .inl (numeral_toDigits (by decide) (by decide) (2 ^ 63))
    have h := Denotes.minus (Magnitude.hexadecimal (.inl (rfl : 'x' = 'x')) hdigits)
    have htext : '-' :: '0' :: 'x' :: Nat.toDigits 16 (2 ^ 63) = "-0x8000000000000000".toList := by decide +kernel
    rwa [htext] at h
  have hdecimal : Denotes false "9223372036854775808".toList (2 ^ 63) := by
    have h := denotes_decimalInt (2 ^ 63)
    have htext : (decimalInt (2 ^ 63)).toList = "9223372036854775808".toList := by decide +kernel
    rwa [htext] at h
  refine ⟨hhex, ?_, hdecimal, ?_⟩
  · exact ((integer_literals_exact_iff _).1 _ hhex).2.2
  · exact ((integer_literals_exact_iff _).2.1 _ hdecimal).2 (by decide) (by decide)

/-- A decimal literal that is read as another integer: the greatest number of the unsigned range, as minus one. -/
theorem decimal_not_exact : ¬ ∀ cs n v, Denotes false cs n → readInteger? cs = some v → v = n := by
  intro hall
  have h := denotes_decimalInt 18446744073709551615
  have htext : (decimalInt 18446744073709551615).toList = "18446744073709551615".toList := by decide +kernel
  have hread : readInteger? "18446744073709551615".toList = some (-1) := by decide +kernel
  rw [htext] at h
  exact absurd (hall _ _ _ h hread) (by decide)

end Listing

end ManagedCode
