import Dice.Score.Decimal

/-!
# Reading decimal scores

The digits of a number read as that number if it is a score. Reading stops at
the digit that takes the number out of the range, and no later digit could
bring it back.

A text of digits stands for a natural number, by core's `Nat.ofDigitChars`.
Reading it is compared with that number: `readDigits_eq` says that the result
is the number if it is within the limit and the fault if it is not, whichever
digit was the last one looked at. The induction carries the number read so
far, and a number only grows by more digits (`le_ofDigitChars`).

Facts about digits come from the list of the ten digits. What can be decided
of a character is decided for the ten of them, once (`forall_isDigit`), and
the modules on tokens use it for all that they need to know of digits.

Main statements: `read_ofNat` and `read_ofNat_of_lt`, numbers without a sign
read as scores as long as they are scores, and `read_text` for scores of
either sign.
-/

namespace Dice

namespace Text

/-- The ten digits. -/
def digits : Text := ['0', '1', '2', '3', '4', '5', '6', '7', '8', '9']

/-- There are no other digits than these ten. The code point of a digit is one
of ten numbers, and each of them belongs to a listed digit. -/
theorem mem_digits_of_isDigit {c : Char} (digit : c.isDigit = true) : c ∈ digits := by
  have bounds : 48 ≤ c.toNat ∧ c.toNat ≤ 57 := by
    simp only [Char.isDigit, Bool.and_eq_true, decide_eq_true_eq] at digit
    exact ⟨UInt32.le_iff_toNat_le.1 digit.1, UInt32.le_iff_toNat_le.1 digit.2⟩
  have place : c.toNat = 48 ∨ c.toNat = 49 ∨ c.toNat = 50 ∨ c.toNat = 51 ∨ c.toNat = 52 ∨
      c.toNat = 53 ∨ c.toNat = 54 ∨ c.toNat = 55 ∨ c.toNat = 56 ∨ c.toNat = 57 := by omega
  rw [← Char.ofNat_toNat c]
  -- ten cases, each with a character that is known
  rcases place with h | h | h | h | h | h | h | h | h | h <;> rw [h] <;> decide

/-- What holds of all characters of a text can be checked one by one, by running
a test on the text. -/
theorem forall_mem {p : Char → Prop} [DecidablePred p] {text : Text}
    (each : text.all (fun c => decide (p c)) = true) : ∀ c ∈ text, p c := fun c hc =>
  of_decide_eq_true (List.all_eq_true.1 each c hc)

/-- What holds of the ten digits holds of every digit. So a property of digits
that can be decided is proved by deciding it ten times. -/
theorem forall_isDigit {p : Char → Prop} [DecidablePred p]
    (each : digits.all (fun c => decide (p c)) = true) : ∀ c, c.isDigit = true → p c :=
  fun c digit => forall_mem each c (mem_digits_of_isDigit digit)

theorem isDigit_of_mem_ofNat {n : Nat} {c : Char} (mem : c ∈ ofNat n) : c.isDigit = true :=
  Nat.isDigit_of_mem_toDigits (by decide) (by decide) mem

/-- The digits in front of a text that does not go on with one are taken
together: a number ends where its digits end. -/
theorem takeWhile_digits {digits rest : Text} (all : ∀ c ∈ digits, c.isDigit = true)
    (ends : ∀ c ∈ rest.head?, c.isDigit = false) :
    (digits ++ rest).takeWhile Char.isDigit = digits := by
  rw [List.takeWhile_append_of_pos all]
  cases rest with
  | nil => simp
  | cons c rest => simp [ends c rfl]

/-- A number is at least what its first digits give: each digit after them
multiplies that by ten and adds to it. -/
theorem le_ofDigitChars (soFar : Nat) (digits : Text) :
    soFar ≤ Nat.ofDigitChars 10 digits soFar := by
  rw [Nat.ofDigitChars_eq_ofDigitChars_zero]
  exact Nat.le_trans (Nat.le_mul_of_pos_left soFar (Nat.pow_pos (by decide))) (Nat.le_add_right _ _)

end Text

namespace Score

/-- Digits are read as their number if that is within the limit. Past the limit
it does not matter at which digit the reading stopped. -/
theorem readDigits_eq {limit soFar : Nat} {overflow : NumberFault} {digits : Text}
    (all : ∀ c ∈ digits, c.isDigit = true) (start : soFar ≤ limit) :
    readDigits limit overflow soFar digits =
      if Nat.ofDigitChars 10 digits soFar ≤ limit then .ok (Nat.ofDigitChars 10 digits soFar)
      else .error overflow := by
  induction digits generalizing soFar with
  | nil => simp [readDigits, start]
  | cons c rest ih =>
    have step : soFar * 10 + (c.toNat - '0'.toNat) = 10 * soFar + (c.toNat - '0'.toNat) := by omega
    simp only [readDigits, all c (by simp), if_true, Nat.ofDigitChars_cons, step]
    split
    next fits => exact ih (fun d hd => all d (by simp [hd])) fits
    next past =>
      -- past the limit already, and the digits behind this one only add to it
      have more := Text.le_ofDigitChars (10 * soFar + (c.toNat - '0'.toNat)) rest
      rw [if_neg (by omega)]

/-- A text that begins with a digit is read without a sign. -/
theorem read_of_isDigit {c : Char} {rest : Text} (digit : c.isDigit = true) :
    read (c :: rest) =
      return clamp (← readDigits 9223372036854775807 .tooLarge 0 (c :: rest)) := by
  have plus : c ≠ '+' := by rintro rfl; cases digit
  have minus : c ≠ '-' := by rintro rfl; cases digit
  unfold read
  split <;> simp_all

theorem nonneg_clamp (n : Nat) : 0 ≤ (clamp n).val := by
  simp only [val_clamp, lowest, highest]
  omega

/-- A number that is a score is kept when it is brought into the range. -/
theorem toNat_clamp {n : Nat} (fits : (n : Int) ≤ highest.val) : (clamp n).val.toNat = n := by
  simp only [highest] at fits
  rw [val_clamp_of_mem (by omega) (by omega), Int.toNat_natCast]

/-- The constant of an operator is a score, as 32 bits fit into 63. -/
theorem val_clamp_operand (operand : UInt32) : (clamp operand.toNat).val = operand.toNat := by
  have := operand.toNat_lt
  exact val_clamp_of_mem (by omega) (by omega)

/-- Changing the sign twice leaves every score but the least one, which has no
counterpart above zero. -/
theorem clamp_neg_clamp_neg {a : Score} (ne : a ≠ .lowest) : clamp (-(clamp (-a.val)).val) = a := by
  have low := a.lowest_le
  have high := a.le_highest
  have above : a.val ≠ -9223372036854775808 := fun same => ne (ext_val same)
  rw [val_clamp_of_mem (by omega) (by omega), Int.neg_neg, clamp_val]

/-- What is read without a sign is not negative. A reader of tokens meets
numbers only in this form. -/
theorem nonneg_of_read {c : Char} {rest : Text} {value : Score} (digit : c.isDigit = true)
    (ok : read (c :: rest) = .ok value) : 0 ≤ value.val := by
  rw [read_of_isDigit digit] at ok
  cases magnitude : readDigits 9223372036854775807 .tooLarge 0 (c :: rest) with
  | error fault =>
    rw [magnitude] at ok
    cases ok
  | ok n =>
    rw [magnitude] at ok
    cases ok
    exact nonneg_clamp n

/-- **The digits of a number read as that number.** -/
theorem read_ofNat {n : Nat} (fits : (n : Int) ≤ highest.val) :
    read (Text.ofNat n) = .ok (clamp n) := by
  have all : ∀ c ∈ Text.ofNat n, c.isDigit = true := fun c hc => Text.isDigit_of_mem_ofNat hc
  have value : Nat.ofDigitChars 10 (Text.ofNat n) 0 = n := Nat.ofDigitChars_ten_toDigits
  simp only [highest] at fits
  cases digits : Text.ofNat n with
  | nil => exact absurd digits (Text.ofNat_ne_nil n)
  | cons c rest =>
    rw [digits] at all value
    rw [read_of_isDigit (all c (by simp)), readDigits_eq all (by omega), value, if_pos (by omega)]
    rfl

/-- Digits of a number past the range read as nothing; the fault is not needed
by anyone who asks only whether a number can be read. -/
theorem read_ofNat_of_lt {n : Nat} (past : highest.val < n) :
    ∃ fault, read (Text.ofNat n) = .error fault := by
  have all : ∀ c ∈ Text.ofNat n, c.isDigit = true := fun c hc => Text.isDigit_of_mem_ofNat hc
  have value : Nat.ofDigitChars 10 (Text.ofNat n) 0 = n := Nat.ofDigitChars_ten_toDigits
  simp only [highest] at past
  cases digits : Text.ofNat n with
  | nil => exact absurd digits (Text.ofNat_ne_nil n)
  | cons c rest =>
    rw [digits] at all value
    rw [read_of_isDigit (all c (by simp)), readDigits_eq all (by omega), value, if_neg (by omega)]
    exact ⟨_, rfl⟩

/-- A score is written as a digit or a minus sign, and digits after it. This is
all that the readers of texts know of how scores look. -/
theorem text_eq_cons (a : Score) : ∃ first tail, a.text = first :: tail ∧
    (first = '-' || first.isDigit) = true ∧ ∀ c ∈ tail, c.isDigit = true := by
  have all : ∀ c ∈ Text.ofNat a.val.natAbs, c.isDigit = true := fun c hc =>
    Text.isDigit_of_mem_ofNat hc
  by_cases negative : a.val < 0
  · exact ⟨'-', _, by rw [text, if_pos negative], rfl, all⟩
  · rw [text, if_neg negative]
    cases digits : Text.ofNat a.val.natAbs with
    | nil => exact absurd digits (Text.ofNat_ne_nil _)
    | cons c rest =>
      rw [digits] at all
      exact ⟨c, rest, rfl, by simp [all c], fun d hd => all d (by simp [hd])⟩

/-- **A score reads as it is written.** With its sign even the least score does,
whose digits alone are past the range. -/
theorem read_text (a : Score) : read a.text = .ok a := by
  have low := a.lowest_le
  have high := a.le_highest
  by_cases negative : a.val < 0
  · have all : ∀ c ∈ Text.ofNat a.val.natAbs, c.isDigit = true := fun c hc =>
      Text.isDigit_of_mem_ofNat hc
    have value : Nat.ofDigitChars 10 (Text.ofNat a.val.natAbs) 0 = a.val.natAbs :=
      Nat.ofDigitChars_ten_toDigits
    have magnitude : readDigits 9223372036854775808 .tooSmall 0 (Text.ofNat a.val.natAbs) =
        .ok a.val.natAbs := by
      rw [readDigits_eq all (by omega), value, if_pos (by omega)]
    -- the magnitude of the least score is one past the greatest score, which is the limit here
    have signed : -(a.val.natAbs : Int) = a.val := by omega
    rw [text, if_pos negative]
    cases digits : Text.ofNat a.val.natAbs with
    | nil => exact absurd digits (Text.ofNat_ne_nil _)
    | cons c rest =>
      rw [digits] at magnitude
      unfold read
      simp only [magnitude, signed, bind, Except.bind, pure, Except.pure, clamp_val]
  · rw [text, if_neg negative, read_ofNat (by simp only [highest]; omega),
      Int.natAbs_of_nonneg (by omega), clamp_val]

end Score

end Dice
