/-!
# Numbers as text

Operands and offsets are written in decimal with an explicit sign, registers in plain decimal,
and addresses in hexadecimal of at least four digits.  Everything is a list of characters, so
that the readers and printers above can be compared character by character.

`value` reads back what `decimal` writes (`value_decimal`), and a sign applied to a magnitude
gives back the number they were taken from (`Sign.apply_ofInt_natAbs`).
-/

namespace AccumulatorMachine

/-- The sign of an operand. -/
inductive Sign where
  | plus
  | minus
deriving DecidableEq, Repr

namespace Sign

/-- The character a sign is written as. -/
def char : Sign → Char
  | plus => '+'
  | minus => '-'

/-- The sign a character stands for. -/
def ofChar? (c : Char) : Option Sign :=
  if c = '+' then some plus else if c = '-' then some minus else none

/-- The sign of a number; zero counts as positive. -/
def ofInt (v : Int) : Sign :=
  if v < 0 then minus else plus

/-- The number with this sign and the given magnitude. -/
def apply : Sign → Nat → Int
  | plus, n => n
  | minus, n => -n

@[simp] theorem ofChar?_char (s : Sign) : ofChar? s.char = some s := by
  cases s <;> rfl

theorem ofChar?_eq_some_iff {c : Char} {s : Sign} : ofChar? c = some s ↔ c = s.char := by
  constructor
  · intro h
    unfold ofChar? at h
    split at h
    · cases h; assumption
    · split at h
      · cases h; assumption
      · cases h
  · rintro rfl; exact ofChar?_char s

theorem char_inj {s s' : Sign} : s.char = s'.char ↔ s = s' := by
  constructor
  · intro h
    have := ofChar?_char s
    rw [h, ofChar?_char] at this
    exact (Option.some.inj this).symm
  · rintro rfl; rfl

@[simp] theorem apply_ofInt_natAbs (v : Int) : (ofInt v).apply v.natAbs = v := by
  unfold ofInt
  split <;> simp only [apply] <;> omega

end Sign

namespace Text

/-- The decimal digits of a number, without leading zeros. -/
def decimal (n : Nat) : List Char :=
  Nat.toDigits 10 n

/-- The number that a string of decimal digits denotes, leading zeros or not. -/
def value (ds : List Char) : Nat :=
  Nat.ofDigitChars 10 ds 0

/-- A number in decimal with its sign always written; zero is `+0`. -/
def signed (v : Int) : List Char :=
  (Sign.ofInt v).char :: decimal v.natAbs

/-- A number in decimal, with a sign only if it is negative. -/
def integer (v : Int) : List Char :=
  if v < 0 then '-' :: decimal v.natAbs else decimal v.natAbs

/-- An address in hexadecimal: `0x` and at least four lower-case digits. -/
def address (n : Nat) : List Char :=
  '0' :: 'x' :: (Nat.toDigits 16 n).leftpad 4 '0'

/-- Moves a text to the right end of a column with blanks; a longer text is left as it is. -/
def alignRight (width : Nat) (cs : List Char) : List Char :=
  cs.leftpad width ' '

@[simp] theorem value_decimal (n : Nat) : value (decimal n) = n :=
  Nat.ofDigitChars_ten_toDigits

theorem decimal_ne_nil (n : Nat) : decimal n ≠ [] :=
  Nat.toDigits_ne_nil

theorem isDigit_of_mem_decimal {n : Nat} {c : Char} (h : c ∈ decimal n) : c.isDigit = true :=
  Nat.isDigit_of_mem_toDigits (by decide) (by decide) h

@[simp] theorem all_isDigit_decimal (n : Nat) : (decimal n).all Char.isDigit = true :=
  List.all_eq_true.2 fun _ h => isDigit_of_mem_decimal h

end Text
end AccumulatorMachine
