import AccumulatorMachine.Proofs.Forms
import AccumulatorMachine.Proofs.RoundTrip

/-!
# Canonical lines

Many lines are read as one instruction: an operand may have leading zeros, zero may have either
sign, and the operand of a `nop` may be anything at all.  Printing picks one of them.

Reading digits and writing the number down again gives the digits back exactly when they have no
leading zero, or are the one digit zero (`Text.decimal_value_eq_iff`).  With the digits settled, the
only freedom left in an operand is the sign of zero.  `Form.Canonical` says this of the forms of a
line, and a form is canonical exactly when it is what its instruction is printed as
(`Form.Denotes.text_eq_iff`).
-/

namespace AccumulatorMachine

/-! ## Digits -/

namespace Text

lemma sub_zero_lt_ten {c : Char} (h : c.isDigit = true) : c.toNat - '0'.toNat < 10 := by
  have hhi : c.toNat ≤ 57 := (Char.isDigit_iff_toNat.1 h).2
  have hzero : '0'.toNat = 48 := by decide
  omega

/-- A digit is the character of its own value. -/
lemma digitChar_sub_zero {c : Char} (h : c.isDigit = true) :
    Nat.digitChar (c.toNat - '0'.toNat) = c := by
  have hlo : 48 ≤ c.toNat := (Char.isDigit_iff_toNat.1 h).1
  have hzero : '0'.toNat = 48 := by decide
  apply Char.toNat_inj.1
  rw [Nat.toNat_digitChar_of_lt_ten (sub_zero_lt_ten h)]
  omega

/-- Reading on from a number that is not zero adds the digits to those of the number. -/
lemma toDigits_ofDigitChars {n : ℕ} (hn : 0 < n) {ds : List Char}
    (h : ∀ d ∈ ds, d.isDigit = true) :
    Nat.toDigits 10 (Nat.ofDigitChars 10 ds n) = Nat.toDigits 10 n ++ ds := by
  induction ds generalizing n with
  | nil => simp
  | cons d ds ih =>
    have hd := h d List.mem_cons_self
    have hrest : ∀ d' ∈ ds, d'.isDigit = true := fun d' hd' => h d' (List.mem_cons_of_mem _ hd')
    rw [Nat.ofDigitChars_cons, ih (by omega) hrest,
      ← Nat.toDigits_append_toDigits (by omega) hn (sub_zero_lt_ten hd),
      Nat.toDigits_of_lt_base (sub_zero_lt_ten hd), digitChar_sub_zero hd, ← List.append_cons]

/-- A number other than zero is written without a leading zero. -/
lemma head?_decimal_ne {n : ℕ} (hn : n ≠ 0) : (decimal n).head? ≠ some '0' := by
  induction n using Nat.strong_induction_on with
  | _ n ih =>
    by_cases hlt : n < 10
    · rw [decimal, Nat.toDigits_of_lt_base hlt]
      simpa using hn
    · -- the leading digit is that of the number without its last digit
      have hlead := ih (n / 10) (by omega) (by omega)
      rw [decimal, Nat.toDigits_of_base_le (by omega) (by omega),
        List.head?_append_of_ne_nil _ Nat.toDigits_ne_nil]
      exact hlead

/-- Writing down the value of some digits gives them back exactly when there is no leading zero, or
nothing but one zero. -/
lemma decimal_value_eq_iff {ds : List Char} (hne : ds ≠ []) (h : ∀ d ∈ ds, d.isDigit = true) :
    decimal (value ds) = ds ↔ (ds.head? = some '0' → ds = ['0']) := by
  constructor
  · intro heq hhead
    have hzero : value ds = 0 := by
      by_contra hne'
      exact head?_decimal_ne hne' (by rw [heq, hhead])
    rw [← heq, hzero]
    rfl
  · intro hcanonical
    obtain ⟨d, rest, rfl⟩ := List.exists_cons_of_ne_nil hne
    by_cases hd : d = '0'
    · rw [hcanonical (by rw [hd]; rfl)]
      rfl
    · have hdigit := h d List.mem_cons_self
      have hpos : 0 < d.toNat - '0'.toNat := by
        by_contra hzero
        apply hd
        rw [← digitChar_sub_zero hdigit, Nat.eq_zero_of_not_pos hzero]
        rfl
      rw [decimal, value, Nat.ofDigitChars_cons, Nat.mul_zero, Nat.zero_add,
        toDigits_ofDigitChars hpos fun d' hd' => h d' (List.mem_cons_of_mem _ hd'),
        Nat.toDigits_of_lt_base (sub_zero_lt_ten hdigit), digitChar_sub_zero hdigit]
      rfl

end Text

/-! ## Signs -/

namespace Sign

lemma natAbs_apply (s : Sign) (n : ℕ) : (s.apply n).natAbs = n := by
  cases s with
  | plus => simp [apply]
  | minus => simp [apply]

/-- A sign is that of its number, if the number is not zero or the sign is `+`. -/
lemma ofInt_apply_eq_iff {s : Sign} {n : ℕ} : ofInt (s.apply n) = s ↔ (n = 0 → s = .plus) := by
  cases s with
  | plus =>
    have hnonneg : ¬ (n : ℤ) < 0 := by omega
    simp [ofInt, apply, hnonneg]
  | minus => simp [ofInt, apply]

end Sign

/-! ## Forms -/

namespace Instruction

/-- Whether a form is the one that its instruction is printed as.  The operand of a `nop` is `+0`.
Any other has no leading zero, and if it is zero nevertheless, then one zero with a `+`. -/
def Form.Canonical (f : Form) : Prop :=
  match f.opcode with
  | .nop => f.operand = ['+', '0']
  | _ => (f.digits.head? = some '0' → f.digits = ['0']) ∧ (f.digits = ['0'] → f.sign = .plus)

variable {f : Form} {i : Instruction}

/-- An operand is what its value is printed as exactly when it is canonical. -/
lemma Form.signed_value_eq_operand_iff (f : Form) :
    Text.signed f.value = f.operand ↔
      (f.digits.head? = some '0' → f.digits = ['0']) ∧ (f.digits = ['0'] → f.sign = .plus) := by
  have hvalue : f.value = f.sign.apply (Text.value f.digits) := by
    rw [value, Text.value_eq_ofDigits]
  rw [hvalue, Text.signed, operand, List.cons.injEq, Sign.char_inj, Sign.natAbs_apply,
    Sign.ofInt_apply_eq_iff, ← Text.decimal_value_eq_iff f.digits_ne_nil f.isDigit, and_comm]
  refine and_congr_right fun hdigits => ?_
  -- the digits are those of their value now, so they are a zero exactly when it is
  have hzero : Text.value f.digits = 0 ↔ f.digits = ['0'] := by
    constructor
    · intro h
      rw [← hdigits, h]
      rfl
    · intro h
      rw [h]
      rfl
  rw [hzero]

/-- The instruction of a form is printed as that form exactly when the form is canonical. -/
lemma Form.Denotes.text_eq_iff (h : f.Denotes i) : i.text = f.text ↔ f.Canonical := by
  have hopcode : i.opcode = f.opcode := by
    cases i with
    | nop => exact h.symm
    | acc delta => exact h.1.symm
    | jmp offset => exact h.1.symm
  have hoperand : i.text = f.text ↔ Text.signed i.operand = f.operand := by
    rw [Instruction.text, Form.text, String.ofList_inj, chars, hopcode, List.append_cancel_left_eq,
      List.cons.injEq]
    exact and_iff_right rfl
  rw [hoperand, Canonical]
  cases i with
  | nop =>
    rw [← hopcode]
    exact eq_comm
  | acc delta =>
    rw [← hopcode, ← f.signed_value_eq_operand_iff, h.2]
    exact Iff.rfl
  | jmp offset =>
    rw [← hopcode, ← f.signed_value_eq_operand_iff, h.2]
    exact Iff.rfl

lemma text_injective : Function.Injective text := by
  intro i i' h
  have hread := ofString_text i
  rw [h, ofString_text i'] at hread
  exact (Except.ok.inj hread).symm

/-- **Printing picks one canonical line for each instruction.**  Take a line that is an instruction.
What the instruction is printed as is read as the same instruction again, and it is the line itself
exactly when the line is canonical.  So two lines are the same instruction exactly when their
instructions are printed alike. -/
theorem text_is_canonical_line {line : String} (h : ofString line = .ok i) :
    ofString i.text = .ok i ∧
      (i.text = line ↔ ∃ f : Form, f.text = line ∧ f.Canonical) ∧
      ∀ line' i', ofString line' = .ok i' →
        (ofString line = ofString line' ↔ i.text = i'.text) := by
  refine ⟨i.ofString_text, ?_, ?_⟩
  · obtain ⟨f, rfl, hdenotes⟩ := ofString_eq_ok_iff.1 h
    rw [hdenotes.text_eq_iff]
    constructor
    · intro hcanonical
      exact ⟨f, rfl, hcanonical⟩
    · intro hform
      obtain ⟨f', htext, hcanonical⟩ := hform
      exact Form.eq_of_text_eq htext ▸ hcanonical
  · intro line' i' h'
    rw [h, h', Except.ok.injEq, text_injective.eq_iff]

/-- Minus zero behind leading zeros is read as the jump to itself, and printed in another way. -/
theorem text_is_canonical_line_minus_zero :
    ofString "jmp -000" = .ok (.jmp 0) ∧ ofString (text (.jmp 0)) = .ok (.jmp 0) ∧
      ¬ (∃ f : Form, f.text = "jmp -000" ∧ f.Canonical) ∧
      (∃ f : Form, f.text = "jmp +0" ∧ f.Canonical) := by
  have hread : ofString "jmp -000" = .ok (.jmp 0) := by decide
  have hread' : ofString "jmp +0" = .ok (.jmp 0) := by decide
  obtain ⟨hagain, hcanonical, -⟩ := text_is_canonical_line hread
  refine ⟨hread, hagain, ?_, (text_is_canonical_line hread').2.1.1 (by decide)⟩
  rw [← hcanonical]
  decide

end Instruction
end AccumulatorMachine
