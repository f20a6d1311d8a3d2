import Mathlib.Algebra.Order.Ring.Int
import Mathlib.Data.Nat.Digits.Defs
import AccumulatorMachine.Proofs.Grammar

/-!
# The lines that are instructions

`Instruction.Form` is the grammar of a line, with nothing of the reader in it: an opcode, one space,
a sign, and one or more decimal digits.  A form has a value, the digits weighted by their places
under the sign, and an opcode has room for some values and not for others.

The reader accepts the forms whose value there is room for, and no other line
(`ofString_reads_forms`).  A line is written by one form at most (`Form.eq_of_text_eq`), so the form
can be given in advance, and then the instruction follows from its opcode and its value.  Leading
zeros have no weight and leave the value as it is.
-/

namespace AccumulatorMachine

/-! ## Values -/

/-- The reader takes digits from the left; that gives each its weight. -/
lemma Text.value_eq_ofDigits (ds : List Char) :
    Text.value ds = Nat.ofDigits 10 (ds.map fun c => c.toNat - '0'.toNat).reverse := by
  rw [Text.value, Nat.ofDigitChars_eq_foldl, Nat.ofDigits_eq_foldr, List.foldr_reverse,
    List.foldl_map]
  simp only [Nat.cast_id, Nat.add_comm]

namespace Opcode

/-- Whether an opcode has room for a value; a `nop` does not look at its own. -/
def HasRoomFor : Opcode → ℤ → Prop
  | nop, _ => True
  | acc, v => -2 ^ 63 ≤ v ∧ v ≤ 2 ^ 63 - 1
  | jmp, v => -2 ^ 31 ≤ v ∧ v ≤ 2 ^ 31 - 1

instance : (o : Opcode) → (v : ℤ) → Decidable (o.HasRoomFor v)
  | nop, _ => inferInstanceAs (Decidable True)
  | acc, _ => inferInstanceAs (Decidable (_ ∧ _))
  | jmp, _ => inferInstanceAs (Decidable (_ ∧ _))

lemma exists_instruction?_iff {o : Opcode} {v : ℤ} :
    (∃ i, o.instruction? v = some i) ↔ o.HasRoomFor v := by
  cases o with
  | nop => simp [instruction?, HasRoomFor]
  | acc =>
    rw [← Option.isSome_iff_exists, instruction?, Option.isSome_map, Option.isSome_iff_exists,
      int64?, exists_word?_iff, HasRoomFor, Int.le_sub_one_iff]
    norm_num
  | jmp =>
    rw [← Option.isSome_iff_exists, instruction?, Option.isSome_map, Option.isSome_iff_exists,
      int32?, exists_word?_iff, HasRoomFor, Int.le_sub_one_iff]
    norm_num

lemma chars_length (o : Opcode) : o.chars.length = 3 := by
  cases o with
  | nop => rfl
  | acc => rfl
  | jmp => rfl

end Opcode

/-! ## Forms -/

namespace Instruction

/-- What the grammar allows on a line. -/
@[ext]
structure Form where
  opcode : Opcode
  sign : Sign
  digits : List Char
  digits_ne_nil : digits ≠ []
  isDigit : ∀ c ∈ digits, c.isDigit = true

namespace Form

/-- The operand of a form, as characters. -/
def operand (f : Form) : List Char :=
  f.sign.char :: f.digits

/-- The line that a form is written as. -/
def text (f : Form) : String :=
  String.ofList (f.opcode.chars ++ ' ' :: f.operand)

/-- The value of a form: the sign applied to the digits, each of them weighted by its place. -/
def value (f : Form) : ℤ :=
  f.sign.apply (Nat.ofDigits 10 (f.digits.map fun c => c.toNat - '0'.toNat).reverse)

/-- The instruction that a form stands for. -/
def Denotes (f : Form) : Instruction → Prop
  | .nop => f.opcode = .nop
  | .acc delta => f.opcode = .acc ∧ f.value = delta.toInt
  | .jmp offset => f.opcode = .jmp ∧ f.value = offset.toInt

variable {f f' : Form} {i : Instruction}

lemma eq_of_text_eq (h : f.text = f'.text) : f = f' := by
  have hchars := String.ofList_injective h
  obtain ⟨hopcode, hrest⟩ :=
    List.append_inj hchars (by rw [Opcode.chars_length, Opcode.chars_length])
  obtain ⟨-, hoperand⟩ := List.cons.inj hrest
  obtain ⟨hsign, hdigits⟩ := List.cons.inj hoperand
  exact Form.ext (Opcode.chars_inj.1 hopcode) (Sign.char_inj.1 hsign) hdigits

lemma instruction?_eq_some_iff : f.opcode.instruction? f.value = some i ↔ f.Denotes i := by
  obtain ⟨opcode, sign, digits, hne, hdigits⟩ := f
  cases opcode with
  | nop =>
    cases i <;> simp [Opcode.instruction?, Denotes]
  | acc =>
    cases i <;> simp [Opcode.instruction?, Denotes, int64?_eq_some_iff]
  | jmp =>
    cases i <;> simp [Opcode.instruction?, Denotes, int32?_eq_some_iff]

end Form

/-- A line is read as an instruction exactly when some form of it stands for that. -/
lemma ofString_eq_ok_iff {line : String} {i : Instruction} :
    ofString line = .ok i ↔ ∃ f : Form, f.text = line ∧ f.Denotes i := by
  rw [ofString, ofChars_eq_ok_iff]
  constructor
  · rintro ⟨opcode, ⟨sign, digits⟩, hline, hne, hdigits, hfits⟩
    refine ⟨⟨opcode, sign, digits, hne, List.all_eq_true.1 hdigits⟩, ?_, ?_⟩
    · exact String.toList_inj.1 (String.toList_ofList.trans hline.symm)
    · rw [← Form.instruction?_eq_some_iff, Form.value, ← Text.value_eq_ofDigits]
      exact hfits
  · rintro ⟨f, rfl, hdenotes⟩
    refine ⟨f.opcode, ⟨f.sign, f.digits⟩, String.toList_ofList, f.digits_ne_nil,
      List.all_eq_true.2 f.isDigit, ?_⟩
    rw [← Form.instruction?_eq_some_iff, Form.value, ← Text.value_eq_ofDigits] at hdenotes
    exact hdenotes

/-- **The reader accepts exactly its grammar, and with the right value.**  A line is an instruction
exactly when it is an opcode, one space, a sign and decimal digits, with a value that the opcode has
room for.  It is then the instruction with that opcode and that value. -/
theorem ofString_reads_forms (line : String) :
    ((∃ i, ofString line = .ok i) ↔
        ∃ f : Form, f.text = line ∧ f.opcode.HasRoomFor f.value) ∧
      ∀ f : Form, f.text = line → ∀ i, ofString line = .ok i ↔ f.Denotes i := by
  refine ⟨?_, ?_⟩
  · simp only [ofString_eq_ok_iff, ← Form.instruction?_eq_some_iff,
      ← Opcode.exists_instruction?_iff]
    constructor
    · rintro ⟨i, f, htext, hfits⟩
      exact ⟨f, htext, i, hfits⟩
    · rintro ⟨f, htext, i, hfits⟩
      exact ⟨i, f, htext, hfits⟩
  · rintro f rfl i
    rw [ofString_eq_ok_iff]
    constructor
    · rintro ⟨f', htext, hdenotes⟩
      obtain rfl := Form.eq_of_text_eq htext
      exact hdenotes
    · intro hdenotes
      exact ⟨f, rfl, hdenotes⟩

/-- The most negative accumulator, behind leading zeros, and one more than there is room for. -/
theorem ofString_reads_forms_at_limit :
    ofString "acc -0009223372036854775808" = .ok (.acc Int64.minValue) ∧
      ¬ ∃ i, ofString "jmp +2147483648" = .ok i := by
  refine ⟨?_, ?_⟩
  · exact ((ofString_reads_forms "acc -0009223372036854775808").2
      ⟨.acc, .minus, "0009223372036854775808".toList, by decide, List.all_eq_true.1 (by decide)⟩
      (by decide) _).2 ⟨rfl, by decide⟩
  · intro h
    obtain ⟨f, htext, hroom⟩ := (ofString_reads_forms "jmp +2147483648").1.1 h
    obtain rfl : f =
        ⟨.jmp, .plus, "2147483648".toList, by decide, List.all_eq_true.1 (by decide)⟩ :=
      Form.eq_of_text_eq (htext.trans (by decide))
    exact absurd hroom (by decide)

end Instruction
end AccumulatorMachine
