import AccumulatorMachine.Instruction.Basic
import AccumulatorMachine.Text.Bytes
import AccumulatorMachine.Text.Numeral

/-!
# Reading an instruction from a line

A line is a three-byte opcode, one space, a sign and decimal digits, and nothing else.  A line
that breaks the rule is refused for the first cause met from left to right, together with the
part of the line at fault.  Leading zeros are allowed, and the operand of a `nop` is checked
for its shape only.

`Instruction.ofChars` works on characters; `Instruction.ofString` is the same on a string.
-/

namespace AccumulatorMachine

/-- Why a line is not an instruction. -/
inductive LineError where
  /-- The line does not start with an opcode. -/
  | unknownOpcode (text : String)
  /-- Nothing follows the opcode, or the space after it. -/
  | missingOperand
  /-- The operand starts with neither `+` nor `-`. -/
  | missingSign (operand : String)
  /-- No space follows the opcode, or no string of digits follows the sign. -/
  | invalidOperand (operand : String)
  /-- The operand does not fit the instruction. -/
  | operandOutOfRange (operand : String)
deriving DecidableEq, Repr

/-- The wording of a cause. -/
def LineError.message : LineError → String
  | unknownOpcode text => "unknown opcode `" ++ text ++ "`"
  | missingOperand => "missing operand"
  | missingSign operand => "operand `" ++ operand ++ "` has no explicit sign"
  | invalidOperand operand => "invalid operand `" ++ operand ++ "`"
  | operandOutOfRange operand => "operand `" ++ operand ++ "` out of range"

/-! ## Operands -/

/-- An operand as it is written: a sign and the digits after it. -/
structure Operand where
  sign : Sign
  digits : List Char
deriving DecidableEq, Repr

namespace Operand

/-- The number an operand denotes. -/
def value (o : Operand) : Int :=
  o.sign.apply (Text.value o.digits)

/-- The characters of an operand. -/
def chars (o : Operand) : List Char :=
  o.sign.char :: o.digits

/-- Reads an operand that takes up the whole text. -/
def ofChars : List Char → Except LineError Operand
  | [] => .error .missingOperand
  | c :: ds =>
    match Sign.ofChar? c with
    | none => .error (.missingSign (String.ofList (c :: ds)))
    | some sign =>
      if ds ≠ [] ∧ ds.all Char.isDigit then .ok ⟨sign, ds⟩
      else .error (.invalidOperand (String.ofList (c :: ds)))

/-- An operand is read exactly from its own characters, when it has digits and no others. -/
theorem ofChars_eq_ok_iff {cs : List Char} {o : Operand} :
    ofChars cs = .ok o ↔ cs = o.chars ∧ o.digits ≠ [] ∧ o.digits.all Char.isDigit := by
  cases cs with
  | nil => simp [ofChars, chars]
  | cons c ds =>
    simp only [ofChars, chars, List.cons.injEq]
    cases hs : Sign.ofChar? c with
    | none =>
      simp only [reduceCtorEq, false_iff, not_and]
      rintro ⟨rfl, _⟩
      simp at hs
    | some s =>
      rw [Sign.ofChar?_eq_some_iff] at hs
      subst hs
      obtain ⟨sign, digits⟩ := o
      simp only [Sign.char_inj]
      split
      · rename_i h
        simp only [Except.ok.injEq, mk.injEq]
        constructor
        · rintro ⟨rfl, rfl⟩
          exact ⟨⟨rfl, rfl⟩, h⟩
        · exact fun h' => h'.1
      · rename_i h
        simp only [reduceCtorEq, false_iff, not_and]
        rintro ⟨_, rfl⟩ h1 h2
        exact h ⟨h1, h2⟩

end Operand

/-! ## Widths -/

/-- The word with this value, if there is one.  The words have the values from `-bound` up to
`bound`, which is not among them. -/
def word? {α : Type} (bound : Int) (ofInt : Int → α) (v : Int) : Option α :=
  if -bound ≤ v ∧ v < bound then some (ofInt v) else none

/-- The 64-bit word with this value, if there is one. -/
def int64? (v : Int) : Option Int64 :=
  word? 0x8000000000000000 Int64.ofInt v

/-- The 32-bit word with this value, if there is one. -/
def int32? (v : Int) : Option Int32 :=
  word? 0x80000000 Int32.ofInt v

theorem exists_word?_iff {α : Type} {bound : Int} {ofInt : Int → α} {v : Int} :
    (∃ w, word? bound ofInt v = some w) ↔ -bound ≤ v ∧ v < bound := by
  unfold word?
  split
  · simp [*]
  · simp [*]

/-- Words are found exactly by their values, if `toInt` gives their values and `ofInt` is its
inverse. -/
theorem word?_eq_some_iff {α : Type} {bound : Int} {ofInt : Int → α} {toInt : α → Int}
    (hrange : ∀ w, -bound ≤ toInt w ∧ toInt w < bound)
    (htoInt : ∀ v, -bound ≤ v → v < bound → toInt (ofInt v) = v)
    (hofInt : ∀ w, ofInt (toInt w) = w) {v : Int} {w : α} :
    word? bound ofInt v = some w ↔ v = toInt w := by
  constructor
  · intro h
    have hv := exists_word?_iff.1 ⟨w, h⟩
    rw [word?, if_pos hv, Option.some.injEq] at h
    rw [← h, htoInt v hv.1 hv.2]
  · rintro rfl
    rw [word?, if_pos (hrange w), hofInt]

theorem int64?_eq_some_iff {v : Int} {w : Int64} : int64? v = some w ↔ v = w.toInt :=
  word?_eq_some_iff (fun w => ⟨w.le_toInt, w.toInt_lt⟩)
    (fun _ hlo hhi => Int64.toInt_ofInt_of_le hlo hhi) Int64.ofInt_toInt

theorem int32?_eq_some_iff {v : Int} {w : Int32} : int32? v = some w ↔ v = w.toInt :=
  word?_eq_some_iff (fun w => ⟨w.le_toInt, w.toInt_lt⟩)
    (fun _ hlo hhi => Int32.toInt_ofInt_of_le hlo hhi) Int32.ofInt_toInt

/-- The instruction with an opcode and the value of an operand, if the value fits. -/
def Opcode.instruction? : Opcode → Int → Option Instruction
  | nop, _ => some .nop
  | acc, v => (int64? v).map .acc
  | jmp, v => (int32? v).map .jmp

/-! ## Lines -/

namespace Instruction

/-- Reads what follows the opcode: one space and an operand that fits. -/
def ofOperand (opcode : Opcode) : List Char → Except LineError Instruction
  | [] => .error .missingOperand
  | c :: cs =>
    if c = ' ' then
      match Operand.ofChars cs with
      | .error cause => .error cause
      | .ok operand =>
        match opcode.instruction? operand.value with
        | some i => .ok i
        | none => .error (.operandOutOfRange (String.ofList cs))
    else .error (.invalidOperand (String.ofList (c :: cs)))

/-- Reads an instruction from the characters of a line. -/
def ofChars (line : List Char) : Except LineError Instruction :=
  match Text.splitAtByte? 3 line with
  | none => .error (.unknownOpcode (String.ofList line))
  | some (front, rest) =>
    match Opcode.ofChars? front with
    | none => .error (.unknownOpcode (String.ofList front))
    | some opcode => ofOperand opcode rest

/-- Reads an instruction from a line. -/
def ofString (line : String) : Except LineError Instruction :=
  ofChars line.toList

end Instruction
end AccumulatorMachine
