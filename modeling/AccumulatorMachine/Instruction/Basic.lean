/-!
# Instructions

An instruction is one of three opcodes with its operand already narrowed to the width that the
machine gives it: a 64-bit amount for the accumulator, a 32-bit offset for a jump.  A `nop`
keeps no operand.  `opcode` and `operand` take an instruction apart again, which is all that
printing needs.
-/

namespace AccumulatorMachine

/-- The three opcodes. -/
inductive Opcode where
  | nop
  | acc
  | jmp
deriving DecidableEq, Repr

namespace Opcode

/-- The letters of an opcode. -/
def chars : Opcode → List Char
  | nop => ['n', 'o', 'p']
  | acc => ['a', 'c', 'c']
  | jmp => ['j', 'm', 'p']

/-- The opcode with these letters. -/
def ofChars? (cs : List Char) : Option Opcode :=
  if cs = nop.chars then some nop
  else if cs = acc.chars then some acc
  else if cs = jmp.chars then some jmp
  else none

@[simp] theorem ofChars?_chars (o : Opcode) : ofChars? o.chars = some o := by
  cases o <;> rfl

theorem ofChars?_eq_some_iff {cs : List Char} {o : Opcode} :
    ofChars? cs = some o ↔ cs = o.chars := by
  constructor
  · intro h
    unfold ofChars? at h
    repeat' split at h
    all_goals cases h
    all_goals assumption
  · rintro rfl
    exact ofChars?_chars o

theorem chars_inj {o o' : Opcode} : o.chars = o'.chars ↔ o = o' := by
  rw [← ofChars?_eq_some_iff, ofChars?_chars, Option.some.injEq]

end Opcode

/-- One instruction of a program. -/
inductive Instruction where
  /-- Moves on to the next instruction. -/
  | nop
  /-- Adds to the accumulator and moves on. -/
  | acc (delta : Int64)
  /-- Moves by a signed number of instructions. -/
  | jmp (offset : Int32)
deriving DecidableEq, Repr

namespace Instruction

/-- The opcode of an instruction. -/
def opcode : Instruction → Opcode
  | nop => .nop
  | acc _ => .acc
  | jmp _ => .jmp

/-- The operand of an instruction as a plain number; a `nop` has zero. -/
def operand : Instruction → Int
  | nop => 0
  | acc delta => delta.toInt
  | jmp offset => offset.toInt

/-- What an instruction adds to the accumulator. -/
def delta : Instruction → Int64
  | acc delta => delta
  | _ => 0

@[simp] theorem delta_nop : delta .nop = 0 := rfl

@[simp] theorem delta_acc (d : Int64) : delta (.acc d) = d := rfl

@[simp] theorem delta_jmp (o : Int32) : delta (.jmp o) = 0 := rfl

end Instruction
end AccumulatorMachine
