import AccumulatorMachine.Instruction.Basic
import AccumulatorMachine.Text.Numeral

/-!
# The canonical line of an instruction

Every instruction has one canonical line: the opcode, a space, and the operand in decimal with
its sign always written.
-/

namespace AccumulatorMachine
namespace Instruction

/-- The canonical line of an instruction, as characters. -/
def chars (i : Instruction) : List Char :=
  i.opcode.chars ++ ' ' :: Text.signed i.operand

/-- The canonical line of an instruction. -/
def text (i : Instruction) : String :=
  String.ofList i.chars

instance : ToString Instruction := ⟨text⟩

@[simp] theorem toList_text (i : Instruction) : i.text.toList = i.chars :=
  String.toList_ofList

end Instruction
end AccumulatorMachine
