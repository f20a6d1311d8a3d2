import Mathlib.Data.List.Forall2
import AccumulatorMachine.Program.Source

/-!
# What the readers accept

A line is an instruction exactly when it is an opcode, a space and an operand whose value the opcode
has room for (`Instruction.ofChars_eq_ok_iff`); which instruction it is depends on the opcode and
the value only.  Lines are a program exactly when each of them is an instruction, and the program
has those instructions in the order of the lines (`Program.ofLines_eq_ok_iff`).

Nothing that is said later about reading a line or a program opens the readers again.
-/

namespace AccumulatorMachine

lemma Opcode.byteLength_chars (o : Opcode) : Text.byteLength o.chars = 3 := by
  cases o with
  | nop => rfl
  | acc => rfl
  | jmp => rfl

namespace Instruction

variable {i : Instruction}

lemma ofOperand_eq_ok_iff {opcode : Opcode} {cs : List Char} :
    ofOperand opcode cs = .ok i ↔
      ∃ operand : Operand, cs = ' ' :: operand.chars ∧ operand.digits ≠ [] ∧
        operand.digits.all Char.isDigit ∧ opcode.instruction? operand.value = some i := by
  constructor
  · intro h
    rcases cs with _ | ⟨c, cs⟩
    · cases h
    simp only [ofOperand] at h
    split at h
    · rename_i hc
      split at h
      · cases h
      · rename_i operand hoperand
        obtain ⟨rfl, hne, hdigits⟩ := Operand.ofChars_eq_ok_iff.1 hoperand
        split at h
        · rename_i hfits
          rw [Except.ok.injEq] at h
          exact ⟨operand, by rw [hc], hne, hdigits, h ▸ hfits⟩
        · cases h
    · cases h
  · rintro ⟨operand, rfl, hne, hdigits, hfits⟩
    have hoperand := Operand.ofChars_eq_ok_iff.2 ⟨rfl, hne, hdigits⟩
    simp [ofOperand, hoperand, hfits]

/-- Behind an opcode the reader goes on to the operand. -/
lemma ofChars_append (opcode : Opcode) (rest : List Char) :
    ofChars (opcode.chars ++ rest) = ofOperand opcode rest := by
  have hsplit := Text.splitAtByte?_eq_some_iff.2
    ⟨(rfl : opcode.chars ++ rest = _), opcode.byteLength_chars⟩
  simp only [ofChars, hsplit, Opcode.ofChars?_chars]

/-- A line is read as an instruction exactly when it is an opcode, a space and an operand that
together stand for it. -/
lemma ofChars_eq_ok_iff {line : List Char} :
    ofChars line = .ok i ↔
      ∃ (opcode : Opcode) (operand : Operand), line = opcode.chars ++ ' ' :: operand.chars ∧
        operand.digits ≠ [] ∧ operand.digits.all Char.isDigit ∧
        opcode.instruction? operand.value = some i := by
  constructor
  · intro h
    unfold ofChars at h
    split at h
    · cases h
    · rename_i front rest hsplit
      obtain ⟨rfl, -⟩ := Text.splitAtByte?_eq_some_iff.1 hsplit
      split at h
      · cases h
      · rename_i opcode hopcode
        obtain rfl := Opcode.ofChars?_eq_some_iff.1 hopcode
        obtain ⟨operand, rfl, hoperand⟩ := ofOperand_eq_ok_iff.1 h
        exact ⟨opcode, operand, rfl, hoperand⟩
  · rintro ⟨opcode, operand, rfl, hoperand⟩
    rw [ofChars_append]
    exact ofOperand_eq_ok_iff.2 ⟨operand, rfl, hoperand⟩

end Instruction

namespace Program

/-- Lines are read as instructions exactly when each line is read as its instruction. -/
lemma instructionsFrom_eq_ok_iff {n : ℕ} {lines : List String} {is : List Instruction} :
    instructionsFrom n lines = .ok is ↔
      List.Forall₂ (fun line i => Instruction.ofString line = .ok i) lines is := by
  induction lines generalizing n is with
  | nil =>
    rw [instructionsFrom, List.forall₂_nil_left_iff, Except.ok.injEq, eq_comm]
  | cons line lines ih =>
    rw [List.forall₂_cons_left_iff]
    simp only [instructionsFrom, ← ih (n := n + 1)]
    rcases hline : Instruction.ofString line with cause | i
    · simp
    · rcases instructionsFrom (n + 1) lines with e | rest
      · simp [Except.map]
      · simp [Except.map, eq_comm]

lemma ofLines_eq_ok_iff {lines : List String} {p : Program} :
    ofLines lines = .ok p ↔
      List.Forall₂ (fun line i => Instruction.ofString line = .ok i) lines p.toList := by
  rw [← instructionsFrom_eq_ok_iff (n := 0), ofLines]
  obtain ⟨code⟩ := p
  rcases instructionsFrom 0 lines with e | is
  · simp [Except.map]
  · simp only [Except.map, toList, Except.ok.injEq, mk.injEq]
    constructor
    · rintro rfl
      rfl
    · rintro rfl
      rfl

end Program
end AccumulatorMachine
