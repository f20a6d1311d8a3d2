import AccumulatorMachine.Program.Basic
import AccumulatorMachine.Text.Numeral

/-!
# Jumps

A jump adds a signed offset to the address it is taken from, both read as signed 64-bit words.
A target before the start of the program is a fault; a target past its end is not.

`jumpTarget_eq` says that for an address inside an addressable program this is addition of
integers.
-/

namespace AccumulatorMachine

/-- A jump to before the start of the program: where it was taken, and its offset. -/
structure JumpFault where
  pc : UInt64
  offset : Int32
deriving DecidableEq, Repr

/-- The wording of a fault. -/
def JumpFault.message (f : JumpFault) : String :=
  "jump " ++ String.ofList (Text.signed f.offset.toInt) ++
    " at " ++ String.ofList (Text.address f.pc.toNat) ++
    " moves before the start of the program"

/-- The target of a jump, unless it lies before the start of the program. -/
def jumpTarget (pc : UInt64) (offset : Int32) : Option UInt64 :=
  let target := pc.toInt64 + offset.toInt64
  if target < 0 then none else some target.toUInt64

/-- An address in the signed range is the same number when it is read as a signed word. -/
theorem toInt_toInt64 {pc : UInt64} (h : pc.toNat < 0x8000000000000000) :
    pc.toInt64.toInt = pc.toNat := by
  rw [Int64.toInt, UInt64.toBitVec_toInt64, BitVec.toInt_eq_toNat_of_lt]
  · rfl
  · change 2 * pc.toNat < _
    omega

/-- Away from the largest addresses a jump is addition of integers. -/
theorem jumpTarget_eq {pc : UInt64} {offset : Int32}
    (h : pc.toNat + 0x80000000 ≤ 0x8000000000000000) :
    jumpTarget pc offset =
      if (pc.toNat : Int) + offset.toInt < 0 then none
      else some (UInt64.ofNat ((pc.toNat : Int) + offset.toInt).toNat) := by
  have hlo := offset.le_toInt
  have hhi := offset.toInt_lt
  have hsum : (pc.toInt64 + offset.toInt64).toInt = pc.toNat + offset.toInt := by
    rw [Int64.toInt_add, toInt_toInt64, Int32.toInt_toInt64, Int.bmod_eq_of_le] <;> omega
  unfold jumpTarget
  simp only [Int64.lt_iff_toInt_lt, hsum, Int64.toInt_zero]
  split
  · rfl
  · rename_i hnonneg
    congr 1
    apply UInt64.toNat_inj.1
    rw [Int64.toNat_toUInt64_of_le, ← Int64.toNat_toInt, hsum, UInt64.toNat_ofNat_of_lt']
    · simp only [UInt64.size]
      omega
    · rw [Int64.le_iff_toInt_le, hsum, Int64.toInt_zero]
      omega

end AccumulatorMachine
