import AccumulatorMachine.Instruction.Basic

/-!
# Programs

A program is a sequence of instructions, and the position of an instruction is its address.
Addresses are 64-bit words; those outside the program hold no instruction.
-/

namespace AccumulatorMachine

/-- A sequence of instructions. -/
structure Program where
  code : Array Instruction
deriving DecidableEq, Repr

namespace Program

/-- The number of instructions. -/
def size (p : Program) : Nat :=
  p.code.size

/-- Whether there are no instructions. -/
def isEmpty (p : Program) : Bool :=
  p.code.isEmpty

/-- The instructions in order. -/
def toList (p : Program) : List Instruction :=
  p.code.toList

/-- The instruction at an address. -/
def get? (p : Program) (pc : UInt64) : Option Instruction :=
  p.code[pc.toNat]?

/-- Every address a jump can reach from inside the program is a signed 64-bit word, so that no
address computation wraps.  Programs that fit in a machine's memory are of this kind. -/
def Addressable (p : Program) : Prop :=
  p.size + 0x80000000 ≤ 0x8000000000000000

instance (p : Program) : Decidable p.Addressable :=
  inferInstanceAs (Decidable (_ ≤ _))

theorem isEmpty_iff {p : Program} : p.isEmpty = true ↔ p.size = 0 := by
  simp [isEmpty, size]

theorem get?_eq_none_iff {p : Program} {pc : UInt64} : p.get? pc = none ↔ p.size ≤ pc.toNat := by
  simp [get?, size]

theorem lt_size_of_get? {p : Program} {pc : UInt64} {i : Instruction} (h : p.get? pc = some i) :
    pc.toNat < p.size :=
  (Array.getElem?_eq_some_iff.1 h).1

end Program
end AccumulatorMachine
