import AccumulatorMachine.Text.Numeral

/-!
# Registers

The machine has an accumulator, an address and a halt flag.
-/

namespace AccumulatorMachine

/-- The registers of the machine. -/
structure Registers where
  /-- The accumulator; addition wraps. -/
  acc : Int64 := 0
  /-- The address of the next instruction. -/
  pc : UInt64 := 0
  /-- Whether the address has left the program at its end. -/
  halt : Bool := false
deriving DecidableEq, Repr

namespace Registers

/-- The registers on one line, all numbers in decimal. -/
def text (r : Registers) : String :=
  "Cpu [ acc: " ++ String.ofList (Text.integer r.acc.toInt) ++
    ", pc: " ++ String.ofList (Text.decimal r.pc.toNat) ++
    ", halt: " ++ (if r.halt then "true" else "false") ++ " ]"

instance : ToString Registers := ⟨text⟩

/-- Overwrites the registers that are given a value. -/
def overwrite (r : Registers) (acc? : Option Int64) (pc? : Option UInt64) (halt? : Option Bool) :
    Registers where
  acc := acc?.getD r.acc
  pc := pc?.getD r.pc
  halt := halt?.getD r.halt

end Registers
end AccumulatorMachine
