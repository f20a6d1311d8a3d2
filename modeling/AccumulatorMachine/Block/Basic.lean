import AccumulatorMachine.Registers.Step

/-!
# Blocks

A block is a stretch of instructions that is always executed from its first to its last, summed
up by one addition to the accumulator and one exit.  Executing a block looks at neither the
instructions nor the current address.
-/

namespace AccumulatorMachine

/-- Where control goes after a block. -/
inductive Exit where
  /-- On to an instruction of the program. -/
  | goto (pc : UInt64)
  /-- To an address at or past the end of the program. -/
  | halt (pc : UInt64)
  /-- Through a jump at `site` to before the start of the program. -/
  | fault (site : UInt64) (offset : Int32)
deriving DecidableEq, Repr

/-- The instructions from `start` up to, and not including, `stop`, summed up. -/
structure Block where
  start : UInt64
  stop : UInt64
  /-- What the block adds to the accumulator. -/
  delta : Int64
  exit : Exit
deriving DecidableEq, Repr

/-- Takes an exit.  A fault exit moves to its jump first and takes it from there. -/
def Exit.execute (e : Exit) (r : Registers) : Outcome :=
  match e with
  | goto pc => { regs := { r with pc := pc } }
  | halt pc => { regs := { r with pc := pc, halt := true } }
  | fault site offset => Registers.jump { r with pc := site } offset

/-- Executes a whole block: its addition, then its exit. -/
def Block.execute (b : Block) (r : Registers) : Outcome :=
  b.exit.execute { r with acc := r.acc + b.delta }

end AccumulatorMachine
