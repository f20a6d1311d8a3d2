import AccumulatorMachine.Block.Basic
import AccumulatorMachine.Block.Leaders

/-!
# The blocks of a program

The leaders cut a program into blocks, each from a leader up to the next one or to the end.
Since control never depends on the accumulator, the exit of a block is known in advance.  A
block table has the blocks in order and, for each address, the block that starts there.
-/

namespace AccumulatorMachine

/-- The blocks of a program, and for each position the index of the block that starts there. -/
structure BlockTable where
  blocks : Array Block
  entries : Array (Option Nat)
deriving DecidableEq, Repr

namespace BlockTable

/-- The block that starts exactly at an address. -/
def blockAt (t : BlockTable) (pc : UInt64) : Option Block :=
  t.entries[pc.toNat]?.join.bind fun k => t.blocks[k]?

/-- Executes the block that starts at `site`, if there is one, whatever the current address. -/
def executeAt? (t : BlockTable) (site : UInt64) (r : Registers) : Option Outcome :=
  (t.blockAt site).map fun b => b.execute r

/-- The table of some blocks of a program with `size` instructions. -/
def ofBlocks (size : Nat) (blocks : List Block) : BlockTable where
  blocks := blocks.toArray
  entries := blocks.zipIdx.foldl
    (fun entries e => entries.setIfInBounds e.1.start.toNat (some e.2))
    (Array.replicate size none)

end BlockTable

/-- The stretches between ascending positions, the last one up to `size`. -/
def spans (size : Nat) : List Nat → List (Nat × Nat)
  | [] => []
  | [start] => [(start, size)]
  | start :: next :: rest => (start, next) :: spans size (next :: rest)

namespace Program

/-- What the instructions from `start` up to `stop` add to the accumulator. -/
def deltaBetween (p : Program) (start stop : Nat) : Int64 :=
  (p.code.extract start stop).foldl (fun sum i => sum + i.delta) 0

/-- The exit to an address that is not before the start. -/
def exitTo (p : Program) (pc : UInt64) : Exit :=
  if p.size ≤ pc.toNat then .halt pc else .goto pc

/-- The exit of a block whose last instruction is at position `last`. -/
def exitAfter (p : Program) (last : Nat) : Exit :=
  match p.code[last]? with
  | some (.jmp offset) =>
    match jumpTarget (UInt64.ofNat last) offset with
    | some target => p.exitTo target
    | none => .fault (UInt64.ofNat last) offset
  | _ => p.exitTo (UInt64.ofNat (last + 1))

/-- The block from `start` up to `stop`. -/
def blockBetween (p : Program) (start stop : Nat) : Block where
  start := UInt64.ofNat start
  stop := UInt64.ofNat stop
  delta := p.deltaBetween start stop
  exit := p.exitAfter (stop - 1)

/-- The blocks of a program in order. -/
def blocks (p : Program) : List Block :=
  (spans p.size p.leaders).map fun span => p.blockBetween span.1 span.2

/-- The block table of a program. -/
def blockTable (p : Program) : BlockTable :=
  .ofBlocks p.size p.blocks

/-- The event that cutting a program into blocks leaves behind. -/
def partitionEvent (p : Program) : Event :=
  .partitioned p.size p.blockTable.blocks.size

end Program
end AccumulatorMachine
