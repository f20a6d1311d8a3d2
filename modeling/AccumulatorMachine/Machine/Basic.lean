import AccumulatorMachine.Block.Table
import AccumulatorMachine.Program.Source

/-!
# Machines

A machine is a program with its block table and its registers.  It can make a single step, or
a turn: a whole block where one starts at the address, and a single step elsewhere.
-/

namespace AccumulatorMachine

/-- The events that building a machine leaves behind: its program was read, and then cut into
blocks. -/
def Program.buildEvents (p : Program) : List Event :=
  [p.loadEvent, p.partitionEvent]

/-- A program loaded together with its block table, and the registers it runs on. -/
structure Machine where
  program : Program
  regs : Registers
  table : BlockTable := program.blockTable
  table_eq : table = program.blockTable := by rfl
deriving DecidableEq, Repr

namespace Machine

/-- A fresh machine with the given accumulator.  With no instruction to execute it has halted
already. -/
def ofProgram (p : Program) (seed : Int64) : Machine where
  program := p
  regs := { acc := seed, pc := 0, halt := p.isEmpty }

/-- The machine with other registers. -/
def withRegs (m : Machine) (r : Registers) : Machine :=
  { m with regs := r }

/-- What a single step from the given registers comes to. -/
def stepFrom (m : Machine) (r : Registers) : Outcome :=
  r.step m.program

/-- What a turn from the given registers comes to, without the event at its end. -/
def advance (m : Machine) (r : Registers) : Outcome :=
  match m.table.blockAt r.pc with
  | some b => b.execute r
  | none => m.stepFrom r

/-- What a turn from the given registers comes to.  A turn that succeeds ends with an event that
shows the registers it has reached. -/
def turnFrom (m : Machine) (r : Registers) : Outcome :=
  let o := m.advance r
  match o.fault? with
  | some _ => o
  | none => { o with log := o.log ++ [.reached o.regs (m.program.get? o.regs.pc)] }

/-- What a single step comes to. -/
def step (m : Machine) : Outcome :=
  m.stepFrom m.regs

@[simp] theorem program_withRegs (m : Machine) (r : Registers) :
    (m.withRegs r).program = m.program := rfl

@[simp] theorem regs_withRegs (m : Machine) (r : Registers) : (m.withRegs r).regs = r := rfl

end Machine
end AccumulatorMachine
