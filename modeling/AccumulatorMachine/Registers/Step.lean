import AccumulatorMachine.Event
import AccumulatorMachine.Program.Basic

/-!
# One step

A step executes the instruction under the address.  Its outcome has the registers afterwards,
the fault if the instruction was a jump to before the start of the program, and the events on
the way.  A faulting step leaves the registers as they were; a step from outside the program
only sets the halt flag, which nothing ever clears.
-/

namespace AccumulatorMachine

/-- What a piece of execution comes to. -/
structure Outcome where
  /-- The registers afterwards. -/
  regs : Registers
  /-- The fault that stopped it, if one did. -/
  fault? : Option JumpFault := none
  /-- The events on the way, oldest first. -/
  log : List Event := []
deriving DecidableEq, Repr

namespace Outcome

/-- An outcome preceded by earlier events. -/
def after (events : List Event) (o : Outcome) : Outcome :=
  { o with log := events ++ o.log }

@[simp] theorem regs_after (es : List Event) (o : Outcome) : (o.after es).regs = o.regs := rfl

@[simp] theorem fault?_after (es : List Event) (o : Outcome) :
    (o.after es).fault? = o.fault? := rfl

@[simp] theorem log_after (es : List Event) (o : Outcome) : (o.after es).log = es ++ o.log := rfl

end Outcome

namespace Registers

/-- Takes a jump from the current address; the halt flag is left alone. -/
def jump (r : Registers) (offset : Int32) : Outcome :=
  match jumpTarget r.pc offset with
  | some target => { regs := { r with pc := target } }
  | none =>
    let fault : JumpFault := ⟨r.pc, offset⟩
    { regs := r, fault? := some fault, log := [.trapped fault] }

/-- Sets the halt flag if the address is at or past the end of the program. -/
def haltPast (r : Registers) (size : Nat) : Registers :=
  if size ≤ r.pc.toNat then { r with halt := true } else r

/-- What an instruction does, apart from the halt flag. -/
def execute (r : Registers) : Instruction → Outcome
  | .nop => { regs := { r with pc := r.pc + 1 } }
  | .acc delta => { regs := { r with acc := r.acc + delta, pc := r.pc + 1 } }
  | .jmp offset => r.jump offset

/-- Executes the instruction under the address. -/
def step (r : Registers) (p : Program) : Outcome :=
  match p.get? r.pc with
  | none => { regs := { r with halt := true } }
  | some i =>
    let o := r.execute i
    match o.fault? with
    | some _ => o.after [.fetched r.pc i]
    | none => { o with regs := o.regs.haltPast p.size }.after [.fetched r.pc i]

end Registers
end AccumulatorMachine
