import AccumulatorMachine.Machine.Basic

/-!
# Driving a machine

Driving repeats single steps or turns until the machine halts, a fault stops it, or a bound is
reached.  A run is a drive by turns.  From an address outside the program one turn halts the
machine.  From an address inside it, a machine that has not settled after as many turns as the
program has instructions has come to some address twice and never will settle, because control
does not depend on the accumulator.  So one turn more than there are instructions decides
whether a run ends, and one that does not has no outcome.
-/

namespace AccumulatorMachine

/-- What a bounded repetition comes to. -/
structure Drive where
  /-- The registers at its end, the fault that stopped it, and all events. -/
  outcome : Outcome
  /-- How many repetitions succeeded. -/
  taken : Nat
deriving DecidableEq, Repr

/-- Repeats `turn` at most `bound` times, for as long as it succeeds and the machine has not
halted. -/
def drive (turn : Registers → Outcome) : Nat → Registers → Drive
  | 0, r => ⟨{ regs := r }, 0⟩
  | bound + 1, r =>
    if r.halt then ⟨{ regs := r }, 0⟩
    else
      let o := turn r
      match o.fault? with
      | some _ => ⟨o, 0⟩
      | none =>
        let rest := drive turn bound o.regs
        ⟨rest.outcome.after o.log, rest.taken + 1⟩

/-- Whether a drive has ended because the machine halted or a fault stopped it. -/
def Drive.settled (d : Drive) : Bool :=
  d.outcome.fault?.isSome || d.outcome.regs.halt

theorem drive_of_halt {turn : Registers → Outcome} {r : Registers} (bound : Nat)
    (h : r.halt = true) : drive turn bound r = ⟨{ regs := r }, 0⟩ := by
  cases bound <;> simp [drive, h]

theorem drive_of_fault {turn : Registers → Outcome} {r : Registers} {f : JumpFault} (bound : Nat)
    (h : r.halt = false) (hf : (turn r).fault? = some f) :
    drive turn (bound + 1) r = ⟨turn r, 0⟩ := by
  simp [drive, h, hf]

theorem drive_succ {turn : Registers → Outcome} {r : Registers} (bound : Nat)
    (h : r.halt = false) (hf : (turn r).fault? = none) :
    drive turn (bound + 1) r =
      ⟨(drive turn bound (turn r).regs).outcome.after (turn r).log,
        (drive turn bound (turn r).regs).taken + 1⟩ := by
  simp [drive, h, hf]

namespace Machine

/-- Single steps until the machine halts or faults, but no more than `max`. -/
def stepUpTo (m : Machine) (max : Nat) : Drive :=
  drive m.stepFrom max m.regs

/-- Turns until the machine halts or faults, but no more than `max`. -/
def turnUpTo (m : Machine) (max : Nat) : Drive :=
  drive m.turnFrom max m.regs

/-- Runs the machine until it halts or faults; `none` if it never does.  A run that ends without
a fault says so with an event. -/
def run? (m : Machine) : Option Outcome :=
  let d := m.turnUpTo (m.program.size + 1)
  if d.settled then
    match d.outcome.fault? with
    | some _ => some d.outcome
    | none => some { d.outcome with log := d.outcome.log ++ [.halted d.outcome.regs] }
  else none

end Machine
end AccumulatorMachine
