import AccumulatorMachine.Machine.Drive

/-!
# Sessions

A session is a machine under a user's commands, with a stack of copies saved on the way.  Saving
keeps a copy of the machine; swapping exchanges the machine with the copy saved last.  A run that
would never end is refused and leaves no trace.
-/

namespace AccumulatorMachine

/-- A machine and the copies saved of it, the last one first. -/
structure Session where
  machine : Machine
  saved : List Machine := []
deriving DecidableEq, Repr

/-- What a user can ask of a session. -/
inductive Command where
  /-- One single step, on a halted machine too. -/
  | step
  /-- Single steps until the machine halts or faults, but no more than `max`. -/
  | steps (max : Nat)
  /-- A run to the end. -/
  | run
  /-- Save a copy of the machine. -/
  | save
  /-- Exchange the machine with the copy saved last. -/
  | swap
deriving DecidableEq, Repr

/-- What a session answers. -/
inductive Reply where
  /-- The command was carried out, up to a fault if there was one. -/
  | done (fault? : Option JumpFault)
  /-- So many single steps succeeded, and this fault ended them if one did. -/
  | stepped (taken : Nat) (fault? : Option JumpFault)
  /-- The run would never end. -/
  | neverHalts
  /-- There are now so many saved copies. -/
  | saved (count : Nat)
  /-- There is no saved copy to exchange with. -/
  | nothingSaved
deriving DecidableEq, Repr

namespace Session

/-- Saves a copy of the machine. -/
def save (s : Session) : Session :=
  { s with saved := s.machine :: s.saved }

/-- Exchanges the machine with the copy saved last, if there is one. -/
def swap? (s : Session) : Option Session :=
  match s.saved with
  | [] => none
  | top :: rest => some ⟨top, s.machine :: rest⟩

/-- Continues with other registers. -/
def withRegs (s : Session) (r : Registers) : Session :=
  { s with machine := s.machine.withRegs r }

/-- Carries out a command: the session afterwards, the answer, and the events on the way. -/
def perform (s : Session) : Command → Session × Reply × List Event
  | .step =>
    let o := s.machine.step
    (s.withRegs o.regs, .done o.fault?, o.log)
  | .steps max =>
    let d := s.machine.stepUpTo max
    (s.withRegs d.outcome.regs, .stepped d.taken d.outcome.fault?, d.outcome.log)
  | .run =>
    match s.machine.run? with
    | some o => (s.withRegs o.regs, .done o.fault?, o.log)
    | none => (s, .neverHalts, [])
  | .save => (s.save, .saved s.save.saved.length, [])
  | .swap =>
    match s.swap? with
    | some s' => (s', .done none, [])
    | none => (s, .nothingSaved, [])

end Session
end AccumulatorMachine
