import AccumulatorMachine.Machine.Drive

/-!
# The demonstration

The demonstration loads a nine-line program and shows the accumulator before and after its run.
-/

namespace AccumulatorMachine
namespace Demo

/-- The program that is shown. -/
def sample : List String :=
  ["nop +0", "acc +1", "jmp +4", "acc +3", "jmp -3", "acc -99", "acc +1", "nop -4", "acc +6"]

/-- What can go wrong in a demonstration. -/
inductive Failure where
  /-- The lines are not a program. -/
  | refused (error : SourceError)
  /-- The run has ended with a fault. -/
  | faulted (fault : JumpFault)
  /-- The run would never end. -/
  | neverHalts
deriving DecidableEq, Repr

/-- What a demonstration prints, and what went wrong if anything did. -/
structure Transcript where
  output : List String
  failure? : Option Failure := none
deriving DecidableEq, Repr

/-- The exit code that goes with a transcript. -/
def Transcript.exitCode (t : Transcript) : UInt32 :=
  if t.failure?.isSome then 1 else 0

/-- The accumulator on a line. -/
def accumulatorLine (r : Registers) : String :=
  String.ofList (Text.integer r.acc.toInt)

/-- Loads a program with accumulator zero, and shows the accumulator before and after its run. -/
def transcript (lines : List String) : Transcript :=
  match Program.ofLines lines with
  | .error e => { output := [], failure? := some (.refused e) }
  | .ok p =>
    let m := Machine.ofProgram p 0
    let before := accumulatorLine m.regs
    match m.run? with
    | none => { output := [before], failure? := some .neverHalts }
    | some o =>
      match o.fault? with
      | some f => { output := [before], failure? := some (.faulted f) }
      | none => { output := [before, accumulatorLine o.regs] }

end Demo
end AccumulatorMachine
