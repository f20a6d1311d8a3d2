import AccumulatorMachine.Event
import AccumulatorMachine.Instruction.Reader
import AccumulatorMachine.Program.Basic
import AccumulatorMachine.Text.Lines

/-!
# Reading a program

A program is read from a list of lines, one instruction a line, or from one text that is split
into lines first.  The first line that is not an instruction decides the refusal; lines are
counted from zero.
-/

namespace AccumulatorMachine

/-- Why lines are not a program: the first bad line and its cause. -/
structure SourceError where
  line : Nat
  cause : LineError
deriving DecidableEq, Repr

/-- The wording of a refusal. -/
def SourceError.message (e : SourceError) : String :=
  "line " ++ String.ofList (Text.decimal e.line) ++ ": " ++ e.cause.message

namespace Program

/-- Reads one instruction a line, the first line having the given number. -/
def instructionsFrom (n : Nat) : List String → Except SourceError (List Instruction)
  | [] => .ok []
  | line :: rest =>
    match Instruction.ofString line with
    | .error cause => .error ⟨n, cause⟩
    | .ok i => (instructionsFrom (n + 1) rest).map (i :: ·)

/-- Reads a program from its lines.  A line break inside a line is one of its characters. -/
def ofLines (lines : List String) : Except SourceError Program :=
  (instructionsFrom 0 lines).map fun is => ⟨is.toArray⟩

/-- Reads a program from a text of several lines. -/
def ofText (text : String) : Except SourceError Program :=
  ofLines ((Text.lines text.toList).map String.ofList)

/-- The event that a program read without a refusal leaves behind. -/
def loadEvent (p : Program) : Event :=
  .loaded p.size

end Program
end AccumulatorMachine
