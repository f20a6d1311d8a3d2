import AccumulatorMachine.Instruction.Printer
import AccumulatorMachine.Registers.Basic
import AccumulatorMachine.Registers.Jump

/-!
# Events

Reading, cutting into blocks, stepping and running leave events behind, in the order in which
they happened.  An event has a severity, and a reader asks for all events of at least some
severity; `report` gives them as text.
-/

namespace AccumulatorMachine

/-- How much an event matters, most first. -/
inductive Severity where
  | error
  | warn
  | info
  | debug
  | trace
deriving DecidableEq, Repr

namespace Severity

/-- The place of a severity, most severe first. -/
def rank : Severity → Nat
  | error => 0
  | warn => 1
  | info => 2
  | debug => 3
  | trace => 4

/-- The name of a severity. -/
def label : Severity → String
  | error => "ERROR"
  | warn => "WARN"
  | info => "INFO"
  | debug => "DEBUG"
  | trace => "TRACE"

end Severity

/-- What can happen in the life of a program. -/
inductive Event where
  /-- A program of `size` instructions was read. -/
  | loaded (size : Nat)
  /-- A program of `size` instructions was cut into blocks. -/
  | partitioned (size blocks : Nat)
  /-- A single step is about to execute an instruction. -/
  | fetched (pc : UInt64) (instruction : Instruction)
  /-- A jump went before the start of the program. -/
  | trapped (fault : JumpFault)
  /-- A run has come to these registers, with this instruction next. -/
  | reached (regs : Registers) (next : Option Instruction)
  /-- A run has ended with these registers. -/
  | halted (regs : Registers)
deriving DecidableEq, Repr

namespace Event

/-- The severity of an event. -/
def severity : Event → Severity
  | loaded _ => .debug
  | partitioned _ _ => .debug
  | fetched _ _ => .trace
  | trapped _ => .warn
  | reached _ _ => .debug
  | halted _ => .info

/-- The part of the machine an event comes from. -/
def origin : Event → String
  | loaded _ => "acc_vm::program"
  | partitioned _ _ => "acc_vm::translation"
  | fetched _ _ => "acc_vm::cpu"
  | trapped _ => "acc_vm::cpu"
  | reached _ _ => "acc_vm"
  | halted _ => "acc_vm"

/-- The wording of an event. -/
def message : Event → String
  | loaded size => "compiled program of " ++ String.ofList (Text.decimal size) ++ " instructions"
  | partitioned size blocks =>
    "translated " ++ String.ofList (Text.decimal size) ++
      " instructions into " ++ String.ofList (Text.decimal blocks) ++ " blocks"
  | fetched pc i => String.ofList (Text.address pc.toNat) ++ ": " ++ i.text
  | trapped fault =>
    "trap: jmp " ++ String.ofList (Text.signed fault.offset.toInt) ++
      " at " ++ String.ofList (Text.address fault.pc.toNat)
  | reached r next =>
    "State: PC: " ++ String.ofList (Text.address r.pc.toNat) ++
      ", ACC: " ++ String.ofList (Text.alignRight 4 (Text.integer r.acc.toInt)) ++
      " | " ++ (next.map Instruction.text).getD "-"
  | halted r => r.text

/-- An event on one line: its severity, where it comes from, and its wording. -/
def text (e : Event) : String :=
  e.severity.label ++ " " ++ e.origin ++ ": " ++ e.message

/-- The events of at least the given severity. -/
def visible (least : Severity) (events : List Event) : List Event :=
  events.filter fun e => e.severity.rank ≤ least.rank

/-- The events of at least the given severity, one line each. -/
def report (least : Severity) (events : List Event) : List String :=
  (visible least events).map text

end Event
end AccumulatorMachine
