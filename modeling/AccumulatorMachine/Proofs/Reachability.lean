import Mathlib.Logic.Relation
import AccumulatorMachine.Proofs.Agreement

/-!
# The machines that calls lead to

A user builds a machine and then asks for single steps and for runs, in any order.  `Reaches` is
what any number of such calls leads to, faulting ones included and runs that never end left out.

`Registers.Placed` is the invariant that all of this keeps.  The halt flag is set exactly when the
address lies outside the program, and the address is never further out than the longest jump from
the last instruction leads.  A single step keeps it (`Placed.step`), so repeated steps do, and so
does a run, because it ends as single steps end.  On the strength of it a halted machine is at
rest: no call changes it (`call?_of_halt`).
-/

namespace AccumulatorMachine

/-- What can be asked of a machine. -/
inductive Call where
  /-- One single step. -/
  | step
  /-- A run to the end. -/
  | run
deriving DecidableEq, Repr

namespace Machine

/-- What a call comes to; nothing for a run that never ends. -/
def call? (m : Machine) : Call → Option Outcome
  | .step => some m.step
  | .run => m.run?

/-- Some call returns, with a fault or without, and leads from the one machine to the other. -/
def Leads (m m' : Machine) : Prop :=
  ∃ c o, m.call? c = some o ∧ m' = m.withRegs o.regs

/-- Some number of calls leads from the one machine to the other. -/
def Reaches : Machine → Machine → Prop :=
  Relation.ReflTransGen Leads

variable {m m' : Machine}

lemma Reaches.program_eq (h : m.Reaches m') : m'.program = m.program := by
  induction h with
  | refl => rfl
  | tail _ hlead ih =>
    obtain ⟨c, o, -, rfl⟩ := hlead
    rw [program_withRegs, ih]

/-- A call that returns has the result of single steps: of one, or of a loop over them. -/
lemma returns_of_call? (hp : m.program.Addressable) {c : Call} {o : Outcome}
    (h : m.call? c = some o) :
    o.result = (m.stepFrom m.regs).result ∨ Returns m.stepFrom m.regs o.result := by
  cases c with
  | step =>
    left
    rw [← Option.some.inj h]
    rfl
  | run =>
    right
    exact (exists_run?_iff_returns_stepFrom hp).1 ⟨o, h, rfl⟩

end Machine

/-! ## The invariant -/

/-- The halt flag and the address fit the program: the flag says whether the address lies outside,
and the address is within reach of a jump. -/
structure Registers.Placed (p : Program) (r : Registers) : Prop where
  halt_iff : r.halt = true ↔ p.size ≤ r.pc.toNat
  pc_le : (r.pc.toNat : ℤ) ≤ max (p.size : ℤ) (p.size - 1 + (2 ^ 31 - 1))

namespace Registers.Placed

variable {p : Program} {r : Registers}

lemma pc_lt_size (h : r.Placed p) (hr : r.halt = false) : r.pc.toNat < p.size := by
  by_contra hlt
  rw [h.halt_iff.2 (not_lt.1 hlt)] at hr
  cases hr

/-- A step of a halted machine changes nothing. -/
lemma result_step_of_halt (h : r.Placed p) (hr : r.halt = true) :
    (r.step p).result = (none, r) := by
  rw [result_step_of_size_le (h.halt_iff.1 hr), ← hr]

lemma step (h : r.Placed p) (hp : p.Addressable) : (r.step p).regs.Placed p := by
  by_cases hr : r.halt = true
  · rwa [Outcome.regs_of_result (h.result_step_of_halt hr)]
  rw [Bool.not_eq_true] at hr
  rcases r.step_cases p with ⟨pc, hnext, hstep⟩ | ⟨offset, -, -, hstep⟩
  · rw [Outcome.regs_of_result hstep]
    refine ⟨by simp [hr], ?_⟩
    exact le_max_of_le_right (hp.toNat_le_of_next? (h.pc_lt_size hr) hnext)
  · rwa [Outcome.regs_of_result hstep]

lemma calls_step (h : r.Placed p) (hp : p.Addressable) (n : ℕ) :
    (calls (·.step p) n r).regs.Placed p :=
  calls_invariant (P := Placed p) (fun _ hr => hr.step hp) h n

lemma of_returns (h : r.Placed p) (hp : p.Addressable) {res : Option JumpFault × Registers}
    (hres : Returns (·.step p) r res) : res.2.Placed p := by
  obtain ⟨n, o, hloop, rfl⟩ := hres
  obtain ⟨rfl, -, -⟩ := hloop.spec
  exact h.calls_step hp n

end Registers.Placed

namespace Machine

variable {m m' : Machine}

lemma placed_ofProgram (p : Program) (seed : Int64) : (ofProgram p seed).regs.Placed p := by
  refine ⟨?_, ?_⟩
  · simp [ofProgram, Program.isEmpty_iff]
  · simp only [ofProgram, UInt64.toNat_zero]
    omega

lemma Leads.placed (h : m.Leads m') (hp : m.program.Addressable)
    (hplaced : m.regs.Placed m.program) : m'.regs.Placed m.program := by
  obtain ⟨c, o, hcall, rfl⟩ := h
  rcases returns_of_call? hp hcall with hstep | hreturns
  · show o.regs.Placed m.program
    rw [Outcome.regs_of_result hstep]
    exact hplaced.step hp
  · exact hplaced.of_returns hp hreturns

lemma Reaches.placed (h : m.Reaches m') (hp : m.program.Addressable)
    (hplaced : m.regs.Placed m.program) : m'.regs.Placed m.program := by
  induction h with
  | refl => exact hplaced
  | @tail b c hreach hlead ih =>
    have hprogram : b.program = m.program := Reaches.program_eq hreach
    rw [← hprogram] at hp ih ⊢
    exact hlead.placed hp ih

/-! ## Rest -/

/-- No call changes a halted machine, and none faults or fails to return. -/
lemma call?_of_halt (hp : m.program.Addressable) (hplaced : m.regs.Placed m.program)
    (h : m.regs.halt = true) (c : Call) :
    ∃ o, m.call? c = some o ∧ o.result = (none, m.regs) := by
  cases c with
  | step => exact ⟨m.step, rfl, hplaced.result_step_of_halt h⟩
  | run =>
    refine (exists_run?_iff_returns_turnFrom hp).2 ?_
    exact ⟨0, _, .done h, rfl⟩

lemma Reaches.eq_of_halt (h : m.Reaches m') (hp : m.program.Addressable)
    (hplaced : m.regs.Placed m.program) (hhalt : m.regs.halt = true) : m' = m := by
  induction h with
  | refl => rfl
  | tail _ hlead ih =>
    subst ih
    obtain ⟨c, o, hcall, rfl⟩ := hlead
    obtain ⟨o', hcall', hresult⟩ := call?_of_halt hp hplaced hhalt c
    obtain rfl : o = o' := by simpa [hcall] using hcall'
    rw [Outcome.regs_of_result hresult]
    rfl

/-- **The invariant of all machines that calls lead to.**  The halt flag is set exactly when the
address lies outside the program, and the address never lies further out than the longest jump
leads.  So a machine that has halted stays as it is: every later call succeeds and changes
nothing. -/
theorem reachable_halt_iff_outside {p : Program} (hp : p.size < 2 ^ 59) {seed : Int64}
    (hm : (ofProgram p seed).Reaches m) :
    (m.regs.halt = true ↔ p.size ≤ m.regs.pc.toNat) ∧
      (m.regs.pc.toNat : ℤ) ≤ max (p.size : ℤ) (p.size - 1 + (2 ^ 31 - 1)) ∧
      (m.regs.halt = true → ∀ m', m.Reaches m' → m' = m ∧
        ∀ c, ∃ o, m'.call? c = some o ∧ o.fault? = none ∧ o.regs = m'.regs) := by
  have haddr := Program.addressable_of_size_lt hp
  have hprogram : m.program = p := hm.program_eq
  have hplaced : m.regs.Placed p := hm.placed haddr (placed_ofProgram p seed)
  refine ⟨hplaced.halt_iff, hplaced.pc_le, ?_⟩
  intro hhalt m' hm'
  rw [← hprogram] at haddr hplaced
  obtain rfl := hm'.eq_of_halt haddr hplaced hhalt
  refine ⟨rfl, ?_⟩
  intro c
  obtain ⟨o, hcall, hresult⟩ := call?_of_halt haddr hplaced hhalt c
  exact ⟨o, hcall, Outcome.result_eq_iff.1 hresult⟩

/-- A run that jumps past the end, and whatever is asked for after it. -/
theorem reachable_halt_iff_outside_past_end :
    ∃ m, (ofProgram ⟨#[.acc 1, .jmp 10, .acc 1]⟩ 0).Reaches m ∧ m.regs = ⟨1, 11, true⟩ ∧
      ∀ m', m.Reaches m' → m' = m := by
  have hreach : (ofProgram ⟨#[.acc 1, .jmp 10, .acc 1]⟩ 0).Reaches
      ((ofProgram ⟨#[.acc 1, .jmp 10, .acc 1]⟩ 0).withRegs ⟨1, 11, true⟩) :=
    .single ⟨.run, _, rfl, rfl⟩
  refine ⟨_, hreach, rfl, ?_⟩
  intro m' hm'
  exact ((reachable_halt_iff_outside (by decide) hreach).2.2 rfl m' hm').1

end Machine
end AccumulatorMachine
