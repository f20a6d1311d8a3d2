import AccumulatorMachine.Proofs.Checked
import AccumulatorMachine.Proofs.Noninterference

/-!
# A machine without widths

`IdealRegisters` are the registers of a machine that has integers for its address and its
accumulator.  Its step is written down without words and without blocks, a run of it is the loop
over its steps, and a jump faults when its target is negative.  The machine of this library is that
machine in words: the addresses are the same, and the accumulator is the residue modulo `2 ^ 64` of
the ideal one that lies in the signed range.

`Registers.Represents` is this relation between registers, and a step keeps it
(`Represents.step`).  Nothing is asked of the address.  From inside the program the arithmetic is
exact, and from outside a step does none.  So loops over steps come back together
(`Represents.exists_idealReturns`, `Represents.exists_returns`).  A run comes back as the loop over
steps does, which is how the summed additions of blocks, made in another order, come to the same
residue.

`execution_refines_integers` puts this beside the absence of overflow.
-/

namespace AccumulatorMachine

/-! ## The ideal machine -/

/-- The registers of the ideal machine. -/
structure IdealRegisters where
  acc : ℤ
  pc : ℤ
  halt : Bool
deriving DecidableEq, Repr

/-- A jump of the ideal machine to before the start: where it was taken, and its offset. -/
structure IdealFault where
  pc : ℤ
  offset : ℤ
deriving DecidableEq, Repr

namespace IdealRegisters

/-- The registers that a fresh ideal machine starts with. -/
def fresh (p : Program) (seed : ℤ) : IdealRegisters :=
  ⟨seed, 0, p.isEmpty⟩

/-- The instruction under the address. -/
def fetch? (s : IdealRegisters) (p : Program) : Option Instruction :=
  if 0 ≤ s.pc then p.code[s.pc.toNat]? else none

/-- Sets the halt flag if the address is at or past the end of the program. -/
def haltPast (s : IdealRegisters) (size : ℕ) : IdealRegisters :=
  { s with halt := s.halt || decide ((size : ℤ) ≤ s.pc) }

/-- Executes the instruction under the address. -/
def step (s : IdealRegisters) (p : Program) : Option IdealFault × IdealRegisters :=
  match s.fetch? p with
  | none => (none, { s with halt := true })
  | some .nop => (none, { s with pc := s.pc + 1 }.haltPast p.size)
  | some (.acc delta) =>
    (none, { s with acc := s.acc + delta.toInt, pc := s.pc + 1 }.haltPast p.size)
  | some (.jmp offset) =>
    if s.pc + offset.toInt < 0 then (some ⟨s.pc, offset.toInt⟩, s)
    else (none, { s with pc := s.pc + offset.toInt }.haltPast p.size)

end IdealRegisters

/-- The loop over steps of the ideal machine, which goes on until the halt flag is set or a step
faults, comes back with this result. -/
inductive IdealReturns (p : Program) :
    IdealRegisters → Option IdealFault × IdealRegisters → Prop
  | done {s : IdealRegisters} (h : s.halt = true) : IdealReturns p s (none, s)
  | fault {s : IdealRegisters} {f : IdealFault} (h : s.halt = false)
      (hf : (s.step p).1 = some f) : IdealReturns p s (s.step p)
  | pass {s : IdealRegisters} {res : Option IdealFault × IdealRegisters} (h : s.halt = false)
      (hf : (s.step p).1 = none) (rest : IdealReturns p (s.step p).2 res) : IdealReturns p s res

/-- The ideal machine, asked for calls one after the other, gives these results. -/
inductive IdealPerforms (p : Program) :
    IdealRegisters → List Call → List (Option IdealFault × IdealRegisters) → Prop
  | nil {s : IdealRegisters} : IdealPerforms p s [] []
  | step {s : IdealRegisters} {cs : List Call} {ys : List (Option IdealFault × IdealRegisters)}
      (rest : IdealPerforms p (s.step p).2 cs ys) :
      IdealPerforms p s (.step :: cs) (s.step p :: ys)
  | run {s : IdealRegisters} {res : Option IdealFault × IdealRegisters} {cs : List Call}
      {ys : List (Option IdealFault × IdealRegisters)} (h : IdealReturns p s res)
      (rest : IdealPerforms p res.2 cs ys) : IdealPerforms p s (.run :: cs) (res :: ys)

/-! ## Words for integers -/

/-- The registers show the integers: the address and the flag as they are, the accumulator up to
wrap-around. -/
structure Registers.Represents (r : Registers) (s : IdealRegisters) : Prop where
  acc_eq : r.acc.toInt = s.acc.bmod (2 ^ 64)
  pc_eq : (r.pc.toNat : ℤ) = s.pc
  halt_eq : r.halt = s.halt

/-- The numbers that a fault tells of. -/
def JumpFault.ideal (f : JumpFault) : IdealFault :=
  ⟨f.pc.toNat, f.offset.toInt⟩

/-- A result shows that of the ideal machine: the same fault or none, and registers that represent
the ideal ones. -/
structure ResultRepresents (x : Option JumpFault × Registers)
    (y : Option IdealFault × IdealRegisters) : Prop where
  fault_eq : x.1.map JumpFault.ideal = y.1
  regs : x.2.Represents y.2

variable {p : Program} {r : Registers} {s : IdealRegisters} {n : ℕ} {o : Outcome}

lemma ResultRepresents.fault?_eq_none_iff {x : Option JumpFault × Registers}
    {y : Option IdealFault × IdealRegisters} (h : ResultRepresents x y) :
    x.1 = none ↔ y.1 = none := by
  rw [← h.fault_eq, Option.map_eq_none_iff]

namespace Registers.Represents

lemma fetch? (h : r.Represents s) (p : Program) : s.fetch? p = p.get? r.pc := by
  rw [IdealRegisters.fetch?, ← h.pc_eq, if_pos (Int.natCast_nonneg _), Int.toNat_natCast]
  rfl

/-- The wrapping sum is the residue of the sum of integers. -/
lemma toInt_acc_add (h : r.Represents s) (d : Int64) :
    (r.acc + d).toInt = (s.acc + d.toInt).bmod (2 ^ 64) := by
  rw [Int64.toInt_add, h.acc_eq, Int.bmod_add_bmod]

/-- A step that moves on represents a move of the ideal machine to the same address. -/
lemma result_step_of_next? (h : r.Represents s) {pc : UInt64} {target : ℤ}
    (hnext : p.next? r.pc = some pc) (hpc : (pc.toNat : ℤ) = target) :
    ResultRepresents (r.step p).result
      (none, IdealRegisters.haltPast ⟨s.acc + (p.deltaAt r.pc).toInt, target, s.halt⟩ p.size) := by
  rw [Registers.result_step_of_next? hnext]
  refine ⟨rfl, h.toInt_acc_add _, hpc, ?_⟩
  simp only [IdealRegisters.haltPast, ← hpc, h.halt_eq, Nat.cast_le]

/-- A step in words represents a step of the ideal machine. -/
lemma step (h : r.Represents s) (hp : p.Addressable) :
    ResultRepresents (r.step p).result (s.step p) := by
  unfold IdealRegisters.step
  rw [h.fetch? p]
  rcases hget : p.get? r.pc with _ | ins
  · rw [Registers.result_step_of_size_le (Program.get?_eq_none_iff.1 hget)]
    exact ⟨rfl, h.acc_eq, h.pc_eq, rfl⟩
  have hpc := Program.lt_size_of_get? hget
  have hsucc : ((r.pc + 1).toNat : ℤ) = s.pc + 1 := by
    rw [hp.toNat_add_one hpc, ← h.pc_eq, Nat.cast_succ]
  cases ins with
  | nop =>
    have hnext := Program.next?_of_not_jmp hpc (by simp [hget])
    have hdelta : p.deltaAt r.pc = 0 := by simp [Program.deltaAt, hget]
    simpa [hdelta] using h.result_step_of_next? hnext hsucc
  | acc delta =>
    have hnext := Program.next?_of_not_jmp hpc (by simp [hget])
    have hdelta : p.deltaAt r.pc = delta := by simp [Program.deltaAt, hget]
    simpa [hdelta] using h.result_step_of_next? hnext hsucc
  | jmp offset =>
    by_cases hneg : s.pc + offset.toInt < 0
    · -- the target is negative for both, and both stay where they are
      have htarget := (hp.jumpTarget_eq_none_iff hpc).2 (by rwa [h.pc_eq])
      rw [Registers.result_step_of_jumpTarget_eq_none hget htarget]
      simp only [if_pos hneg]
      exact ⟨by simp [JumpFault.ideal, h.pc_eq], h⟩
    · rcases htarget : jumpTarget r.pc offset with _ | pc
      · rw [hp.jumpTarget_eq_none_iff hpc, h.pc_eq] at htarget
        exact absurd htarget hneg
      · have hnext := (Program.next?_of_jmp hget).trans htarget
        rw [hp.jumpTarget_eq_some_iff hpc, h.pc_eq] at htarget
        simp only [if_neg hneg]
        simpa [Program.deltaAt_of_jmp hget] using h.result_step_of_next? hnext htarget.symm

/-! ## Loops -/

/-- Where the loop over steps in words comes back, the ideal one does. -/
lemma exists_idealReturns (h : r.Represents s) (hp : p.Addressable)
    (hloop : Loop (·.step p) n r o) :
    ∃ res, IdealReturns p s res ∧ ResultRepresents o.result res := by
  induction hloop generalizing s with
  | done hr => exact ⟨_, .done (h.halt_eq ▸ hr), rfl, h⟩
  | @fault r f hr hf =>
    have hstep := h.step hp
    have hfault : (s.step p).1 = some f.ideal := by
      rw [← hstep.fault_eq, show (r.step p).result.1 = some f from hf, Option.map_some]
    exact ⟨_, .fault (h.halt_eq ▸ hr) hfault, hstep⟩
  | @pass n r o hr hf _ ih =>
    have hstep := h.step hp
    obtain ⟨res, hres, hrep⟩ := ih hstep.regs
    exact ⟨res, .pass (h.halt_eq ▸ hr) (hstep.fault?_eq_none_iff.1 hf) hres, hrep⟩

/-- Where the ideal loop comes back, the one in words does. -/
lemma exists_returns {res : Option IdealFault × IdealRegisters} (h : r.Represents s)
    (hp : p.Addressable) (hres : IdealReturns p s res) :
    ∃ x, Returns (·.step p) r x ∧ ResultRepresents x res := by
  induction hres generalizing r with
  | done hs => exact ⟨_, ⟨0, _, .done (h.halt_eq ▸ hs), rfl⟩, rfl, h⟩
  | @fault s f hs hf =>
    have hstep := h.step hp
    rcases hfault : (r.step p).fault? with _ | f'
    · rw [hstep.fault?_eq_none_iff.1 hfault] at hf
      cases hf
    · exact ⟨_, ⟨1, _, .fault (h.halt_eq ▸ hs) hfault, rfl⟩, hstep⟩
  | @pass s res hs hf _ ih =>
    have hstep := h.step hp
    obtain ⟨_, ⟨n, o, hloop, rfl⟩, hrep⟩ := ih hstep.regs
    exact ⟨_, ⟨n + 1, _, .pass (h.halt_eq ▸ hs) (hstep.fault?_eq_none_iff.2 hf) hloop, rfl⟩, hrep⟩

end Registers.Represents

/-! ## Calls -/

namespace Machine

variable {m : Machine} {cs : List Call}

/-- Where calls of a machine return, the ideal machine performs them with results that the
machine's represent. -/
lemma exists_idealPerforms (hp : m.program.Addressable) (h : m.regs.Represents s)
    {xs : List (Option JumpFault × Registers)} (hxs : m.results? cs = some xs) :
    ∃ ys, IdealPerforms m.program s cs ys ∧ List.Forall₂ ResultRepresents xs ys := by
  induction cs generalizing m s xs with
  | nil =>
    cases hxs
    exact ⟨[], .nil, .nil⟩
  | cons c cs ih =>
    obtain ⟨o, hcall, hrest⟩ := Option.bind_eq_some_iff.1 hxs
    obtain ⟨xs', hxs', rfl⟩ := Option.map_eq_some_iff.1 hrest
    cases c with
    | step =>
      obtain rfl : m.step = o := Option.some.inj hcall
      have hstep : ResultRepresents m.step.result (s.step m.program) := h.step hp
      obtain ⟨ys, hys, hrep⟩ := ih (m := m.withRegs m.step.regs) hp hstep.regs hxs'
      exact ⟨_, .step hys, .cons hstep hrep⟩
    | run =>
      obtain ⟨n, o', hloop, hresult⟩ := (exists_run?_iff_returns_stepFrom hp).1 ⟨o, hcall, rfl⟩
      obtain ⟨res, hres, hrun⟩ := h.exists_idealReturns hp hloop
      rw [hresult] at hrun
      obtain ⟨ys, hys, hrep⟩ := ih (m := m.withRegs o.regs) hp hrun.regs hxs'
      exact ⟨_, .run hres hys, .cons hrun hrep⟩

/-- Where the ideal machine performs calls, they return on the machine. -/
lemma exists_results? (hp : m.program.Addressable) (h : m.regs.Represents s)
    {ys : List (Option IdealFault × IdealRegisters)} (hys : IdealPerforms m.program s cs ys) :
    ∃ xs, m.results? cs = some xs ∧ List.Forall₂ ResultRepresents xs ys := by
  induction cs generalizing m s ys with
  | nil =>
    cases hys
    exact ⟨[], rfl, .nil⟩
  | cons c cs ih =>
    cases hys with
    | step hrest =>
      have hstep : ResultRepresents m.step.result (s.step m.program) := h.step hp
      obtain ⟨xs, hxs, hrep⟩ := ih (m := m.withRegs m.step.regs) hp hstep.regs hrest
      exact ⟨_, by simp [results?, call?, hxs], .cons hstep hrep⟩
    | run hreturns hrest =>
      obtain ⟨x, hx, hrun⟩ := h.exists_returns hp hreturns
      obtain ⟨o, hcall, rfl⟩ := (exists_run?_iff_returns_stepFrom hp).2 hx
      obtain ⟨xs, hxs, hrep⟩ := ih (m := m.withRegs o.regs) hp hrun.regs hrest
      exact ⟨_, by simp [results?, call?, hcall, hxs], .cons hrun hrep⟩

lemma represents_ofProgram (p : Program) (seed : Int64) :
    (ofProgram p seed).regs.Represents (.fresh p seed.toInt) :=
  ⟨seed.toInt_bmod.symm, rfl, rfl⟩

/-- **Execution in words refines execution over the integers, and nothing overflows.**  With every
addition, subtraction and index checked, the table is built, a step is made from any registers
whatsoever, and a block of the table is executed from any registers, with no check that fails.  Any
calls made of a fresh machine return exactly when the ideal machine performs them, and then each has
the fault of the ideal machine or none, its address and halt flag, and for an accumulator the
residue of the ideal one. -/
theorem execution_refines_integers {p : Program} (hp : p.size < 2 ^ 59) :
    Checked.blockTable p = .ok p.blockTable ∧
      (∀ r, Checked.step r p = .ok (r.step p)) ∧
      (∀ b ∈ p.blockTable.blocks, ∀ r, Checked.execute b r = .ok (b.execute r)) ∧
      ∀ (seed : Int64) (cs : List Call),
        (∀ xs, (ofProgram p seed).results? cs = some xs →
          ∃ ys, IdealPerforms p (.fresh p seed.toInt) cs ys ∧
            List.Forall₂ ResultRepresents xs ys) ∧
        ∀ ys, IdealPerforms p (.fresh p seed.toInt) cs ys →
          ∃ xs, (ofProgram p seed).results? cs = some xs ∧
            List.Forall₂ ResultRepresents xs ys := by
  have haddr := Program.addressable_of_size_lt hp
  refine ⟨Checked.blockTable_eq haddr, Checked.step_eq haddr, ?_, ?_⟩
  · intro b hb
    exact Checked.execute_eq haddr (Program.mem_blocks_blockTable_iff.1 hb)
  · intro seed cs
    have hrep := represents_ofProgram p seed
    refine ⟨?_, ?_⟩
    · intro xs hxs
      exact exists_idealPerforms haddr hrep hxs
    · intro ys hys
      exact exists_results? haddr hrep hys

/-- A step, then a run that wraps around and faults: the ideal accumulator has left the signed
range, and both machines stop at the same jump. -/
theorem execution_refines_integers_wrap_around :
    (ofProgram ⟨#[.acc Int64.maxValue, .acc 1, .jmp (-3)]⟩ 0).results? [.step, .run] =
        some [(none, ⟨Int64.maxValue, 1, false⟩), (some ⟨2, -3⟩, ⟨Int64.minValue, 2, false⟩)] ∧
      ∃ ys, IdealPerforms ⟨#[.acc Int64.maxValue, .acc 1, .jmp (-3)]⟩
          (.fresh ⟨#[.acc Int64.maxValue, .acc 1, .jmp (-3)]⟩ 0) [.step, .run] ys ∧
        List.Forall₂ ResultRepresents
          [(none, ⟨Int64.maxValue, 1, false⟩), (some ⟨2, -3⟩, ⟨Int64.minValue, 2, false⟩)] ys := by
  have hresults :
      (ofProgram ⟨#[.acc Int64.maxValue, .acc 1, .jmp (-3)]⟩ 0).results? [.step, .run] =
        some [(none, ⟨Int64.maxValue, 1, false⟩), (some ⟨2, -3⟩, ⟨Int64.minValue, 2, false⟩)] := by
    decide
  exact ⟨hresults, ((execution_refines_integers (by decide)).2.2.2 0 _).1 _ hresults⟩

end Machine
end AccumulatorMachine
