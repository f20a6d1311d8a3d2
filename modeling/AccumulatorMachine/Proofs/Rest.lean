import AccumulatorMachine.Proofs.Noninterference

/-!
# What has ended stays ended

A run that ends with a fault has made all additions up to the faulting jump and leaves the address
on it, with the halt flag clear.  Asking again starts from there, by a block if the jump happens to
be a leader and by a single step if not, and must neither get any further nor add anything twice.

Both follow from where the registers are.  `Registers.StuckAt` says that they stand at a jump to
before the start, and every loop over single steps that ends with a fault ends there
(`Loop.stuckAt`).  From such registers one more step has the same fault and changes nothing, so the
loop over single steps does as well, and by the agreement of runs with single steps it does not
matter which way a run takes.  A machine is at rest if every call comes back like that.  Then calls
made one after the other all do (`AtRest.results?_eq`).  A halted machine is at rest too, without a
fault.
-/

namespace AccumulatorMachine

/-! ## Stuck at a jump -/

/-- The registers stand at the jump to before the start that a fault tells of. -/
structure Registers.StuckAt (p : Program) (f : JumpFault) (r : Registers) : Prop where
  halt_eq : r.halt = false
  pc_eq : r.pc = f.pc
  get?_eq : p.get? f.pc = some (.jmp f.offset)
  jumpTarget_eq : jumpTarget f.pc f.offset = none

variable {p : Program} {r r' : Registers} {f : JumpFault} {o : Outcome} {n : ℕ}

/-- A step that faults leaves the registers as they were, at the jump it tells of. -/
lemma Registers.of_fault_step (h : (r.step p).fault? = some f) :
    (r.step p).result = (some f, r) ∧ r.pc = f.pc ∧ p.get? f.pc = some (.jmp f.offset) ∧
      jumpTarget f.pc f.offset = none := by
  rcases r.step_cases p with ⟨pc, -, hstep⟩ | ⟨offset, hget, htarget, hstep⟩
  · rw [Outcome.fault?_of_result hstep] at h
    cases h
  · obtain rfl : f = ⟨r.pc, offset⟩ := by
      rw [Outcome.fault?_of_result hstep] at h
      exact (Option.some.inj h).symm
    exact ⟨hstep, rfl, hget, htarget⟩

lemma Registers.StuckAt.result_step (h : r.StuckAt p f) : (r.step p).result = (some f, r) := by
  have hstep := Registers.result_step_of_jumpTarget_eq_none (p := p) (r := r)
    (by rw [h.pc_eq, h.get?_eq]) (by rw [h.pc_eq, h.jumpTarget_eq])
  rwa [h.pc_eq] at hstep

/-- A loop over single steps that faults ends at the faulting jump. -/
lemma Loop.stuckAt (h : Loop (·.step p) n r o) (hf : o.fault? = some f) :
    o.regs.StuckAt p f := by
  induction h with
  | done => cases hf
  | fault hr _ =>
    obtain ⟨hresult, hpc, hget, htarget⟩ := Registers.of_fault_step hf
    rw [Outcome.regs_of_result hresult]
    exact ⟨hr, hpc, hget, htarget⟩
  | pass _ _ _ ih => exact ih hf

lemma Returns.stuckAt (h : Returns (·.step p) r (some f, r')) : r'.StuckAt p f := by
  obtain ⟨n, o, hloop, hresult⟩ := h
  obtain ⟨hfault, rfl⟩ := Outcome.result_eq_iff.1 hresult
  exact hloop.stuckAt hfault

/-- A loop that ends without a fault ends with the halt flag set. -/
lemma Returns.halt {body : Registers → Outcome} (h : Returns body r (none, r')) :
    r'.halt = true := by
  obtain ⟨n, o, hloop, hresult⟩ := h
  obtain ⟨hfault, rfl⟩ := Outcome.result_eq_iff.1 hresult
  obtain ⟨-, hsettled, -⟩ := hloop.spec
  simpa [Outcome.settled, hfault] using hsettled

/-- From registers that are stuck the loop over single steps comes back at once. -/
lemma Registers.StuckAt.returns (h : r.StuckAt p f) : Returns (·.step p) r (some f, r) :=
  ⟨1, _, .fault h.halt_eq (Outcome.fault?_of_result h.result_step), h.result_step⟩

/-! ## Machines at rest -/

namespace Machine

variable {m : Machine} {fault? : Option JumpFault}

/-- Every call comes back, with this fault or with none, and changes nothing. -/
def AtRest (m : Machine) (fault? : Option JumpFault) : Prop :=
  ∀ c, ∃ o, m.call? c = some o ∧ o.result = (fault?, m.regs)

/-- Calls made of a machine at rest all have the same result. -/
lemma AtRest.results?_eq (h : m.AtRest fault?) (cs : List Call) :
    m.results? cs = some (List.replicate cs.length (fault?, m.regs)) := by
  induction cs with
  | nil => rfl
  | cons c cs ih =>
    obtain ⟨o, hcall, hresult⟩ := h c
    have hsame : m.withRegs m.regs = m := rfl
    rw [results?_cons, hcall, Option.map_some, Option.bind_some, hresult, hsame, ih,
      Option.map_some, List.length_cons, List.replicate_succ]

lemma atRest_of_stuckAt (hp : m.program.Addressable) (h : m.regs.StuckAt m.program f) :
    m.AtRest (some f) := by
  intro c
  cases c with
  | step => exact ⟨m.step, rfl, h.result_step⟩
  | run => exact (exists_run?_iff_returns_stepFrom hp).2 h.returns

lemma atRest_of_halt (hp : m.program.Addressable) (hplaced : m.regs.Placed m.program)
    (h : m.regs.halt = true) : m.AtRest none :=
  call?_of_halt hp hplaced h

/-- **Failing is repeatable and applies no work twice.**  A step that faults changes no register.  A
run that faults leaves the machine at the jump that its fault tells of, not halted, and from then on
every step and every run has that fault again and changes nothing.  After a run without a fault
every step and every run succeeds and changes nothing. -/
theorem settled_machine_at_rest {p : Program} (hp : p.size < 2 ^ 59) {seed : Int64}
    (hm : (ofProgram p seed).Reaches m) :
    (∀ f, m.step.fault? = some f → m.step.regs = m.regs) ∧
      (∀ o f, m.run? = some o → o.fault? = some f →
        o.regs.halt = false ∧ o.regs.pc = f.pc ∧ p.get? o.regs.pc = some (.jmp f.offset) ∧
          ∀ cs, (m.withRegs o.regs).results? cs =
            some (List.replicate cs.length (some f, o.regs))) ∧
      ∀ o, m.run? = some o → o.fault? = none →
        ∀ cs, (m.withRegs o.regs).results? cs =
          some (List.replicate cs.length (none, o.regs)) := by
  have haddr := Program.addressable_of_size_lt hp
  have hplaced := hm.placed haddr (placed_ofProgram p seed)
  obtain rfl : m.program = p := hm.program_eq
  refine ⟨?_, ?_, ?_⟩
  · intro f hf
    exact Outcome.regs_of_result (Registers.of_fault_step hf).1
  · intro o f hrun hf
    have hreturns := (exists_run?_iff_returns_stepFrom haddr).1
      ⟨o, hrun, Outcome.result_eq_iff.2 ⟨hf, rfl⟩⟩
    have hstuck : o.regs.StuckAt m.program f := hreturns.stuckAt
    refine ⟨hstuck.halt_eq, hstuck.pc_eq, hstuck.pc_eq ▸ hstuck.get?_eq, ?_⟩
    exact (atRest_of_stuckAt (m := m.withRegs o.regs) haddr hstuck).results?_eq
  · intro o hrun hf
    have hreturns := (exists_run?_iff_returns_stepFrom haddr).1
      ⟨o, hrun, Outcome.result_eq_iff.2 ⟨hf, rfl⟩⟩
    have hplaced' : o.regs.Placed m.program := hplaced.of_returns haddr hreturns
    exact (atRest_of_halt (m := m.withRegs o.regs) haddr hplaced' hreturns.halt).results?_eq

/-- A fault at a jump that is not a leader, so that the next run begins with a single step. -/
theorem settled_machine_at_rest_inside_block :
    ∃ o, (ofProgram ⟨#[.acc 3, .nop, .acc (-1), .jmp (-4)]⟩ 10).run? = some o ∧
      o.result = (some ⟨3, -4⟩, ⟨12, 3, false⟩) ∧
      ∀ cs, ((ofProgram ⟨#[.acc 3, .nop, .acc (-1), .jmp (-4)]⟩ 10).withRegs o.regs).results? cs =
        some (List.replicate cs.length (some ⟨3, -4⟩, ⟨12, 3, false⟩)) := by
  refine ⟨_, rfl, by decide, ?_⟩
  exact ((settled_machine_at_rest (p := ⟨#[.acc 3, .nop, .acc (-1), .jmp (-4)]⟩) (by decide)
    (Relation.ReflTransGen.refl (a := ofProgram _ 10))).2.1 _ ⟨3, -4⟩ rfl (by decide)).2.2.2

end Machine
end AccumulatorMachine
