import AccumulatorMachine.Proofs.Exits
import AccumulatorMachine.Proofs.Rest

/-!
# Exits predict how a run ends

Every way in which a run can end stands in the block table before anything is executed.  This is
clear of a run that goes from block to block and less so of one that starts in the middle of a
block, because such a run begins with single steps and may end before it comes to a leader.

The end of a run is the work of one instruction: a jump to before the start, or an instruction that
leads out of the program (`Returns.exists_next?_of_halt`).  Either kind can only stand at the end of
its block.  A jump is never followed by an instruction of the same block, and an instruction other
than a jump leads out only if it is the last of the program.  So the exit of that block was resolved
from the very instruction that ends the run (`Program.exists_exitAfter`).
-/

namespace AccumulatorMachine

/-! ## The instruction that ends a block -/

namespace Program

variable {p : Program} {pc pc' : UInt64}

/-- A block ends at every jump and at the end of the program. -/
lemma exists_exitAfter (hpc : pc.toNat < p.size)
    (h : (∃ offset, p.get? pc = some (.jmp offset)) ∨ pc.toNat + 1 = p.size) :
    ∃ b ∈ p.blockTable.blocks, b.exit = p.exitAfter pc.toNat := by
  obtain ⟨start, stop, hblock, hmem, hle, hlt⟩ := exists_isBlock_of_lt_size hpc
  have hstop := hblock.stop_le
  have hlast : pc.toNat = stop - 1 := by
    by_contra hne
    rcases h with ⟨offset, hjmp⟩ | hend
    · exact hblock.not_jmp hle (by omega) offset hjmp
    · omega
  exact ⟨_, mem_blocks_blockTable_iff.2 hmem, by rw [hlast]; rfl⟩

/-- A jump to before the start is the fault exit of some block. -/
lemma Addressable.exists_fault_exit (hp : p.Addressable) {offset : Int32}
    (hget : p.get? pc = some (.jmp offset)) (htarget : jumpTarget pc offset = none) :
    ∃ b ∈ p.blockTable.blocks, b.exit = .fault pc offset := by
  have hpc := lt_size_of_get? hget
  obtain ⟨b, hb, hexit⟩ := exists_exitAfter hpc (Or.inl ⟨offset, hget⟩)
  refine ⟨b, hb, ?_⟩
  rw [hexit, hp.exitAfter_eq_fault_iff hpc, UInt64.ofNat_toNat]
  exact ⟨rfl, hget, (hp.jumpTarget_eq_none_iff hpc).1 htarget⟩

/-- An instruction that leads out of the program is the halt exit of some block. -/
lemma Addressable.exists_halt_exit (hp : p.Addressable) (hpc : pc.toNat < p.size)
    (hnext : p.next? pc = some pc') (hout : p.size ≤ pc'.toNat) :
    ∃ b ∈ p.blockTable.blocks, b.exit = .halt pc' := by
  have hlast : (∃ offset, p.get? pc = some (.jmp offset)) ∨ pc.toNat + 1 = p.size := by
    by_cases hjmp : ∃ offset, p.get? pc = some (.jmp offset)
    · exact Or.inl hjmp
    · push Not at hjmp
      rw [next?_of_not_jmp hpc hjmp, Option.some.injEq] at hnext
      rw [← hnext, hp.toNat_add_one hpc] at hout
      exact Or.inr (by omega)
  obtain ⟨b, hb, hexit⟩ := exists_exitAfter hpc hlast
  refine ⟨b, hb, ?_⟩
  rw [hexit, hp.exitAfter_eq_halt_iff hpc, UInt64.ofNat_toNat]
  exact ⟨hnext, hout⟩

end Program

/-! ## The instruction that ends a run -/

/-- A loop over single steps that halts the machine ends with an instruction that leads out. -/
lemma Returns.exists_next?_of_halt {p : Program} {r r' : Registers}
    (h : Returns (·.step p) r (none, r')) (hpc : r.pc.toNat < p.size) (hr : r.halt = false) :
    ∃ pc, pc.toNat < p.size ∧ p.next? pc = some r'.pc ∧ p.size ≤ r'.pc.toNat := by
  obtain ⟨n, o, hloop, hresult⟩ := h
  obtain ⟨hf, rfl⟩ := Outcome.result_eq_iff.1 hresult
  obtain ⟨rfl, hsettled, hbefore⟩ := hloop.spec
  rcases n with _ | n
  · rw [settled_calls_zero, hr] at hsettled
    cases hsettled
  -- the state before the last step is inside the program, and the step halts the machine
  have hbusy := hbefore n n.lt_succ_self
  obtain ⟨hfault, hhalt⟩ := Outcome.settled_eq_false_iff.1 hbusy
  have hlast := calls_succ_last hfault
  rcases (calls (·.step p) n r).regs.step_cases p with ⟨pc, hnext, hstep⟩ | ⟨offset, -, -, hstep⟩
  · have hregs := Outcome.regs_of_result (hlast.trans hstep)
    have hout : p.size ≤ pc.toNat := by
      simpa [Outcome.settled, hf, hregs, hhalt] using hsettled
    rw [hregs]
    exact ⟨_, pc_lt_size_of_not_settled hpc hbusy, hnext, hout⟩
  · rw [Outcome.fault?_of_result (hlast.trans hstep)] at hf
    cases hf

namespace Machine

variable {m : Machine} {o : Outcome} {f : JumpFault}

lemma exists_fault_exit_of_step (hp : m.program.Addressable) (hf : m.step.fault? = some f) :
    ∃ b ∈ m.program.blockTable.blocks, b.exit = .fault f.pc f.offset := by
  obtain ⟨-, -, hget, htarget⟩ := Registers.of_fault_step hf
  exact hp.exists_fault_exit hget htarget

lemma exists_fault_exit_of_run? (hp : m.program.Addressable) (hrun : m.run? = some o)
    (hf : o.fault? = some f) :
    ∃ b ∈ m.program.blockTable.blocks, b.exit = .fault f.pc f.offset := by
  have hstuck : o.regs.StuckAt m.program f := (returns_of_run? hp hrun hf).stuckAt
  exact hp.exists_fault_exit hstuck.get?_eq hstuck.jumpTarget_eq

lemma exists_halt_exit_of_run? (hp : m.program.Addressable) (hplaced : m.regs.Placed m.program)
    (hhalt : m.regs.halt = false) (hrun : m.run? = some o) (hf : o.fault? = none) :
    ∃ b ∈ m.program.blockTable.blocks, b.exit = .halt o.regs.pc := by
  obtain ⟨pc, hpc, hnext, hout⟩ :=
    (returns_of_run? hp hrun hf).exists_next?_of_halt (hplaced.pc_lt_size hhalt) hhalt
  exact hp.exists_halt_exit hpc hnext hout

/-- **The exits of the blocks predict how every run ends.**  A run of a machine that has not halted
ends at the address of a halt exit of the table, or with the site and the offset of a fault exit,
also if it starts inside a block.  So no step and no run ever faults if the table has no fault exit,
and if it has no halt exit, no run of a machine that has not halted ends without a fault. -/
theorem exits_predict_outcome {p : Program} (hp : p.size < 2 ^ 59) {seed : Int64}
    (hm : (ofProgram p seed).Reaches m) :
    (m.regs.halt = false → ∀ o, m.run? = some o →
      (o.fault? = none → ∃ b ∈ p.blockTable.blocks, b.exit = .halt o.regs.pc) ∧
        ∀ f, o.fault? = some f → ∃ b ∈ p.blockTable.blocks, b.exit = .fault f.pc f.offset) ∧
      ((∀ b ∈ p.blockTable.blocks, ∀ site offset, b.exit ≠ .fault site offset) →
        m.step.fault? = none ∧ ∀ o, m.run? = some o → o.fault? = none) ∧
      ((∀ b ∈ p.blockTable.blocks, ∀ pc, b.exit ≠ .halt pc) → m.regs.halt = false →
        ∀ o, m.run? = some o → o.fault? ≠ none) := by
  have haddr := Program.addressable_of_size_lt hp
  have hplaced := hm.placed haddr (placed_ofProgram p seed)
  obtain rfl : m.program = p := hm.program_eq
  refine ⟨?_, ?_, ?_⟩
  · intro hhalt o hrun
    refine ⟨exists_halt_exit_of_run? haddr hplaced hhalt hrun, ?_⟩
    intro f hf
    exact exists_fault_exit_of_run? haddr hrun hf
  · intro hsafe
    rw [Option.eq_none_iff_forall_ne_some]
    refine ⟨?_, ?_⟩
    · intro f hf
      obtain ⟨b, hb, hexit⟩ := exists_fault_exit_of_step haddr hf
      exact hsafe b hb _ _ hexit
    · intro o hrun
      rw [Option.eq_none_iff_forall_ne_some]
      intro f hf
      obtain ⟨b, hb, hexit⟩ := exists_fault_exit_of_run? haddr hrun hf
      exact hsafe b hb _ _ hexit
  · intro hopen hhalt o hrun hf
    obtain ⟨b, hb, hexit⟩ := exists_halt_exit_of_run? haddr hplaced hhalt hrun hf
    exact hopen b hb _ hexit

/-- A run that starts inside the only block and jumps past the end.  The table has no fault exit, so
no machine that calls lead to can fault. -/
theorem exits_predict_outcome_inside_block :
    (∃ m o, (ofProgram ⟨#[.acc 1, .acc 2, .jmp 10]⟩ 0).Reaches m ∧ m.regs = ⟨1, 1, false⟩ ∧
        m.run? = some o ∧ o.result = (none, ⟨3, 12, true⟩) ∧
        ∃ b ∈ (⟨#[.acc 1, .acc 2, .jmp 10]⟩ : Program).blockTable.blocks, b.exit = .halt 12) ∧
      ∀ m, (ofProgram ⟨#[.acc 1, .acc 2, .jmp 10]⟩ 0).Reaches m → m.step.fault? = none := by
  refine ⟨?_, ?_⟩
  · have hreach : (ofProgram ⟨#[.acc 1, .acc 2, .jmp 10]⟩ 0).Reaches
        ((ofProgram ⟨#[.acc 1, .acc 2, .jmp 10]⟩ 0).withRegs ⟨1, 1, false⟩) :=
      .single ⟨.step, _, rfl, rfl⟩
    refine ⟨_, _, hreach, rfl, rfl, by decide, ?_⟩
    exact ((exits_predict_outcome (by decide) hreach).1 rfl _ rfl).1 (by decide)
  · intro m hm
    refine ((exits_predict_outcome (by decide) hm).2.1 ?_).1
    have hblocks : (⟨#[.acc 1, .acc 2, .jmp 10]⟩ : Program).blockTable.blocks =
        #[⟨0, 3, 3, .halt 12⟩] := by decide
    simp [hblocks]

end Machine
end AccumulatorMachine
