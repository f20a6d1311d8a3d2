import AccumulatorMachine.Proofs.Recurrence
import AccumulatorMachine.Proofs.Summary

/-!
# Runs agree with single steps

A run makes turns, and a turn is a whole block where one starts and a single step elsewhere.  By
the summary of blocks a turn gives the result of one or more single steps, none of which but the
last settles anything (`accelerates_turnFrom`), and that is all it takes for the loop over turns
and the loop over single steps to come back together.

`Machine.run?` is a drive with a bound, and `run?_eq_some_iff` says that the bound never cuts a run
short: a run has an outcome exactly when the loop over turns comes back, and then it is the loop's
outcome with the closing event.  The bound is enough because each turn takes at least one of the
single steps, of which a loop makes no more than there are instructions.

Nothing here asks how the registers came about.  A machine may stand in the middle of a block, or
outside its program with the halt flag clear.
-/

namespace AccumulatorMachine

/-- The outcome of a run, from that of its loop: without a fault the run says that it has ended. -/
def Outcome.concluded (o : Outcome) : Outcome :=
  match o.fault? with
  | some _ => o
  | none => { o with log := o.log ++ [.halted o.regs] }

@[simp] lemma Outcome.result_concluded (o : Outcome) : o.concluded.result = o.result := by
  unfold concluded
  split
  · rfl
  · rfl

namespace Machine

variable {m : Machine} {r : Registers} {o : Outcome} {n : ℕ}

/-! ## Turns -/

lemma result_turnFrom (m : Machine) (r : Registers) :
    (m.turnFrom r).result = (m.advance r).result := by
  rcases hf : (m.advance r).fault? with _ | f
  · simp [turnFrom, hf, Outcome.result]
  · simp [turnFrom, hf]

/-- All that a turn can be: a single step where no block starts, or a block that starts there. -/
lemma turnFrom_cases (m : Machine) (r : Registers) :
    (m.program.blockTable.blockAt r.pc = none ∧ (m.turnFrom r).result = (m.stepFrom r).result) ∨
      ∃ start stop, m.program.IsBlock start stop ∧ r.pc = UInt64.ofNat start ∧
        (m.turnFrom r).result = ((m.program.blockBetween start stop).execute r).result := by
  rw [result_turnFrom, advance, m.table_eq]
  rcases hb : m.program.blockTable.blockAt r.pc with _ | b
  · exact Or.inl ⟨rfl, rfl⟩
  · obtain ⟨hmem, hstart⟩ := Program.mem_blocks_of_blockAt hb
    obtain ⟨start, stop, hblock, rfl⟩ := Program.exists_isBlock_of_mem_blocks hmem
    exact Or.inr ⟨start, stop, hblock, hstart.symm, rfl⟩

/-- A turn gives the result of the single steps it stands for. -/
lemma accelerates_turnFrom (hp : m.program.Addressable) : Accelerates m.turnFrom m.stepFrom := by
  intro r hr
  rcases m.turnFrom_cases r with ⟨-, hturn⟩ | ⟨start, stop, hblock, hpc, hturn⟩
  · refine ⟨1, Nat.one_pos, ?_, by rw [hturn, calls_one]⟩
    intro i hi
    obtain rfl : i = 0 := by omega
    rw [settled_calls_zero, hr]
  · have hlt := hblock.lt
    refine ⟨stop - start, by omega, ?_, hturn.trans (hblock.result_execute hp hpc)⟩
    intro i hi
    exact hblock.settled_calls_step hp hpc hr (by omega)

/-- From an instruction, a run that ends makes no more turns than there are instructions. -/
lemma le_size_of_loop_turnFrom (hp : m.program.Addressable) (hr : r.pc.toNat < m.program.size)
    (h : Loop m.turnFrom n r o) : n ≤ m.program.size := by
  obtain ⟨n', o', hn, hloop, -⟩ := (accelerates_turnFrom hp).loop_slow h
  exact hn.trans (hloop.le_size hr)

lemma le_size_add_one_of_loop_turnFrom (hp : m.program.Addressable)
    (h : Loop m.turnFrom n r o) : n ≤ m.program.size + 1 := by
  by_cases hr : r.pc.toNat < m.program.size
  · exact (le_size_of_loop_turnFrom hp hr h).trans (Nat.le_succ _)
  · obtain ⟨n', o', hn, hloop, -⟩ := (accelerates_turnFrom hp).loop_slow h
    have hone := hloop.le_one (not_lt.1 hr)
    omega

/-! ## Runs -/

lemma run?_eq_ite (m : Machine) :
    m.run? =
      if (m.turnUpTo (m.program.size + 1)).settled then
        some (m.turnUpTo (m.program.size + 1)).outcome.concluded
      else none := by
  rcases hf : (m.turnUpTo (m.program.size + 1)).outcome.fault? with _ | f
  · simp only [run?, Outcome.concluded, hf]
  · simp only [run?, Outcome.concluded, hf]

/-- A run is the loop over turns, with no bound, and the closing event. -/
lemma run?_eq_some_iff (hp : m.program.Addressable) :
    m.run? = some o ↔ ∃ n o', Loop m.turnFrom n m.regs o' ∧ o'.concluded = o := by
  rw [run?_eq_ite]
  constructor
  · intro h
    split at h
    · rename_i hsettled
      obtain ⟨n, -, hloop⟩ := exists_loop_of_settled hsettled
      exact ⟨n, _, hloop, Option.some.inj h⟩
    · cases h
  · rintro ⟨n, o', hloop, rfl⟩
    have houtcome : (m.turnUpTo (m.program.size + 1)).outcome = o' :=
      hloop.outcome_drive (le_size_add_one_of_loop_turnFrom hp hloop)
    have hsettled : (m.turnUpTo (m.program.size + 1)).settled = true := by
      show (m.turnUpTo (m.program.size + 1)).outcome.settled = true
      rw [houtcome]
      exact hloop.spec.2.1
    rw [if_pos hsettled, houtcome]

lemma exists_run?_iff_returns_turnFrom (hp : m.program.Addressable)
    {res : Option JumpFault × Registers} :
    (∃ o, m.run? = some o ∧ o.result = res) ↔ Returns m.turnFrom m.regs res := by
  constructor
  · rintro ⟨o, hrun, rfl⟩
    obtain ⟨n, o', hloop, rfl⟩ := (run?_eq_some_iff hp).1 hrun
    exact ⟨n, o', hloop, by rw [Outcome.result_concluded]⟩
  · rintro ⟨n, o, hloop, rfl⟩
    exact ⟨o.concluded, (run?_eq_some_iff hp).2 ⟨n, o, hloop, rfl⟩, Outcome.result_concluded o⟩

/-- What a run comes to is what the loop over single steps comes to. -/
lemma exists_run?_iff_returns_stepFrom (hp : m.program.Addressable)
    {res : Option JumpFault × Registers} :
    (∃ o, m.run? = some o ∧ o.result = res) ↔ Returns m.stepFrom m.regs res := by
  rw [exists_run?_iff_returns_turnFrom hp]
  exact (accelerates_turnFrom hp).returns_iff

lemma returns_of_run? (hp : m.program.Addressable) {fault? : Option JumpFault}
    (hrun : m.run? = some o) (hf : o.fault? = fault?) :
    Returns m.stepFrom m.regs (fault?, o.regs) :=
  (exists_run?_iff_returns_stepFrom hp).1 ⟨o, hrun, Outcome.result_eq_iff.2 ⟨hf, rfl⟩⟩

/-- **Runs agree with single stepping.**  From any registers, a run ends with a result exactly when
the loop over single steps does, as does the loop over turns that the run is.  So a run does not
end exactly when single stepping does not. -/
theorem run?_agrees_with_single_steps {m : Machine} (hp : m.program.size < 2 ^ 59) :
    (∀ (fault? : Option JumpFault) (r : Registers),
      ((∃ o, m.run? = some o ∧ o.fault? = fault? ∧ o.regs = r) ↔
          Returns m.stepFrom m.regs (fault?, r)) ∧
        (Returns m.turnFrom m.regs (fault?, r) ↔ Returns m.stepFrom m.regs (fault?, r))) ∧
      (m.run? = none ↔ ∀ res, ¬ Returns m.stepFrom m.regs res) := by
  have haddr := Program.addressable_of_size_lt hp
  refine ⟨?_, ?_⟩
  · intro fault? r
    refine ⟨?_, (accelerates_turnFrom haddr).returns_iff⟩
    rw [← exists_run?_iff_returns_stepFrom haddr]
    simp only [Outcome.result_eq_iff]
  · constructor
    · intro hnone res hreturns
      obtain ⟨o, hrun, -⟩ := (exists_run?_iff_returns_stepFrom haddr).2 hreturns
      rw [hnone] at hrun
      cases hrun
    · intro hnever
      rcases hrun : m.run? with _ | o
      · rfl
      · exact absurd ((exists_run?_iff_returns_stepFrom haddr).1 ⟨o, hrun, rfl⟩) (hnever _)

/-- A run that starts in the middle of a block. -/
theorem run?_agrees_with_single_steps_inside_block :
    Returns
      (((ofProgram ⟨#[.acc 1, .acc 2, .acc 4, .jmp 2, .acc 100, .acc 8]⟩ 0).withRegs
        ⟨3, 2, false⟩).stepFrom)
      ⟨3, 2, false⟩ (none, ⟨15, 6, true⟩) := by
  refine ((run?_agrees_with_single_steps
    (m := (ofProgram ⟨#[.acc 1, .acc 2, .acc 4, .jmp 2, .acc 100, .acc 8]⟩ 0).withRegs
      ⟨3, 2, false⟩) (by decide)).1 none ⟨15, 6, true⟩).1.1 ?_
  exact ⟨_, rfl, by decide, by decide⟩

end Machine
end AccumulatorMachine
