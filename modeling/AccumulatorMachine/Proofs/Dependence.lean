import AccumulatorMachine.Proofs.Dichotomy
import AccumulatorMachine.Proofs.Exits

/-!
# What a run depends on

Two programs can be different and run alike, for two reasons that have little to do with each
other.

A run of a fresh machine reads its program through the block table only.  It starts at a leader,
each block that goes on leads to a leader again (`isLeader_turnFrom`), and so the single step that a
turn makes away from the leaders, the one place where a run looks at an instruction, is never made.
Programs with the same table may spread their additions differently inside the blocks; the runs
come to the same (`agreeOn_isLeader`).

Wherever it starts, a run depends on the instructions that are executed and on no others.  An
instruction that is not executed can still be a jump, and then it makes leaders, cuts the blocks
that are executed, and changes which turns are blocks and which are single steps.  None of that
shows in single steps, which look at one instruction each (`Registers.step_congr`), and a run ends
as single steps end.
-/

namespace AccumulatorMachine

/-! ## Steps and tables -/

/-- A step looks at the instruction under the address and at the size of the program. -/
lemma Registers.step_congr {p q : Program} {r : Registers} (hsize : q.size = p.size)
    (hget : q.get? r.pc = p.get? r.pc) : r.step q = r.step p := by
  simp only [step, hsize, hget]

/-- A block table has an entry for every instruction. -/
lemma Program.size_entries_blockTable (p : Program) : p.blockTable.entries.size = p.size := by
  refine List.foldlRecOn (motive := fun entries : Array (Option ℕ) => entries.size = p.size) _ _
    Array.size_replicate ?_
  intro entries hsize e _
  rw [Array.size_setIfInBounds, hsize]

namespace Machine

variable {m m' : Machine} {r : Registers}

/-- Runs whose loops come back together have the same result, or none of them has one. -/
lemma map_result_run?_congr (hp : m.program.Addressable) (hp' : m'.program.Addressable)
    (h : ∀ res, Returns m'.turnFrom m'.regs res ↔ Returns m.turnFrom m.regs res) :
    m'.run?.map Outcome.result = m.run?.map Outcome.result := by
  ext res
  simp only [Option.map_eq_some_iff, exists_run?_iff_returns_turnFrom hp,
    exists_run?_iff_returns_turnFrom hp', h]

/-! ## The table -/

lemma result_turnFrom_of_blockAt {b : Block} (h : m.table.blockAt r.pc = some b) :
    (m.turnFrom r).result = (b.execute r).result := by
  rw [result_turnFrom, advance, h]

/-- A turn that starts at a leader, and neither faults nor halts the machine, ends at a leader. -/
lemma isLeader_turnFrom (hp : m.program.Addressable) (h : m.program.IsLeader r.pc.toNat)
    (hf : (m.turnFrom r).fault? = none) (hhalt : (m.turnFrom r).regs.halt = false) :
    m.program.IsLeader (m.turnFrom r).regs.pc.toNat := by
  rcases m.turnFrom_cases r with ⟨hnone, -⟩ | ⟨start, stop, hblock, -, hturn⟩
  · obtain ⟨b, hb⟩ := hp.exists_blockAt_iff.2 h
    rw [hnone] at hb
    cases hb
  · obtain ⟨hfault, hregs⟩ := Outcome.result_eq_iff.1 hturn
    rw [hfault] at hf
    rw [hregs] at hhalt ⊢
    exact hblock.isLeader_execute hp hf hhalt

/-- At the leaders, machines with the same table make the same turns. -/
lemma agreeOn_isLeader (hp : m.program.Addressable) (htable : m'.table = m.table) :
    AgreeOn (fun r => r.halt = false → m.program.IsLeader r.pc.toNat) m.turnFrom m'.turnFrom := by
  intro r hleader hr
  refine ⟨?_, isLeader_turnFrom hp (hleader hr)⟩
  obtain ⟨b, hb⟩ := hp.exists_blockAt_iff.2 (hleader hr)
  rw [← m.table_eq] at hb
  rw [result_turnFrom_of_blockAt hb, result_turnFrom_of_blockAt (htable ▸ hb)]

lemma isLeader_ofProgram {p : Program} {seed : Int64} (h : (ofProgram p seed).regs.halt = false) :
    p.IsLeader (ofProgram p seed).regs.pc.toNat := by
  have hsize : p.size ≠ 0 := by
    simpa [ofProgram, Program.isEmpty_eq_decide] using h
  exact Program.isLeader_zero (Nat.pos_of_ne_zero hsize)

/-- **A fresh run depends on the block table only.**  Programs with the same table have the same
size.  Whatever the seed, their runs either both come back, with the same fault or none and the same
registers, or both do not. -/
theorem run?_depends_on_blockTable {p q : Program} (hp : p.size < 2 ^ 59)
    (htable : q.blockTable = p.blockTable) :
    q.size = p.size ∧ ∀ seed,
      (ofProgram q seed).run?.map Outcome.result = (ofProgram p seed).run?.map Outcome.result ∧
      ∀ res, Returns (ofProgram q seed).turnFrom (ofProgram q seed).regs res ↔
        Returns (ofProgram p seed).turnFrom (ofProgram p seed).regs res := by
  have haddr := Program.addressable_of_size_lt hp
  have hsize : q.size = p.size := by
    rw [← p.size_entries_blockTable, ← q.size_entries_blockTable, htable]
  have haddr' : q.Addressable := Program.addressable_of_size_lt (by rwa [hsize])
  refine ⟨hsize, ?_⟩
  intro seed
  have hregs : (ofProgram q seed).regs = (ofProgram p seed).regs := by
    simp only [ofProgram, Program.isEmpty_eq_decide, hsize]
  have hreturns : ∀ res, Returns (ofProgram q seed).turnFrom (ofProgram q seed).regs res ↔
      Returns (ofProgram p seed).turnFrom (ofProgram p seed).regs res := by
    intro res
    rw [hregs]
    exact (agreeOn_isLeader (m := ofProgram p seed) haddr htable).returns_iff isLeader_ofProgram
  exact ⟨map_result_run?_congr (m := ofProgram p seed) haddr haddr' hreturns, hreturns⟩

/-- The same additions, spread differently over the first and the last of three blocks. -/
theorem run?_depends_on_blockTable_respread :
    (⟨#[.acc 1, .acc 2, .jmp 2, .nop, .acc 5, .nop]⟩ : Program) ≠
        ⟨#[.nop, .acc 3, .jmp 2, .nop, .nop, .acc 5]⟩ ∧
      (ofProgram ⟨#[.acc 1, .acc 2, .jmp 2, .nop, .acc 5, .nop]⟩ 7).run?.map Outcome.result =
        some (none, ⟨15, 6, true⟩) ∧
      (ofProgram ⟨#[.nop, .acc 3, .jmp 2, .nop, .nop, .acc 5]⟩ 7).run?.map Outcome.result =
        (ofProgram ⟨#[.acc 1, .acc 2, .jmp 2, .nop, .acc 5, .nop]⟩ 7).run?.map Outcome.result := by
  refine ⟨by decide, by decide, ?_⟩
  exact ((run?_depends_on_blockTable (by decide) (by decide +kernel)).2 7).1

/-! ## The instructions that are executed -/

/-- Where single steps lead, machines that hold the same instructions there make the same steps. -/
lemma agreeOn_executed (hsize : m'.program.size = m.program.size)
    (hsame : ∀ n pc, m.ExecutesAt n pc → m'.program.get? pc = m.program.get? pc) :
    AgreeOn (fun r => ∃ n, (calls m.stepFrom n m.regs).result = (none, r))
      m.stepFrom m'.stepFrom := by
  rintro r ⟨n, hn⟩ hr
  obtain ⟨hfault, hregs⟩ := Outcome.result_eq_iff.1 hn
  refine ⟨congrArg Outcome.result (Registers.step_congr hsize ?_), ?_⟩
  · by_cases hpc : r.pc.toNat < m.program.size
    · have hbusy : (calls m.stepFrom n m.regs).settled = false :=
        Outcome.settled_eq_false_iff.2 ⟨hfault, by rw [hregs, hr]⟩
      exact hsame n r.pc ⟨hbusy, by rw [hregs], hpc⟩
    · -- outside the program there is no instruction in either of them
      rw [Program.get?_eq_none_iff.2 (not_lt.1 hpc),
        Program.get?_eq_none_iff.2 (by rw [hsize]; exact not_lt.1 hpc)]
  · intro hf
    refine ⟨n + 1, ?_⟩
    rw [calls_succ_last hfault, hregs]
    exact Outcome.result_eq_iff.2 ⟨hf, rfl⟩

/-- **Instructions that are not executed do not matter to a run.**  Take two machines with the same
registers, whatever these are, and with programs of one size that have the same instruction wherever
single steps of the first machine execute one, a jump that faults included.  Their runs either both
come back, with the same fault or none and the same registers, or both do not. -/
theorem run?_depends_on_executed {m m' : Machine} (hp : m.program.size < 2 ^ 59)
    (hsize : m'.program.size = m.program.size) (hregs : m'.regs = m.regs)
    (hsame : ∀ n pc, m.ExecutesAt n pc → m'.program.get? pc = m.program.get? pc) :
    m'.run?.map Outcome.result = m.run?.map Outcome.result ∧
      ∀ res, Returns m'.turnFrom m'.regs res ↔ Returns m.turnFrom m.regs res := by
  have haddr := Program.addressable_of_size_lt hp
  have haddr' : m'.program.Addressable := Program.addressable_of_size_lt (by rwa [hsize])
  have hreturns : ∀ res, Returns m'.turnFrom m'.regs res ↔ Returns m.turnFrom m.regs res := by
    intro res
    calc Returns m'.turnFrom m'.regs res
        ↔ Returns m'.stepFrom m.regs res := by
          rw [(accelerates_turnFrom haddr').returns_iff, hregs]
      _ ↔ Returns m.stepFrom m.regs res := (agreeOn_executed hsize hsame).returns_iff ⟨0, rfl⟩
      _ ↔ Returns m.turnFrom m.regs res := (accelerates_turnFrom haddr).returns_iff.symm
  exact ⟨map_result_run?_congr haddr haddr' hreturns, hreturns⟩

/-- A jump that is never executed cuts the first block in two. -/
theorem run?_depends_on_executed_dead_jump :
    (⟨#[.acc 1, .acc 2, .jmp 2, .jmp (-2), .acc 4]⟩ : Program).blockTable ≠
        (⟨#[.acc 1, .acc 2, .jmp 2, .nop, .acc 4]⟩ : Program).blockTable ∧
      (ofProgram ⟨#[.acc 1, .acc 2, .jmp 2, .jmp (-2), .acc 4]⟩ 0).run?.map Outcome.result =
        (ofProgram ⟨#[.acc 1, .acc 2, .jmp 2, .nop, .acc 4]⟩ 0).run?.map Outcome.result := by
  have hsame : ∀ n pc,
      (ofProgram ⟨#[.acc 1, .acc 2, .jmp 2, .nop, .acc 4]⟩ 0).ExecutesAt n pc →
        (ofProgram ⟨#[.acc 1, .acc 2, .jmp 2, .jmp (-2), .acc 4]⟩ 0).program.get? pc =
          (ofProgram ⟨#[.acc 1, .acc 2, .jmp 2, .nop, .acc 4]⟩ 0).program.get? pc := by
    rintro n pc ⟨hbusy, rfl, -⟩
    -- the fourth step halts the machine
    have hn : n < 4 := by
      by_contra hlt
      have hfour := settled_calls_step_mono (p := ⟨#[.acc 1, .acc 2, .jmp 2, .nop, .acc 4]⟩)
        (not_lt.1 hlt) hbusy
      exact absurd hfour (by decide)
    clear hbusy
    revert n
    decide
  exact ⟨by decide, (run?_depends_on_executed (by decide) (by rfl) (by rfl) hsame).1⟩

end Machine
end AccumulatorMachine
