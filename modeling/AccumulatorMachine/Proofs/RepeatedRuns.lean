import AccumulatorMachine.Proofs.Alignment
import AccumulatorMachine.Proofs.Journal
import AccumulatorMachine.Proofs.Rest

/-!
# One run after another

A fresh machine stands where a block starts, so its first run makes no single step.  It is tempting
to say the same of all runs, as long as nobody asks for a single step in between, and it is not
true.  A run that faults leaves the address on the faulting jump, and a block need not start there.
The next run then has no block to execute and makes a single step, which shows in the journal.

This is the only exception.  The first run settles the machine, so all that later runs can do is to
come back at once (`RunsTo.eq_or_eq_withRegs`).  What they find is a set halt flag, a jump where a
block starts, or a jump inside a block, and `Strands` is the last of these.  The journal tells it
apart from the other two: a turn through a block leaves nothing behind at the lowest severity
(`severity_ne_trace_of_turnFrom`), and a single step of an instruction does.
-/

namespace AccumulatorMachine
namespace Machine

variable {m m' : Machine} {r : Registers} {o : Outcome} {f : JumpFault} {n : ℕ}

/-! ## Runs alone -/

/-- A run returns, with a fault or without, and leads from the one machine to the other. -/
def RunLeads (m m' : Machine) : Prop :=
  ∃ o, m.run? = some o ∧ m' = m.withRegs o.regs

/-- Some number of runs, with no step between them, leads from the one machine to the other. -/
def RunsTo : Machine → Machine → Prop :=
  Relation.ReflTransGen RunLeads

lemma RunsTo.reaches (h : m.RunsTo m') : m.Reaches m' := by
  induction h with
  | refl => exact .refl
  | tail _ hlead ih =>
    obtain ⟨o, hrun, hregs⟩ := hlead
    exact ih.tail ⟨.run, o, hrun, hregs⟩

/-- A run leaves a machine at rest. -/
lemma atRest_of_run? (hp : m.program.Addressable) (hplaced : m.regs.Placed m.program)
    (hrun : m.run? = some o) : (m.withRegs o.regs).AtRest o.fault? := by
  have hreturns := returns_of_run? hp hrun rfl
  rcases hf : o.fault? with _ | f
  · rw [hf] at hreturns
    exact atRest_of_halt (m := m.withRegs o.regs) hp (hplaced.of_returns hp hreturns) hreturns.halt
  · rw [hf] at hreturns
    exact atRest_of_stuckAt (m := m.withRegs o.regs) hp hreturns.stuckAt

/-- A run does not change a machine at rest. -/
lemma AtRest.eq_of_runLeads {fault? : Option JumpFault} (h : m.AtRest fault?)
    (hlead : m.RunLeads m') : m' = m := by
  obtain ⟨o, hrun, rfl⟩ := hlead
  obtain ⟨o', hrun', hresult⟩ := h .run
  obtain rfl : o = o' := Option.some.inj (hrun.symm.trans hrun')
  rw [Outcome.regs_of_result hresult]
  rfl

/-- Of several runs only the first one changes anything. -/
lemma RunsTo.eq_or_eq_withRegs (h : m.RunsTo m') (hp : m.program.Addressable)
    (hplaced : m.regs.Placed m.program) :
    m' = m ∨ ∃ o, m.run? = some o ∧ m' = m.withRegs o.regs := by
  induction h with
  | refl => exact Or.inl rfl
  | tail _ hlead ih =>
    rcases ih with rfl | ⟨o, hrun, rfl⟩
    · exact Or.inr hlead
    · exact Or.inr ⟨o, hrun, (atRest_of_run? hp hplaced hrun).eq_of_runLeads hlead⟩

/-! ## Where a run has faulted -/

/-- The run of a machine ends with the fault `f` at a jump where no block starts, and leaves the
other machine there. -/
def Strands (m m' : Machine) (f : JumpFault) : Prop :=
  ∃ o, m.run? = some o ∧ o.fault? = some f ∧ m' = m.withRegs o.regs ∧ m.table.blockAt f.pc = none

lemma Strands.stuckAt (h : m.Strands m' f) (hp : m.program.Addressable) :
    m'.regs.StuckAt m'.program f ∧ m'.singleSteps m'.regs = true := by
  obtain ⟨o, hrun, hf, rfl, hblock⟩ := h
  have hstuck : o.regs.StuckAt m.program f := (returns_of_run? hp hrun hf).stuckAt
  refine ⟨hstuck, ?_⟩
  show (m.table.blockAt o.regs.pc).isNone = true
  rw [hstuck.pc_eq, hblock]
  rfl

/-- A turn from a jump to before the start faults, be it a block or a single step. -/
lemma result_turnFrom_of_stuckAt (hp : m.program.Addressable) (h : r.StuckAt m.program f) :
    (m.turnFrom r).result = (some f, r) := by
  obtain ⟨k, hpos, -, hturn⟩ := accelerates_turnFrom hp r h.halt_eq
  obtain ⟨k, rfl⟩ := Nat.exists_eq_add_of_le' hpos
  rw [hturn, calls_succ_of_fault (Outcome.fault?_of_result h.result_step)]
  exact h.result_step

lemma passStarts_of_stuckAt (hp : m.program.Addressable) (h : r.StuckAt m.program f) :
    passStarts m.turnFrom (n + 1) r = [r] :=
  passStarts_succ_of_fault h.halt_eq (Outcome.fault?_of_result (result_turnFrom_of_stuckAt hp h))

/-- All that a single step from such a jump leaves behind. -/
lemma turnFrom_of_stuckAt (h : r.StuckAt m.program f) (hsingle : m.singleSteps r = true) :
    m.turnFrom r = ⟨r, some f, [.fetched f.pc (.jmp f.offset), .trapped f]⟩ := by
  obtain ⟨hfault, hregs⟩ := Outcome.result_eq_iff.1 h.result_step
  have hlog : (r.step m.program).log = [.fetched f.pc (.jmp f.offset), .trapped f] := by
    rw [Registers.log_step (h.pc_eq ▸ h.get?_eq), hfault, h.pc_eq]
    rfl
  have hadvance : m.advance r = r.step m.program := by
    rw [advance, Option.isNone_iff_eq_none.1 hsingle]
    rfl
  calc m.turnFrom r
      = r.step m.program := by simp only [turnFrom, hadvance, hfault]
    _ = ⟨(r.step m.program).regs, (r.step m.program).fault?, (r.step m.program).log⟩ := rfl
    _ = _ := by rw [hregs, hfault, hlog]

lemma run?_of_stuckAt (hp : m.program.Addressable) (h : m.regs.StuckAt m.program f)
    (hsingle : m.singleSteps m.regs = true) :
    m.run? = some ⟨m.regs, some f, [.fetched f.pc (.jmp f.offset), .trapped f]⟩ := by
  have hturn := turnFrom_of_stuckAt h hsingle
  have hloop : Loop m.turnFrom 1 m.regs (m.turnFrom m.regs) :=
    .fault h.halt_eq (f := f) (by rw [hturn])
  rw [hturn] at hloop
  exact (run?_eq_some_iff hp).2 ⟨1, _, hloop, rfl⟩

/-! ## Single steps in the journal -/

/-- A turn through a block leaves no event of the lowest severity behind. -/
lemma severity_ne_trace_of_turnFrom (h : m.singleSteps r = false) :
    ∀ e ∈ (m.turnFrom r).log, e.severity ≠ .trace := by
  obtain ⟨b, hb⟩ := Option.isSome_iff_exists.1 (Option.isNone_eq_false_iff.1 h)
  have htrap : ∀ e ∈ (m.advance r).log, e.severity ≠ .trace := by
    intro e he
    rw [advance, hb] at he
    simp only [b.log_execute, trapEvents, List.mem_map] at he
    obtain ⟨f, -, rfl⟩ := he
    exact Severity.noConfusion
  intro e he
  rcases hf : (m.advance r).fault? with _ | f
  · simp only [turnFrom, hf, List.mem_append, List.mem_singleton] at he
    rcases he with he | rfl
    · exact htrap e he
    · exact Severity.noConfusion
  · simp only [turnFrom, hf] at he
    exact htrap e he

lemma severity_ne_trace_of_loop (hloop : Loop m.turnFrom n r o)
    (h : ∀ c ∈ passStarts m.turnFrom n r, m.singleSteps c = false) :
    ∀ e ∈ o.log, e.severity ≠ .trace := by
  induction hloop with
  | done =>
    intro e he
    cases he
  | @fault r f hr hf =>
    rw [passStarts_succ_of_fault hr hf] at h
    exact severity_ne_trace_of_turnFrom (h r (List.mem_singleton_self r))
  | @pass n r o hr hf _ ih =>
    rw [passStarts_succ hr hf] at h
    intro e he
    rcases List.mem_append.1 he with he | he
    · exact severity_ne_trace_of_turnFrom (h r List.mem_cons_self) e he
    · exact ih (fun c hc => h c (List.mem_cons_of_mem _ hc)) e he

/-- A run none of whose turns is a single step leaves no event of the lowest severity behind. -/
lemma severity_ne_trace_of_run? (hp : m.program.Addressable) (hrun : m.run? = some o)
    (h : ∀ n, ∀ c ∈ passStarts m.turnFrom n m.regs, m.singleSteps c = false) :
    ∀ e ∈ o.log, e.severity ≠ .trace := by
  obtain ⟨n, o', hloop, rfl⟩ := (run?_eq_some_iff hp).1 hrun
  have hturns := severity_ne_trace_of_loop hloop (h n)
  intro e he
  rcases hf : o'.fault? with _ | f
  · simp only [Outcome.concluded, hf, List.mem_append, List.mem_singleton] at he
    rcases he with he | rfl
    · exact hturns e he
    · exact Severity.noConfusion
  · simp only [Outcome.concluded, hf] at he
    exact hturns e he

/-! ## Runs of a fresh machine -/

/-- After any number of runs a machine that has not halted stands where a block starts, or the first
run has stranded it. -/
lemma RunsTo.aligned_or_strands {p : Program} (hp : p.Addressable) {seed : Int64}
    (h : (ofProgram p seed).RunsTo m) :
    (m.regs.halt = false → m.singleSteps m.regs = false) ∨ ∃ f, (ofProgram p seed).Strands m f := by
  rcases h.eq_or_eq_withRegs hp (placed_ofProgram p seed) with rfl | ⟨o, hrun, rfl⟩
  · exact Or.inl (singleSteps_ofProgram hp)
  have hreturns := returns_of_run? (m := ofProgram p seed) hp hrun rfl
  rcases hf : o.fault? with _ | f
  · rw [hf] at hreturns
    left
    intro hhalt
    exact absurd (hreturns.halt.symm.trans hhalt) Bool.noConfusion
  · rw [hf] at hreturns
    have hstuck : o.regs.StuckAt p f := hreturns.stuckAt
    rcases hblock : (ofProgram p seed).table.blockAt f.pc with _ | b
    · exact Or.inr ⟨f, o, hrun, hf, rfl, hblock⟩
    · left
      intro _
      show ((ofProgram p seed).table.blockAt o.regs.pc).isNone = false
      rw [hstuck.pc_eq, hblock]
      rfl

/-- **When a machine that is only ever run makes a single step.**  Take a fresh machine and any
number of runs of it.  The next run has a turn that is a single step exactly when the first run has
ended with a fault at a jump where no block starts, and exactly then its journal has an event of the
lowest severity.  That single step is the only turn of the run.  It has the same fault again, and it
leaves two events behind. -/
theorem run_single_steps_iff_stranded {p : Program} (hp : p.size < 2 ^ 59) {seed : Int64}
    (hm : (ofProgram p seed).RunsTo m) :
    ((∃ n, ∃ c ∈ passStarts m.turnFrom n m.regs, m.singleSteps c = true) ↔
        ∃ f, (ofProgram p seed).Strands m f) ∧
      (∀ o, m.run? = some o →
        ((∃ e ∈ o.log, e.severity = .trace) ↔ ∃ f, (ofProgram p seed).Strands m f)) ∧
      ∀ f, (ofProgram p seed).Strands m f →
        (∀ n, passStarts m.turnFrom (n + 1) m.regs = [m.regs]) ∧
          m.run? = some ⟨m.regs, some f, [.fetched f.pc (.jmp f.offset), .trapped f]⟩ := by
  have haddr := Program.addressable_of_size_lt hp
  have hcases := hm.aligned_or_strands haddr
  have hprogram : m.program.Addressable := hm.reaches.program_eq ▸ haddr
  have hstranded : ∀ f, (ofProgram p seed).Strands m f →
      (∀ n, passStarts m.turnFrom (n + 1) m.regs = [m.regs]) ∧
        m.run? = some ⟨m.regs, some f, [.fetched f.pc (.jmp f.offset), .trapped f]⟩ := by
    intro f hf
    obtain ⟨hstuck, hsingle⟩ := hf.stuckAt haddr
    exact ⟨fun n => passStarts_of_stuckAt hprogram hstuck, run?_of_stuckAt hprogram hstuck hsingle⟩
  refine ⟨⟨?_, ?_⟩, ?_, hstranded⟩
  · rintro ⟨n, c, hc, hsingle⟩
    refine hcases.resolve_left fun haligned => ?_
    rw [singleSteps_of_mem_passStarts hprogram haligned c hc] at hsingle
    cases hsingle
  · rintro ⟨f, hf⟩
    refine ⟨1, m.regs, ?_, (hf.stuckAt haddr).2⟩
    rw [(hstranded f hf).1 0]
    exact List.mem_singleton_self _
  · intro o hrun
    constructor
    · rintro ⟨e, he, htrace⟩
      refine hcases.resolve_left fun haligned => ?_
      exact severity_ne_trace_of_run? hprogram hrun
        (fun n => singleSteps_of_mem_passStarts hprogram haligned) e he htrace
    · rintro ⟨f, hf⟩
      obtain rfl := Option.some.inj (hrun.symm.trans (hstranded f hf).2)
      exact ⟨_, List.mem_cons_self, rfl⟩

/-- A run that faults at a jump where a block starts: the next run has a block to execute. -/
theorem run_single_steps_iff_stranded_at_leader :
    ∃ m, (ofProgram ⟨#[.acc 1, .jmp 1, .jmp (-5)]⟩ 0).RunsTo m ∧ m.regs = ⟨1, 2, false⟩ ∧
      ¬ ∃ n, ∃ c ∈ passStarts m.turnFrom n m.regs, m.singleSteps c = true := by
  have hrun : (ofProgram ⟨#[.acc 1, .jmp 1, .jmp (-5)]⟩ 0).run? =
      some ⟨⟨1, 2, false⟩, some ⟨2, -5⟩,
        [.reached ⟨1, 2, false⟩ (some (.jmp (-5))), .trapped ⟨2, -5⟩]⟩ := by
    decide +kernel
  have hruns : (ofProgram ⟨#[.acc 1, .jmp 1, .jmp (-5)]⟩ 0).RunsTo
      ((ofProgram ⟨#[.acc 1, .jmp 1, .jmp (-5)]⟩ 0).withRegs ⟨1, 2, false⟩) :=
    .single ⟨_, hrun, rfl⟩
  refine ⟨_, hruns, rfl, ?_⟩
  rw [(run_single_steps_iff_stranded (by decide) hruns).1]
  rintro ⟨f, o, ho, hf, -, hblock⟩
  obtain rfl := Option.some.inj (hrun.symm.trans ho)
  cases hf
  exact absurd hblock (by decide +kernel)

/-- Two runs of an addition and a jump to before the start: the second of them makes a single step,
although nobody has asked for one. -/
theorem second_run_single_steps :
    ∃ m o, (ofProgram ⟨#[.acc 1, .jmp (-5)]⟩ 0).RunsTo m ∧
      (∃ c ∈ passStarts m.turnFrom 1 m.regs, m.table.blockAt c.pc = none) ∧
      m.run? = some o ∧ ∃ e ∈ o.log, e.severity = .trace := by
  have hruns : (ofProgram ⟨#[.acc 1, .jmp (-5)]⟩ 0).RunsTo
      ((ofProgram ⟨#[.acc 1, .jmp (-5)]⟩ 0).withRegs ⟨1, 1, false⟩) :=
    .single ⟨⟨⟨1, 1, false⟩, some ⟨1, -5⟩, [.trapped ⟨1, -5⟩]⟩, by decide +kernel, rfl⟩
  have hrun : ((ofProgram ⟨#[.acc 1, .jmp (-5)]⟩ 0).withRegs ⟨1, 1, false⟩).run? =
      some ⟨⟨1, 1, false⟩, some ⟨1, -5⟩, [.fetched 1 (.jmp (-5)), .trapped ⟨1, -5⟩]⟩ := by
    decide +kernel
  refine ⟨_, _, hruns, ⟨⟨1, 1, false⟩, ?_, by decide⟩, hrun, _, List.mem_cons_self, rfl⟩
  decide +kernel

end Machine
end AccumulatorMachine
