import AccumulatorMachine.Proofs.Reachability

/-!
# A machine halts soon or never

Execution ends within as many single steps as the program has instructions, or it never ends, and
which of the two it is shows in whether some instruction is executed twice.
`settles_or_executes_twice` states this of every machine that calls lead to and that has not
halted.  It is what makes a bounded search for the end of a run a decision.
-/

namespace AccumulatorMachine
namespace Machine

variable {m : Machine}

/-- Within so many single steps the machine halts or faults. -/
def SettlesWithin (m : Machine) (bound : ℕ) : Prop :=
  ∃ n ≤ bound, (calls m.stepFrom n m.regs).settled = true

/-- The single step number `n`, counted from zero, executes the instruction at `pc`: the steps
before it have neither halted the machine nor faulted, and have led there. -/
def ExecutesAt (m : Machine) (n : ℕ) (pc : UInt64) : Prop :=
  (calls m.stepFrom n m.regs).settled = false ∧
    (calls m.stepFrom n m.regs).regs.pc = pc ∧ pc.toNat < m.program.size

/-- Some instruction is executed twice. -/
def ExecutesTwice (m : Machine) : Prop :=
  ∃ i j pc, i < j ∧ m.ExecutesAt i pc ∧ m.ExecutesAt j pc

lemma ExecutesTwice.not_settlesWithin (h : m.ExecutesTwice) (bound : ℕ) :
    ¬ m.SettlesWithin bound := by
  obtain ⟨i, j, pc, hij, ⟨-, hpc_i, -⟩, ⟨hj, hpc_j, -⟩⟩ := h
  rintro ⟨n, -, hsettled⟩
  have hnever := settled_calls_step_of_recurrence (p := m.program) hij hj
    (hpc_i.trans hpc_j.symm) n
  rw [show (calls m.stepFrom n m.regs).settled = false from hnever] at hsettled
  cases hsettled

/-- Execution from an instruction that is not over after as many steps as there are instructions
has executed one of them twice. -/
lemma executesTwice_of_not_settlesWithin (hr : m.regs.pc.toNat < m.program.size)
    (h : ¬ m.SettlesWithin m.program.size) : m.ExecutesTwice := by
  have hbusy : ∀ n ≤ m.program.size, (calls m.stepFrom n m.regs).settled = false := by
    intro n hn
    by_contra hsettled
    exact h ⟨n, hn, by rwa [Bool.not_eq_false] at hsettled⟩
  obtain ⟨i, j, hij, hj, hpc⟩ := exists_recurrence hr (hbusy m.program.size le_rfl)
  have hlt := pc_lt_size_of_not_settled hr (hbusy j hj)
  exact ⟨i, j, _, hij, ⟨hbusy i (by omega), hpc, hlt⟩, ⟨hbusy j hj, rfl, hlt⟩⟩

/-- The loop over single steps comes back exactly when it does so in time. -/
lemma exists_loop_stepFrom_iff (hr : m.regs.pc.toNat < m.program.size) :
    (∃ n o, Loop m.stepFrom n m.regs o) ↔ m.SettlesWithin m.program.size := by
  constructor
  · rintro ⟨n, o, hloop⟩
    obtain ⟨rfl, hsettled, -⟩ := hloop.spec
    exact ⟨n, Loop.le_size hr hloop, hsettled⟩
  · rintro ⟨n, -, hsettled⟩
    obtain ⟨n', -, hloop⟩ := exists_loop_of_settled_calls hsettled
    exact ⟨n', _, hloop⟩

lemma exists_loop_turnFrom_iff (hp : m.program.Addressable)
    (hr : m.regs.pc.toNat < m.program.size) :
    (∃ n o, Loop m.turnFrom n m.regs o) ↔ m.SettlesWithin m.program.size := by
  rw [← exists_loop_stepFrom_iff hr, ← exists_returns_iff, ← exists_returns_iff]
  exact exists_congr fun _ => (accelerates_turnFrom hp).returns_iff

/-- **A machine settles within the size of its program or executes some instruction twice.**  In
the first case no instruction is executed twice on the way, in the second no number of steps ever
halts the machine or faults, and exactly one of them is the case.  So a run ends exactly when as
many single steps as there are instructions are enough to settle it, and it makes no more turns
than that. -/
theorem settles_or_executes_twice {p : Program} (hp : p.size < 2 ^ 59) {seed : Int64}
    (hm : (ofProgram p seed).Reaches m) (hhalt : m.regs.halt = false) :
    Xor (m.SettlesWithin p.size ∧ ¬ m.ExecutesTwice)
        (m.ExecutesTwice ∧ ∀ n, ¬ m.SettlesWithin n) ∧
      ((∃ o, m.run? = some o) ↔ m.SettlesWithin p.size) ∧
      ((∃ n o, Loop m.turnFrom n m.regs o) ↔ m.SettlesWithin p.size) ∧
      ∀ n o, Loop m.turnFrom n m.regs o → n ≤ p.size := by
  have haddr := Program.addressable_of_size_lt hp
  have hr := (hm.placed haddr (placed_ofProgram p seed)).pc_lt_size hhalt
  obtain rfl : m.program = p := hm.program_eq
  refine ⟨?_, ?_, exists_loop_turnFrom_iff haddr hr, ?_⟩
  · by_cases hsettles : m.SettlesWithin m.program.size
    · have honce : ¬ m.ExecutesTwice := fun htwice => htwice.not_settlesWithin _ hsettles
      exact Or.inl ⟨⟨hsettles, honce⟩, fun htwice => honce htwice.1⟩
    · have htwice := executesTwice_of_not_settlesWithin hr hsettles
      exact Or.inr ⟨⟨htwice, htwice.not_settlesWithin⟩, fun h => hsettles h.1⟩
  · rw [← exists_loop_turnFrom_iff haddr hr]
    constructor
    · rintro ⟨o, hrun⟩
      obtain ⟨n, o', hloop, -⟩ := (run?_eq_some_iff haddr).1 hrun
      exact ⟨n, o', hloop⟩
    · rintro ⟨n, o, hloop⟩
      exact ⟨o.concluded, (run?_eq_some_iff haddr).2 ⟨n, o, hloop, rfl⟩⟩
  · intro n o hloop
    exact le_size_of_loop_turnFrom haddr hr hloop

/-- An instruction that jumps to itself. -/
theorem settles_or_executes_twice_self_jump :
    (ofProgram ⟨#[.acc 1, .jmp 0, .acc 5]⟩ 0).ExecutesTwice ∧
      ∀ n, ¬ (ofProgram ⟨#[.acc 1, .jmp 0, .acc 5]⟩ 0).SettlesWithin n := by
  have htwice : (ofProgram ⟨#[.acc 1, .jmp 0, .acc 5]⟩ 0).ExecutesTwice :=
    ⟨1, 2, 1, by decide, ⟨by decide, by decide, by decide⟩, by decide, by decide, by decide⟩
  rcases (settles_or_executes_twice (p := ⟨#[.acc 1, .jmp 0, .acc 5]⟩) (by decide)
    (Relation.ReflTransGen.refl (a := ofProgram _ 0)) (by decide)).1 with ⟨hsettles, -⟩ | ⟨h, -⟩
  · exact absurd htwice hsettles.2
  · exact h

end Machine
end AccumulatorMachine
