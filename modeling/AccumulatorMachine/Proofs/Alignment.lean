import AccumulatorMachine.Proofs.Dependence

/-!
# Runs come to the blocks and stay there

A turn is a single step where no block starts, and a run that goes on like that would give the right
result slowly.  Nothing that a run returns could tell.  So this file looks at the passes of the loop
themselves: `passStarts` lists the registers that the first passes begin with, of a loop that comes
back or of one that never does.

Two facts about one turn carry everything.  A turn that begins where a block starts leads to where a
block starts (`isLeader_turnFrom`), hence so do all passes after it.  A turn that begins in the
middle of a block moves on by one position, or it executes the last instruction of the block and
leads to where another one starts (`turnFrom_inside`).  So the distance to the end of the block
bounds the number of single steps (`countP_singleSteps_le`).
-/

namespace AccumulatorMachine

/-! ## The passes of a loop -/

/-- The registers with which the first `n` passes of the loop over `body` begin.  There are fewer of
them if the loop comes back before. -/
def passStarts (body : Registers → Outcome) : ℕ → Registers → List Registers
  | 0, _ => []
  | n + 1, r =>
    if r.halt then []
    else
      match (body r).fault? with
      | some _ => [r]
      | none => r :: passStarts body n (body r).regs

section

variable {body : Registers → Outcome} {r : Registers} {f : JumpFault} {n : ℕ}

lemma passStarts_succ_of_fault (h : r.halt = false) (hf : (body r).fault? = some f) :
    passStarts body (n + 1) r = [r] := by
  simp [passStarts, h, hf]

lemma passStarts_succ (h : r.halt = false) (hf : (body r).fault? = none) :
    passStarts body (n + 1) r = r :: passStarts body n (body r).regs := by
  simp [passStarts, h, hf]

/-- All that a loop can begin with: no pass, one that faults, or one with more of them behind it. -/
lemma passStarts_succ_cases (body : Registers → Outcome) (n : ℕ) (r : Registers) :
    passStarts body (n + 1) r = [] ∨
      (r.halt = false ∧ passStarts body (n + 1) r = [r]) ∨
      (r.halt = false ∧ (body r).fault? = none ∧
        passStarts body (n + 1) r = r :: passStarts body n (body r).regs) := by
  rcases hr : r.halt with _ | _
  · right
    rcases hf : (body r).fault? with _ | f
    · exact Or.inr ⟨rfl, rfl, passStarts_succ hr hf⟩
    · exact Or.inl ⟨rfl, passStarts_succ_of_fault hr hf⟩
  · left
    simp [passStarts, hr]

/-- What holds at the first pass and is kept by every pass that leads to another one holds at all
passes. -/
lemma forall_mem_passStarts {P : Registers → Prop}
    (hkeep : ∀ r, P r → (body r).fault? = none → (body r).regs.halt = false → P (body r).regs)
    (h : r.halt = false → P r) : ∀ c ∈ passStarts body n r, P c := by
  induction n generalizing r with
  | zero => exact List.forall_mem_nil P
  | succ n ih =>
    rcases passStarts_succ_cases body n r with hnil | ⟨hr, hone⟩ | ⟨hr, hf, hcons⟩
    · rw [hnil]
      exact List.forall_mem_nil P
    · rw [hone, List.forall_mem_singleton]
      exact h hr
    · rw [hcons, List.forall_mem_cons]
      exact ⟨h hr, ih (hkeep r (h hr) hf)⟩

/-- What is kept by every pass holds at all passes after one at which it holds. -/
lemma pairwise_passStarts {P : Registers → Prop}
    (hkeep : ∀ r, P r → (body r).fault? = none → (body r).regs.halt = false → P (body r).regs) :
    (passStarts body n r).Pairwise fun c c' => P c → P c' := by
  induction n generalizing r with
  | zero => exact .nil
  | succ n ih =>
    rcases passStarts_succ_cases body n r with hnil | ⟨-, hone⟩ | ⟨-, hf, hcons⟩
    · rw [hnil]
      exact .nil
    · rw [hone]
      exact List.pairwise_singleton ..
    · rw [hcons]
      refine .cons ?_ ih
      intro c hc hP
      exact forall_mem_passStarts hkeep (hkeep r hP hf) c hc

end

/-! ## Turns that are single steps -/

namespace Machine

variable {m : Machine} {r : Registers} {start stop n : ℕ}

/-- Whether a turn from these registers is a single step, because no block starts at the address. -/
def singleSteps (m : Machine) (r : Registers) : Bool :=
  (m.table.blockAt r.pc).isNone

lemma singleSteps_eq_false_iff (hp : m.program.Addressable) :
    m.singleSteps r = false ↔ m.program.IsLeader r.pc.toNat := by
  rw [singleSteps, m.table_eq, Option.isNone_eq_false_iff, Option.isSome_iff_exists,
    hp.exists_blockAt_iff]

lemma singleSteps_ofProgram {p : Program} (hp : p.Addressable) {seed : Int64}
    (h : (ofProgram p seed).regs.halt = false) :
    (ofProgram p seed).singleSteps (ofProgram p seed).regs = false :=
  (singleSteps_eq_false_iff (m := ofProgram p seed) hp).2 (isLeader_ofProgram h)

/-- From where a block starts a run makes no single step. -/
lemma singleSteps_of_mem_passStarts (hp : m.program.Addressable)
    (h : r.halt = false → m.singleSteps r = false) :
    ∀ c ∈ passStarts m.turnFrom n r, m.singleSteps c = false := by
  simp only [singleSteps_eq_false_iff hp] at h ⊢
  exact forall_mem_passStarts (fun _ hr hf hhalt => isLeader_turnFrom hp hr hf hhalt) h

lemma countP_singleSteps_eq_zero (hp : m.program.Addressable)
    (h : r.halt = false → m.singleSteps r = false) :
    (passStarts m.turnFrom n r).countP m.singleSteps = 0 := by
  rw [List.countP_eq_zero]
  intro c hc
  rw [singleSteps_of_mem_passStarts hp h c hc]
  exact Bool.false_ne_true

/-- A turn that begins in the middle of a block moves on by one position, or it leaves the block at
its end for the start of another one. -/
lemma turnFrom_inside (hp : m.program.Addressable) (hblock : m.program.IsBlock start stop)
    (hstart : start < r.pc.toNat) (hstop : r.pc.toNat < stop)
    (hf : (m.turnFrom r).fault? = none) :
    (r.pc.toNat + 1 < stop ∧ (m.turnFrom r).regs.pc.toNat = r.pc.toNat + 1) ∨
      ((m.turnFrom r).regs.halt = false → m.singleSteps (m.turnFrom r).regs = false) := by
  rw [singleSteps_eq_false_iff hp]
  have hsize : r.pc.toNat < m.program.size := lt_of_lt_of_le hstop hblock.stop_le
  rcases m.turnFrom_cases r with ⟨-, hturn⟩ | ⟨start', stop', hblock', hpc, -⟩
  · obtain ⟨hfault, hregs⟩ := Outcome.result_eq_iff.1 hturn
    rcases r.step_cases m.program with ⟨pc, hnext, hstep⟩ | ⟨offset, -, -, hstep⟩
    · rw [hregs, show (m.stepFrom r).regs = _ from Outcome.regs_of_result hstep]
      by_cases hlast : r.pc.toNat + 1 < stop
      · left
        rw [Program.next?_of_not_jmp hsize (hblock.not_jmp hstart.le hlast), Option.some.injEq]
          at hnext
        exact ⟨hlast, by rw [← hnext, hp.toNat_add_one hsize]⟩
      · right
        intro hhalt
        have hend : r.pc.toNat = stop - 1 := by omega
        rw [← UInt64.ofNat_toNat (x := r.pc), hend] at hnext
        simp only [Bool.or_eq_false_iff, decide_eq_false_iff_not, not_le] at hhalt
        exact hblock.isLeader_of_next? hp hnext hhalt.2
    · rw [hfault, show (m.stepFrom r).fault? = _ from Outcome.fault?_of_result hstep] at hf
      cases hf
  · -- no block starts in the middle of another
    have hword : r.pc.toNat = start' := by rw [hpc, hp.toNat_ofNat hblock'.isLeader.1.le]
    have hle := hblock.le_of_isLeader start' hblock'.isLeader (by omega)
    omega

/-- A run makes no more single steps than there are instructions up to the end of the block that it
begins in. -/
lemma countP_singleSteps_le (hp : m.program.Addressable) (hblock : m.program.IsBlock start stop)
    (hstart : start ≤ r.pc.toNat) (hstop : r.pc.toNat < stop) :
    (passStarts m.turnFrom n r).countP m.singleSteps ≤ stop - r.pc.toNat := by
  induction n generalizing r with
  | zero => exact Nat.zero_le _
  | succ n ih =>
    have hone : (if m.singleSteps r = true then 1 else 0) ≤ 1 := by split <;> omega
    rcases hstart.eq_or_lt with heq | hlt
    · have hleader := (singleSteps_eq_false_iff hp).2 (heq ▸ hblock.isLeader)
      rw [countP_singleSteps_eq_zero hp fun _ => hleader]
      exact Nat.zero_le _
    rcases passStarts_succ_cases m.turnFrom n r with hnil | ⟨-, hlast⟩ | ⟨-, hf, hcons⟩
    · rw [hnil]
      exact Nat.zero_le _
    · rw [hlast, List.countP_singleton]
      omega
    · rw [hcons, List.countP_cons]
      -- either the distance to the end is one less now, or no single step follows
      rcases turnFrom_inside hp hblock hlt hstop hf with ⟨hinside, hpc⟩ | hleader
      · have hrest := ih (r := (m.turnFrom r).regs) (by omega) (by omega)
        omega
      · rw [countP_singleSteps_eq_zero hp hleader]
        omega

/-- **A run makes single steps only to reach the next block.**  Take the first passes of a run, any
number of them, of a machine that calls have led to and that has not halted; the run may never end.
From the first pass on that begins where a block starts, all passes do.  There are no more single
steps than instructions from the address up to the end of its block, and none if a block starts
there.  So a fresh machine is never run by single steps. -/
theorem single_steps_only_reach_next_block {p : Program} (hp : p.size < 2 ^ 59) :
    (∀ (seed : Int64) (m : Machine), (ofProgram p seed).Reaches m → m.regs.halt = false →
      ∀ n, (passStarts m.turnFrom n m.regs).Pairwise
          (fun c c' => m.singleSteps c = false → m.singleSteps c' = false) ∧
        (∃ b ∈ p.blockTable.blocks,
          b.start.toNat ≤ m.regs.pc.toNat ∧ m.regs.pc.toNat < b.stop.toNat) ∧
        (∀ b ∈ p.blockTable.blocks,
          b.start.toNat ≤ m.regs.pc.toNat → m.regs.pc.toNat < b.stop.toNat →
            (passStarts m.turnFrom n m.regs).countP m.singleSteps ≤
              b.stop.toNat - m.regs.pc.toNat) ∧
        (m.singleSteps m.regs = false →
          (passStarts m.turnFrom n m.regs).countP m.singleSteps = 0)) ∧
      ∀ seed n, (passStarts (ofProgram p seed).turnFrom n (ofProgram p seed).regs).countP
        (ofProgram p seed).singleSteps = 0 := by
  have haddr := Program.addressable_of_size_lt hp
  refine ⟨?_, ?_⟩
  · intro seed m hm hhalt n
    have hplaced : m.regs.Placed p := hm.placed haddr (placed_ofProgram p seed)
    obtain rfl : m.program = p := hm.program_eq
    refine ⟨?_, ?_, ?_, ?_⟩
    · simp only [singleSteps_eq_false_iff haddr]
      exact pairwise_passStarts fun _ hr hf hhalt => isLeader_turnFrom haddr hr hf hhalt
    · obtain ⟨start, stop, hblock, hmem, hle, hlt⟩ :=
        Program.exists_isBlock_of_lt_size (hplaced.pc_lt_size hhalt)
      refine ⟨_, Program.mem_blocks_blockTable_iff.2 hmem, ?_⟩
      rw [haddr.toNat_start hblock, haddr.toNat_stop hblock]
      exact ⟨hle, hlt⟩
    · intro b hb hle hlt
      obtain ⟨start, stop, hblock, rfl⟩ :=
        Program.exists_isBlock_of_mem_blocks (Program.mem_blocks_blockTable_iff.1 hb)
      rw [haddr.toNat_start hblock] at hle
      rw [haddr.toNat_stop hblock] at hlt ⊢
      exact countP_singleSteps_le haddr hblock hle hlt
    · intro hstart
      exact countP_singleSteps_eq_zero haddr fun _ => hstart
  · intro seed n
    exact countP_singleSteps_eq_zero (m := ofProgram p seed) haddr (singleSteps_ofProgram haddr)

/-- A run that never ends, begun inside a block: one single step, as many as there are instructions
left in the block, and then the block of a jump to itself over and over. -/
theorem single_steps_only_reach_next_block_endless :
    ∃ m, (ofProgram ⟨#[.acc 1, .acc 2, .jmp 0]⟩ 0).Reaches m ∧ m.regs = ⟨1, 1, false⟩ ∧
      m.run? = none ∧
      (passStarts m.turnFrom 4 m.regs).map Registers.pc = [1, 2, 2, 2] ∧
      (passStarts m.turnFrom 4 m.regs).countP m.singleSteps = 1 ∧
      ∀ n, (passStarts m.turnFrom n m.regs).countP m.singleSteps ≤ 2 - 1 := by
  have hreach : (ofProgram ⟨#[.acc 1, .acc 2, .jmp 0]⟩ 0).Reaches
      ((ofProgram ⟨#[.acc 1, .acc 2, .jmp 0]⟩ 0).withRegs ⟨1, 1, false⟩) :=
    .single ⟨.step, _, rfl, rfl⟩
  refine ⟨_, hreach, rfl, by decide +kernel, by decide +kernel, by decide +kernel, ?_⟩
  intro n
  obtain ⟨-, -, hcount, -⟩ :=
    (single_steps_only_reach_next_block (by decide)).1 0 _ hreach rfl n
  exact hcount ⟨0, 2, 3, .goto 2⟩ (Array.mem_of_getElem? (i := 0) (by decide)) (by decide)
    (by decide)

end Machine
end AccumulatorMachine
