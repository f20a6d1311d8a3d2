import Mathlib.Data.Finset.Card
import AccumulatorMachine.Proofs.Repetition

/-!
# Coming back to an address

The accumulator has no say in where control goes.  A step from registers with another accumulator
goes the same way, and leaves the same difference behind (`result_step_shift`), so two executions
with the same address and the same halt flag go the same way forever, whatever they have added up
(`control_calls_step_congr`).  An execution that comes back to an address it has been at therefore
repeats what it did in between, and never settles (`settled_calls_step_of_recurrence`).

Inside the program there are only as many addresses as instructions.  So an execution that has not
settled after that many steps has come back to one of them (`exists_recurrence`), and one that
settles at all does so within that many steps (`Loop.le_size`).
-/

namespace AccumulatorMachine

/-- The registers that decide where control goes. -/
def Registers.control (r : Registers) : UInt64 × Bool :=
  (r.pc, r.halt)

/-- What an outcome shows of the way control went. -/
def Outcome.control (o : Outcome) : Option JumpFault × UInt64 × Bool :=
  (o.fault?, o.regs.control)

lemma Outcome.control_of_result {o : Outcome} {fault? : Option JumpFault} {r : Registers}
    (h : o.result = (fault?, r)) : o.control = (fault?, r.control) := by
  obtain ⟨hfault, hregs⟩ := Outcome.result_eq_iff.1 h
  rw [Outcome.control, hfault, hregs]

lemma Outcome.settled_of_control {o o' : Outcome} (h : o.control = o'.control) :
    o.settled = o'.settled := by
  simp only [control, Registers.control, Prod.mk.injEq] at h
  rw [settled, settled, h.1, h.2.2]

variable {p : Program} {r r₁ r₂ : Registers} {n : ℕ}

/-! ## Control without the accumulator -/

namespace Registers

/-- The registers with an amount added to the accumulator. -/
def shift (d : Int64) (r : Registers) : Registers :=
  { r with acc := r.acc + d }

lemma shift_neg_shift (d : Int64) (r : Registers) : (r.shift d).shift (-d) = r := by
  simp [shift, Int64.add_assoc, Int64.add_right_neg]

lemma shift_shift_neg (d : Int64) (r : Registers) : (r.shift (-d)).shift d = r := by
  simp [shift, Int64.add_assoc, Int64.add_left_neg]

lemma eq_shift_of_control (h : r₁.control = r₂.control) : r₂ = r₁.shift (r₂.acc - r₁.acc) := by
  obtain ⟨hpc, hhalt⟩ := Prod.mk.inj h
  simp [shift, hpc, hhalt, Int64.sub_eq_add_neg, Int64.add_comm r₁.acc, Int64.add_assoc,
    Int64.add_left_neg]

end Registers

/-- A step does to shifted registers what it does to the others, and shifts what it leaves
behind. -/
lemma result_step_shift (p : Program) (d : Int64) (r : Registers) :
    ((r.shift d).step p).result = Prod.map id (Registers.shift d) (r.step p).result := by
  rcases hnext : p.next? r.pc with _ | pc
  · obtain ⟨offset, hget, htarget, hstep⟩ := Registers.result_step_of_next?_eq_none hnext
    rw [hstep, Registers.result_step_of_jumpTarget_eq_none (r := r.shift d) hget htarget]
    rfl
  · rw [Registers.result_step_of_next? hnext,
      Registers.result_step_of_next? (r := r.shift d) hnext]
    simp [Registers.shift, Int64.add_assoc, Int64.add_comm d]

lemma result_calls_step_shift (p : Program) (d : Int64) (n : ℕ) (r : Registers) :
    (calls (·.step p) n (r.shift d)).result =
      Prod.map id (Registers.shift d) (calls (·.step p) n r).result := by
  induction n generalizing r with
  | zero => rfl
  | succ n ih =>
    obtain ⟨hfault, hregs⟩ := Outcome.result_eq_iff.1 (result_step_shift p d r)
    rcases hf : (r.step p).fault? with _ | f
    · rw [calls_succ (hfault.trans hf), calls_succ hf, Outcome.result_after,
        Outcome.result_after, hregs]
      exact ih _
    · rw [calls_succ_of_fault (hfault.trans hf), calls_succ_of_fault hf]
      exact result_step_shift p d r

lemma control_calls_step_shift (p : Program) (d : Int64) (n : ℕ) (r : Registers) :
    (calls (·.step p) n (r.shift d)).control = (calls (·.step p) n r).control := by
  rw [Outcome.control_of_result (result_calls_step_shift p d n r)]
  rfl

lemma control_calls_step_congr (h : r₁.control = r₂.control) (n : ℕ) :
    (calls (·.step p) n r₁).control = (calls (·.step p) n r₂).control := by
  rw [Registers.eq_shift_of_control h, control_calls_step_shift]

/-! ## What has settled stays settled -/

lemma halt_step (h : r.halt = true) : (r.step p).regs.halt = true := by
  rcases r.step_cases p with ⟨pc, -, hstep⟩ | ⟨offset, -, -, hstep⟩
  · rw [Outcome.regs_of_result hstep]
    simp [h]
  · rw [Outcome.regs_of_result hstep, h]

lemma halt_calls_step (h : r.halt = true) (n : ℕ) :
    (calls (·.step p) n r).regs.halt = true :=
  calls_invariant (P := fun r => r.halt = true) (fun _ hr => halt_step hr) h n

lemma settled_calls_step_mono {i j : ℕ} (hij : i ≤ j)
    (h : (calls (·.step p) j r).settled = false) : (calls (·.step p) i r).settled = false := by
  obtain ⟨d, rfl⟩ := Nat.exists_eq_add_of_le hij
  rcases hf : (calls (·.step p) i r).fault? with _ | f
  · by_contra hsettled
    have hhalt : (calls (·.step p) i r).regs.halt = true := by
      simpa [Outcome.settled, hf] using hsettled
    rw [calls_add hf, Outcome.settled_after] at h
    have hlater := (Outcome.settled_eq_false_iff.1 h).2
    rw [halt_calls_step hhalt d] at hlater
    cases hlater
  · rw [calls_add_of_fault hf, Outcome.settled_of_fault hf] at h
    cases h

/-- An execution that has not settled is at an instruction. -/
lemma pc_lt_size_of_not_settled (hr : r.pc.toNat < p.size)
    (h : (calls (·.step p) n r).settled = false) :
    (calls (·.step p) n r).regs.pc.toNat < p.size := by
  rcases n with _ | n
  · exact hr
  have hbefore := settled_calls_step_mono n.le_succ h
  have hfault := (Outcome.settled_eq_false_iff.1 hbefore).1
  have hresult := calls_succ_last hfault
  rcases (calls (·.step p) n r).regs.step_cases p with ⟨pc, -, hstep⟩ | ⟨offset, -, -, hstep⟩
  · -- outside the program the step that led here would have set the flag
    have hregs := Outcome.regs_of_result (hresult.trans hstep)
    have hhalt := (Outcome.settled_eq_false_iff.1 h).2
    rw [hregs] at hhalt ⊢
    simp only [Bool.or_eq_false_iff, decide_eq_false_iff_not] at hhalt
    exact not_le.1 hhalt.2
  · have hf := Outcome.fault?_of_result (hresult.trans hstep)
    rw [Outcome.settled_of_fault hf] at h
    cases h

/-! ## Recurrence -/

/-- An execution that comes back to an address never settles. -/
lemma settled_calls_step_of_recurrence {i j : ℕ} (hij : i < j)
    (hj : (calls (·.step p) j r).settled = false)
    (hpc : (calls (·.step p) i r).regs.pc = (calls (·.step p) j r).regs.pc) (n : ℕ) :
    (calls (·.step p) n r).settled = false := by
  have hi := settled_calls_step_mono hij.le hj
  obtain ⟨hfault_i, hhalt_i⟩ := Outcome.settled_eq_false_iff.1 hi
  obtain ⟨hfault_j, hhalt_j⟩ := Outcome.settled_eq_false_iff.1 hj
  have hcontrol : (calls (·.step p) j r).regs.control = (calls (·.step p) i r).regs.control := by
    simp only [Registers.control, hpc, hhalt_i, hhalt_j]
  induction n using Nat.strong_induction_on with
  | _ n ih =>
    by_cases hn : n ≤ j
    · exact settled_calls_step_mono hn hj
    · -- `d` steps after the second visit are as `d` steps after the first
      obtain ⟨d, rfl⟩ := Nat.exists_eq_add_of_le (not_le.1 hn).le
      have hearlier := ih (i + d) (by omega)
      rw [calls_add hfault_i, Outcome.settled_after] at hearlier
      rw [calls_add hfault_j, Outcome.settled_after, ← hearlier]
      exact Outcome.settled_of_control (control_calls_step_congr hcontrol d)

/-- An execution that goes on for as many steps as there are instructions visits one twice. -/
lemma exists_recurrence (hr : r.pc.toNat < p.size)
    (h : (calls (·.step p) p.size r).settled = false) :
    ∃ i j, i < j ∧ j ≤ p.size ∧
      (calls (·.step p) i r).regs.pc = (calls (·.step p) j r).regs.pc := by
  have hmaps : ∀ i ∈ Finset.range (p.size + 1),
      (calls (·.step p) i r).regs.pc.toNat ∈ Finset.range p.size := by
    intro i hi
    have hle := Nat.lt_succ_iff.1 (Finset.mem_range.1 hi)
    exact Finset.mem_range.2 (pc_lt_size_of_not_settled hr (settled_calls_step_mono hle h))
  obtain ⟨i, hi, j, hj, hne, hpc⟩ :=
    Finset.exists_ne_map_eq_of_card_lt_of_maps_to (by simp) hmaps
  rw [Finset.mem_range, Nat.lt_succ_iff] at hi hj
  rcases Nat.lt_or_gt_of_ne hne with hij | hij
  · exact ⟨i, j, hij, hj, UInt64.toNat_inj.1 hpc⟩
  · exact ⟨j, i, hij, hi, UInt64.toNat_inj.1 hpc.symm⟩

/-- An execution that settles does so within as many steps as there are instructions. -/
lemma settled_calls_size (hr : r.pc.toNat < p.size) (h : (calls (·.step p) n r).settled = true) :
    (calls (·.step p) p.size r).settled = true := by
  by_contra hsize
  rw [Bool.not_eq_true] at hsize
  obtain ⟨i, j, hij, hj, hpc⟩ := exists_recurrence hr hsize
  have hnever := settled_calls_step_of_recurrence hij (settled_calls_step_mono hj hsize) hpc n
  rw [hnever] at h
  cases h

/-- A loop over single steps that comes back makes no more passes than there are instructions. -/
lemma Loop.le_size (hr : r.pc.toNat < p.size) {o : Outcome} (h : Loop (·.step p) n r o) :
    n ≤ p.size := by
  obtain ⟨rfl, hsettled, hbefore⟩ := h.spec
  by_contra hlt
  have hsize := settled_calls_size hr hsettled
  rw [hbefore p.size (by omega)] at hsize
  cases hsize

/-- From outside the program one pass is enough. -/
lemma Loop.le_one (hr : p.size ≤ r.pc.toNat) {o : Outcome} (h : Loop (·.step p) n r o) :
    n ≤ 1 := by
  obtain ⟨-, -, hbefore⟩ := h.spec
  by_contra hlt
  have hone := hbefore 1 (by omega)
  have hregs := Outcome.regs_of_result (Registers.result_step_of_size_le hr)
  rw [calls_one, Outcome.settled_eq_false_iff, hregs] at hone
  cases hone.2

end AccumulatorMachine
