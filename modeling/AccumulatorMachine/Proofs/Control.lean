import Mathlib.Algebra.Order.Ring.Int
import Mathlib.Tactic.Common
import AccumulatorMachine.Registers.Step

/-!
# Control flow

Where a step goes is decided by the address alone.  `Program.next?` is that decision, with no
address for a jump to before the start of the program, and `Program.deltaAt` is what the
instruction at an address adds to the accumulator.  Together they say all that a step does, its
events apart: `result_step_of_next?` is a step that succeeds, `result_step_of_next?_eq_none` one
that faults, `step_cases` says that there is no third kind, and nothing below unfolds
`Registers.step` again.

From outside the program control stays where it is, so that the two lemmas cover a step of a
halted machine as well.
-/

namespace AccumulatorMachine

/-! ## What is left of an outcome without its events -/

namespace Outcome

variable {o o' : Outcome}

/-- Whether an outcome leaves nothing to do: a fault has stopped it or the machine has halted. -/
def settled (o : Outcome) : Bool :=
  o.fault?.isSome || o.regs.halt

/-- What a caller gets back: the fault, if there was one, and the registers. -/
def result (o : Outcome) : Option JumpFault × Registers :=
  (o.fault?, o.regs)

@[simp] lemma settled_after (es : List Event) (o : Outcome) : (o.after es).settled = o.settled :=
  rfl

@[simp] lemma result_after (es : List Event) (o : Outcome) : (o.after es).result = o.result :=
  rfl

lemma result_eq_iff {fault? : Option JumpFault} {r : Registers} :
    o.result = (fault?, r) ↔ o.fault? = fault? ∧ o.regs = r :=
  Prod.mk.injEq .. ▸ Iff.rfl

lemma fault?_of_result {fault? : Option JumpFault} {r : Registers}
    (h : o.result = (fault?, r)) : o.fault? = fault? :=
  (result_eq_iff.1 h).1

lemma regs_of_result {fault? : Option JumpFault} {r : Registers}
    (h : o.result = (fault?, r)) : o.regs = r :=
  (result_eq_iff.1 h).2

lemma settled_eq_false_iff : o.settled = false ↔ o.fault? = none ∧ o.regs.halt = false := by
  simp [settled]

lemma settled_of_fault {f : JumpFault} (h : o.fault? = some f) : o.settled = true := by
  simp [settled, h]

lemma settled_congr (h : o.result = o'.result) : o.settled = o'.settled := by
  obtain ⟨hfault, hregs⟩ := result_eq_iff.1 h
  rw [settled, settled, hfault, hregs]

end Outcome

/-! ## Addresses as numbers -/

lemma address_add_one (i : ℕ) : UInt64.ofNat i + 1 = UInt64.ofNat (i + 1) := by
  rw [UInt64.ofNat_add]
  rfl

namespace Program

variable {p : Program}

lemma isEmpty_eq_decide (p : Program) : p.isEmpty = decide (p.size = 0) := by
  rw [Bool.eq_iff_iff, isEmpty_iff, decide_eq_true_iff]

lemma addressable_of_size_lt (hp : p.size < 2 ^ 59) : p.Addressable := by
  unfold Addressable
  omega

lemma Addressable.toNat_ofNat (hp : p.Addressable) {i : ℕ} (hi : i ≤ p.size) :
    (UInt64.ofNat i).toNat = i := by
  unfold Addressable at hp
  apply UInt64.toNat_ofNat_of_lt'
  simp only [UInt64.size]
  omega

lemma Addressable.get?_ofNat (hp : p.Addressable) {i : ℕ} (hi : i ≤ p.size) :
    p.get? (UInt64.ofNat i) = p.code[i]? := by
  rw [get?, hp.toNat_ofNat hi]

/-- The address after an instruction does not wrap around. -/
lemma Addressable.toNat_add_one (hp : p.Addressable) {pc : UInt64} (hpc : pc.toNat < p.size) :
    (pc + 1).toNat = pc.toNat + 1 := by
  unfold Addressable at hp
  rw [UInt64.toNat_add, UInt64.toNat_one]
  omega

lemma exists_get?_eq_some {pc : UInt64} (hpc : pc.toNat < p.size) : ∃ i, p.get? pc = some i :=
  ⟨_, Array.getElem?_eq_getElem hpc⟩

lemma Addressable.jumpTarget_eq_none_iff (hp : p.Addressable) {pc : UInt64} {offset : Int32}
    (hpc : pc.toNat < p.size) :
    jumpTarget pc offset = none ↔ (pc.toNat : ℤ) + offset.toInt < 0 := by
  unfold Addressable at hp
  rw [jumpTarget_eq (by omega)]
  split
  · simp [*]
  · simp [*]

lemma Addressable.jumpTarget_ofNat_eq_none_iff (hp : p.Addressable) {i : ℕ} {offset : Int32}
    (hi : i < p.size) :
    jumpTarget (UInt64.ofNat i) offset = none ↔ (i : ℤ) + offset.toInt < 0 := by
  have hword := hp.toNat_ofNat hi.le
  rw [hp.jumpTarget_eq_none_iff (by rwa [hword]), hword]

lemma Addressable.jumpTarget_eq_some_iff (hp : p.Addressable) {pc target : UInt64}
    {offset : Int32} (hpc : pc.toNat < p.size) :
    jumpTarget pc offset = some target ↔ (pc.toNat : ℤ) + offset.toInt = target.toNat := by
  have hlt := offset.toInt_lt
  unfold Addressable at hp
  rw [jumpTarget_eq (by omega)]
  split
  · rename_i hneg
    simp only [reduceCtorEq, false_iff]
    omega
  · rename_i hnonneg
    have hword : (UInt64.ofNat ((pc.toNat : ℤ) + offset.toInt).toNat).toNat =
        ((pc.toNat : ℤ) + offset.toInt).toNat :=
      UInt64.toNat_ofNat_of_lt' (by simp only [UInt64.size]; omega)
    rw [Option.some.injEq, ← UInt64.toNat_inj, hword]
    omega

lemma Addressable.jumpTarget_ofNat_eq_some_iff (hp : p.Addressable) {i : ℕ} {offset : Int32}
    {target : UInt64} (hi : i < p.size) :
    jumpTarget (UInt64.ofNat i) offset = some target ↔ (i : ℤ) + offset.toInt = target.toNat := by
  have hword := hp.toNat_ofNat hi.le
  rw [hp.jumpTarget_eq_some_iff (by rwa [hword]), hword]

/-! ## The successor of an address -/

/-- Where control goes from an address: on to the next one, to the target of a jump, or nowhere
if that target lies before the start.  From outside the program control does not move. -/
def next? (p : Program) (pc : UInt64) : Option UInt64 :=
  match p.get? pc with
  | none => some pc
  | some (.jmp offset) => jumpTarget pc offset
  | some _ => some (pc + 1)

/-- What the instruction at an address adds to the accumulator; outside the program, nothing. -/
def deltaAt (p : Program) (pc : UInt64) : Int64 :=
  match p.get? pc with
  | none => 0
  | some i => i.delta

lemma next?_of_size_le {pc : UInt64} (h : p.size ≤ pc.toNat) : p.next? pc = some pc := by
  rw [next?, get?_eq_none_iff.2 h]

lemma deltaAt_of_size_le {pc : UInt64} (h : p.size ≤ pc.toNat) : p.deltaAt pc = 0 := by
  rw [deltaAt, get?_eq_none_iff.2 h]

lemma next?_of_jmp {pc : UInt64} {offset : Int32} (h : p.get? pc = some (.jmp offset)) :
    p.next? pc = jumpTarget pc offset := by
  rw [next?, h]

lemma deltaAt_of_jmp {pc : UInt64} {offset : Int32} (h : p.get? pc = some (.jmp offset)) :
    p.deltaAt pc = 0 := by
  simp [deltaAt, h]

lemma next?_of_not_jmp {pc : UInt64} (hpc : pc.toNat < p.size)
    (h : ∀ offset, p.get? pc ≠ some (.jmp offset)) : p.next? pc = some (pc + 1) := by
  obtain ⟨i, hi⟩ := exists_get?_eq_some hpc
  rw [next?, hi]
  cases i with
  | nop => rfl
  | acc d => rfl
  | jmp offset => exact absurd hi (h offset)

/-- Only a jump can lead nowhere. -/
lemma exists_jmp_of_next?_eq_none {pc : UInt64} (h : p.next? pc = none) :
    ∃ offset, p.get? pc = some (.jmp offset) ∧ jumpTarget pc offset = none := by
  unfold next? at h
  split at h
  · cases h
  · rename_i offset hget
    exact ⟨offset, hget, h⟩
  · cases h

/-- Control never moves further than the longest jump from the last instruction. -/
lemma Addressable.toNat_le_of_next? (hp : p.Addressable) {pc pc' : UInt64}
    (hpc : pc.toNat < p.size) (h : p.next? pc = some pc') :
    (pc'.toNat : ℤ) ≤ p.size - 1 + (2 ^ 31 - 1) := by
  by_cases hjmp : ∃ offset, p.get? pc = some (.jmp offset)
  · obtain ⟨offset, hget⟩ := hjmp
    have hlt := offset.toInt_lt
    rw [next?_of_jmp hget, hp.jumpTarget_eq_some_iff hpc] at h
    omega
  · push Not at hjmp
    rw [next?_of_not_jmp hpc hjmp, Option.some.injEq] at h
    rw [← h, hp.toNat_add_one hpc]
    omega

end Program

/-! ## What a step does -/

namespace Registers

variable {p : Program} {r : Registers}

lemma result_jump_of_none {offset : Int32} (h : jumpTarget r.pc offset = none) :
    (r.jump offset).result = (some ⟨r.pc, offset⟩, r) := by
  simp [Outcome.result, jump, h]

lemma haltPast_eq (r : Registers) (size : ℕ) :
    r.haltPast size = { r with halt := r.halt || decide (size ≤ r.pc.toNat) } := by
  by_cases h : size ≤ r.pc.toNat
  · simp [haltPast, h]
  · simp [haltPast, h]

lemma result_step_of_next? {pc : UInt64} (h : p.next? r.pc = some pc) :
    (r.step p).result =
      (none, ⟨r.acc + p.deltaAt r.pc, pc, r.halt || decide (p.size ≤ pc.toNat)⟩) := by
  unfold Program.next? at h
  unfold Program.deltaAt
  rcases hget : p.get? r.pc with _ | i
  · -- outside the program the flag is set outright
    simp only [hget, Option.some.injEq] at h
    have hsize := Program.get?_eq_none_iff.1 hget
    subst h
    simp [Outcome.result, step, hget, hsize]
  · cases i with
    | nop =>
      simp only [hget, Option.some.injEq] at h
      subst h
      simp [Outcome.result, step, hget, execute, haltPast_eq]
    | acc d =>
      simp only [hget, Option.some.injEq] at h
      subst h
      simp [Outcome.result, step, hget, execute, haltPast_eq]
    | jmp offset =>
      simp only [hget] at h
      simp [Outcome.result, step, hget, execute, jump, haltPast_eq, h]

/-- A jump to before the start faults and leaves the registers as they were. -/
lemma result_step_of_jumpTarget_eq_none {offset : Int32} (hget : p.get? r.pc = some (.jmp offset))
    (h : jumpTarget r.pc offset = none) : (r.step p).result = (some ⟨r.pc, offset⟩, r) := by
  simp [Outcome.result, step, hget, execute, jump, h]

/-- A step that leads nowhere is such a jump. -/
lemma result_step_of_next?_eq_none (h : p.next? r.pc = none) :
    ∃ offset, p.get? r.pc = some (.jmp offset) ∧ jumpTarget r.pc offset = none ∧
      (r.step p).result = (some ⟨r.pc, offset⟩, r) := by
  obtain ⟨offset, hget, htarget⟩ := Program.exists_jmp_of_next?_eq_none h
  exact ⟨offset, hget, htarget, result_step_of_jumpTarget_eq_none hget htarget⟩

/-- All that a step can do: move on, or fault where it stands. -/
lemma step_cases (p : Program) (r : Registers) :
    (∃ pc, p.next? r.pc = some pc ∧
      (r.step p).result =
        (none, ⟨r.acc + p.deltaAt r.pc, pc, r.halt || decide (p.size ≤ pc.toNat)⟩)) ∨
    (∃ offset, p.get? r.pc = some (.jmp offset) ∧ jumpTarget r.pc offset = none ∧
      (r.step p).result = (some ⟨r.pc, offset⟩, r)) := by
  rcases hnext : p.next? r.pc with _ | pc
  · exact Or.inr (result_step_of_next?_eq_none hnext)
  · exact Or.inl ⟨pc, rfl, result_step_of_next? hnext⟩

/-- A step from outside the program does nothing but set the halt flag. -/
lemma result_step_of_size_le (h : p.size ≤ r.pc.toNat) :
    (r.step p).result = (none, { r with halt := true }) := by
  rw [result_step_of_next? (p.next?_of_size_le h), p.deltaAt_of_size_le h]
  simp [h]

end Registers
end AccumulatorMachine
