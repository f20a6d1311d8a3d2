import AccumulatorMachine.Proofs.Control
import AccumulatorMachine.Proofs.Partition
import AccumulatorMachine.Proofs.Repetition

/-!
# Blocks sum up their instructions

Executing a block comes to the same as executing its instructions one by one.  Up to the last
instruction nothing can happen but additions (`IsBlock.calls_step`), so the registers on the way
are known, and the last one goes where `Program.next?` says, which is also what the exit of the
block was resolved from.  The cases of an exit, a jump inside, past the end or to before the start
and falling off the block, are therefore only two here: control goes somewhere
(`result_execute_of_next?`) or nowhere (`result_execute_of_next?_eq_none`).

`IsBlock.result_execute` puts this together and `block_execute_eq_calls_step` states it of the
blocks of a table.
-/

namespace AccumulatorMachine

/-! ## Sums of additions -/

namespace Program

variable {p : Program} {start stop : ℕ}

lemma deltaBetween_self (p : Program) (i : ℕ) : p.deltaBetween i i = 0 := by
  rw [deltaBetween, Array.extract_eq_empty_of_le (by omega)]
  rfl

lemma Addressable.deltaBetween_succ (hp : p.Addressable) (hle : start ≤ stop)
    (hlt : stop < p.size) :
    p.deltaBetween start (stop + 1) =
      p.deltaBetween start stop + p.deltaAt (UInt64.ofNat stop) := by
  have hget : p.get? (UInt64.ofNat stop) = some p.code[stop] := by
    rw [hp.get?_ofNat hlt.le]
    exact Array.getElem?_eq_getElem hlt
  rw [deltaBetween, Array.extract_succ_right (by omega) hlt, Array.foldl_push, deltaAt, hget]
  rfl

/-! ## Exits -/

lemma result_execute_exitTo (p : Program) (pc : UInt64) (r : Registers) :
    ((p.exitTo pc).execute r).result =
      (none, { r with pc := pc, halt := r.halt || decide (p.size ≤ pc.toNat) }) := by
  by_cases h : p.size ≤ pc.toNat
  · simp [exitTo, Exit.execute, Outcome.result, h]
  · simp [exitTo, Exit.execute, Outcome.result, h]

lemma Addressable.exitAfter_of_next? (hp : p.Addressable) {last : ℕ} (hlast : last < p.size)
    {pc : UInt64} (h : p.next? (UInt64.ofNat last) = some pc) :
    p.exitAfter last = p.exitTo pc := by
  unfold exitAfter
  split
  · rename_i offset hjmp
    rw [← hp.get?_ofNat hlast.le] at hjmp
    rw [next?_of_jmp hjmp] at h
    rw [h]
  · rename_i hstraight
    rw [next?_of_not_jmp (by rwa [hp.toNat_ofNat hlast.le]), address_add_one,
      Option.some.injEq] at h
    · rw [h]
    · intro offset
      rw [hp.get?_ofNat hlast.le]
      exact hstraight offset

lemma Addressable.exitAfter_of_jumpTarget_eq_none (hp : p.Addressable) {last : ℕ}
    (hlast : last < p.size) {offset : Int32}
    (hjmp : p.get? (UInt64.ofNat last) = some (.jmp offset))
    (h : jumpTarget (UInt64.ofNat last) offset = none) :
    p.exitAfter last = .fault (UInt64.ofNat last) offset := by
  rw [hp.get?_ofNat hlast.le] at hjmp
  simp only [exitAfter, hjmp, h]

/-- A block whose last instruction leads somewhere goes there. -/
lemma Addressable.result_execute_of_next? (hp : p.Addressable) (hlt : start < stop)
    (hstop : stop ≤ p.size) {pc : UInt64} (h : p.next? (UInt64.ofNat (stop - 1)) = some pc)
    (r : Registers) :
    ((p.blockBetween start stop).execute r).result =
      (none, ⟨r.acc + p.deltaBetween start stop, pc, r.halt || decide (p.size ≤ pc.toNat)⟩) := by
  rw [Block.execute, blockBetween, hp.exitAfter_of_next? (by omega) h, result_execute_exitTo]

/-- A block whose last instruction leads nowhere faults there. -/
lemma Addressable.result_execute_of_next?_eq_none (hp : p.Addressable) (hlt : start < stop)
    (hstop : stop ≤ p.size) {offset : Int32}
    (hjmp : p.get? (UInt64.ofNat (stop - 1)) = some (.jmp offset))
    (h : jumpTarget (UInt64.ofNat (stop - 1)) offset = none) (r : Registers) :
    ((p.blockBetween start stop).execute r).result =
      (some ⟨UInt64.ofNat (stop - 1), offset⟩,
        ⟨r.acc + p.deltaBetween start stop, UInt64.ofNat (stop - 1), r.halt⟩) := by
  rw [Block.execute, blockBetween, hp.exitAfter_of_jumpTarget_eq_none (by omega) hjmp h]
  exact Registers.result_jump_of_none h

/-! ## From the start of a block to its end -/

/-- Before the last instruction of a block is executed, control has moved straight on and the
additions so far have been made. -/
lemma IsBlock.calls_step (h : p.IsBlock start stop) (hp : p.Addressable) {r : Registers}
    (hr : r.pc = UInt64.ofNat start) {k : ℕ} (hk : start + k < stop) :
    (calls (·.step p) k r).result =
      (none, ⟨r.acc + p.deltaBetween start (start + k), UInt64.ofNat (start + k), r.halt⟩) := by
  have hstop := h.stop_le
  induction k with
  | zero => simp [calls, Outcome.result, deltaBetween_self, ← hr]
  | succ k ih =>
    obtain ⟨hfault, hregs⟩ := Outcome.result_eq_iff.1 (ih (by omega))
    have hnext : p.next? (UInt64.ofNat (start + k)) = some (UInt64.ofNat (start + k + 1)) := by
      rw [next?_of_not_jmp, address_add_one]
      · rw [hp.toNat_ofNat (by omega)]
        omega
      · intro offset
        rw [hp.get?_ofNat (by omega)]
        exact h.not_jmp (by omega) (by omega) offset
    have hinside : ¬ p.size ≤ (UInt64.ofNat (start + k + 1)).toNat := by
      rw [hp.toNat_ofNat (by omega)]
      omega
    calc (calls (·.step p) (k + 1) r).result
        = (Registers.step ⟨r.acc + p.deltaBetween start (start + k), UInt64.ofNat (start + k),
            r.halt⟩ p).result := by rw [calls_succ_last hfault, hregs]
      _ = _ := by
        rw [Registers.result_step_of_next? hnext, ← Nat.add_assoc,
          hp.deltaBetween_succ (by omega) (by omega)]
        simp only [hinside, decide_false, Bool.or_false, Int64.add_assoc]

/-- Before the last instruction of a block nothing is settled. -/
lemma IsBlock.settled_calls_step (h : p.IsBlock start stop) (hp : p.Addressable) {r : Registers}
    (hr : r.pc = UInt64.ofNat start) (hhalt : r.halt = false) {k : ℕ} (hk : start + k < stop) :
    (calls (·.step p) k r).settled = false := by
  obtain ⟨hfault, hregs⟩ := Outcome.result_eq_iff.1 (h.calls_step hp hr hk)
  exact Outcome.settled_eq_false_iff.2 ⟨hfault, by rw [hregs, hhalt]⟩

/-- Executing a block is executing its instructions one by one. -/
lemma IsBlock.result_execute (h : p.IsBlock start stop) (hp : p.Addressable) {r : Registers}
    (hr : r.pc = UInt64.ofNat start) :
    ((p.blockBetween start stop).execute r).result =
      (calls (·.step p) (stop - start) r).result := by
  have hlt := h.lt
  have hstop := h.stop_le
  obtain ⟨k, hk⟩ : ∃ k, stop - start = k + 1 := ⟨stop - start - 1, by omega⟩
  have hlast : stop - 1 = start + k := by omega
  obtain ⟨hfault, hregs⟩ := Outcome.result_eq_iff.1 (h.calls_step hp hr (k := k) (by omega))
  have hsum : p.deltaBetween start stop =
      p.deltaBetween start (start + k) + p.deltaAt (UInt64.ofNat (start + k)) := by
    rw [← hp.deltaBetween_succ (by omega) (by omega), ← hlast, Nat.sub_add_cancel (by omega)]
  rw [hk, calls_succ_last hfault, hregs]
  rcases hnext : p.next? (UInt64.ofNat (start + k)) with _ | pc
  · obtain ⟨offset, hget, htarget, hstep⟩ := Registers.result_step_of_next?_eq_none
      (r := ⟨r.acc + p.deltaBetween start (start + k), UInt64.ofNat (start + k), r.halt⟩) hnext
    dsimp only at hget htarget hstep
    rw [hstep, hp.result_execute_of_next?_eq_none hlt hstop (by rwa [hlast]) (by rwa [hlast]),
      hsum, deltaAt_of_jmp hget, Int64.add_zero, hlast]
  · rw [Registers.result_step_of_next? hnext,
      hp.result_execute_of_next? hlt hstop (by rwa [hlast]), hsum, Int64.add_assoc]

/-- A block that does not fault goes where its last instruction leads. -/
lemma IsBlock.of_execute_success (h : p.IsBlock start stop) (hp : p.Addressable) {r : Registers}
    (hf : ((p.blockBetween start stop).execute r).fault? = none) :
    ∃ pc, p.next? (UInt64.ofNat (stop - 1)) = some pc ∧
      ((p.blockBetween start stop).execute r).regs =
        ⟨r.acc + p.deltaBetween start stop, pc, r.halt || decide (p.size ≤ pc.toNat)⟩ := by
  rcases hnext : p.next? (UInt64.ofNat (stop - 1)) with _ | pc
  · obtain ⟨offset, hget, htarget⟩ := exists_jmp_of_next?_eq_none hnext
    rw [Outcome.fault?_of_result
      (hp.result_execute_of_next?_eq_none h.lt h.stop_le hget htarget r)] at hf
    cases hf
  · exact ⟨pc, rfl, Outcome.regs_of_result (hp.result_execute_of_next? h.lt h.stop_le hnext r)⟩

/-- A block that faults has made all its additions and stands at its last instruction, a jump. -/
lemma IsBlock.of_execute_fault (h : p.IsBlock start stop) (hp : p.Addressable) {r : Registers}
    {f : JumpFault} (hf : ((p.blockBetween start stop).execute r).fault? = some f) :
    f.pc = UInt64.ofNat (stop - 1) ∧ p.get? f.pc = some (.jmp f.offset) ∧
      jumpTarget f.pc f.offset = none ∧
      ((p.blockBetween start stop).execute r).regs =
        ⟨r.acc + p.deltaBetween start stop, f.pc, r.halt⟩ := by
  rcases hnext : p.next? (UInt64.ofNat (stop - 1)) with _ | pc
  · obtain ⟨offset, hget, htarget⟩ := exists_jmp_of_next?_eq_none hnext
    obtain ⟨hfault, hregs⟩ := Outcome.result_eq_iff.1
      (hp.result_execute_of_next?_eq_none h.lt h.stop_le hget htarget r)
    obtain rfl : f = ⟨UInt64.ofNat (stop - 1), offset⟩ := by simpa [hfault] using hf.symm
    exact ⟨rfl, hget, htarget, hregs⟩
  · obtain ⟨hnone, -⟩ := Outcome.result_eq_iff.1
      (hp.result_execute_of_next? h.lt h.stop_le hnext r)
    rw [hnone] at hf
    cases hf

end Program

/-- **Every block is a correct summary of its instructions.**  Started at the first of them, with
any accumulator and either state of the halt flag, the instructions before the last one succeed and
leave the flag alone, and the block gives the result of them all.  If that is a fault, it is the
fault of the last instruction, a jump to before the start, and all additions have been made. -/
theorem block_execute_eq_calls_step {p : Program} (hp : p.size < 2 ^ 59) {b : Block}
    (hb : b ∈ p.blockTable.blocks) {r : Registers} (hr : r.pc = b.start) :
    b.start.toNat < b.stop.toNat ∧
    (∀ k < b.stop.toNat - b.start.toNat,
      (calls (·.step p) k r).fault? = none ∧
        (calls (·.step p) k r).regs.pc.toNat = b.start.toNat + k ∧
        (calls (·.step p) k r).regs.halt = r.halt) ∧
    (b.execute r).result = (calls (·.step p) (b.stop.toNat - b.start.toNat) r).result ∧
    ∀ f, (b.execute r).fault? = some f →
      f.pc.toNat + 1 = b.stop.toNat ∧ p.get? f.pc = some (.jmp f.offset) ∧
        (f.pc.toNat : ℤ) + f.offset.toInt < 0 ∧
        (b.execute r).regs =
          ⟨r.acc + p.deltaBetween b.start.toNat b.stop.toNat, f.pc, r.halt⟩ := by
  have haddr := Program.addressable_of_size_lt hp
  obtain ⟨start, stop, hblock, rfl⟩ :=
    Program.exists_isBlock_of_mem_blocks (Program.mem_blocks_blockTable_iff.1 hb)
  have hlt := hblock.lt
  have hle := hblock.stop_le
  have hstart : (p.blockBetween start stop).start.toNat = start := haddr.toNat_ofNat (by omega)
  have hstop : (p.blockBetween start stop).stop.toNat = stop := haddr.toNat_ofNat hle
  rw [hstart, hstop]
  refine ⟨hlt, ?_, hblock.result_execute haddr hr, ?_⟩
  · intro k hk
    obtain ⟨hfault, hregs⟩ :=
      Outcome.result_eq_iff.1 (hblock.calls_step haddr hr (k := k) (by omega))
    rw [hfault, hregs]
    exact ⟨rfl, haddr.toNat_ofNat (by omega), rfl⟩
  · intro f hf
    obtain ⟨hpc, hget, htarget, hregs⟩ := hblock.of_execute_fault haddr hf
    have hlast : f.pc.toNat = stop - 1 := by rw [hpc, haddr.toNat_ofNat (by omega)]
    exact ⟨by omega, hget, (haddr.jumpTarget_eq_none_iff (by omega)).1 htarget, hregs⟩

/-- An addition and a jump to before the start, executed as a block and one by one. -/
theorem block_execute_eq_calls_step_of_fault :
    (⟨0, 2, 4, .fault 1 (-2)⟩ : Block) ∈ (⟨#[.acc 4, .jmp (-2)]⟩ : Program).blockTable.blocks ∧
      ((⟨0, 2, 4, .fault 1 (-2)⟩ : Block).execute ⟨1, 0, false⟩).result =
        (some ⟨1, -2⟩, ⟨5, 1, false⟩) ∧
      ((⟨0, 2, 4, .fault 1 (-2)⟩ : Block).execute ⟨1, 0, false⟩).result =
        (calls (·.step ⟨#[.acc 4, .jmp (-2)]⟩) 2 ⟨1, 0, false⟩).result := by
  have hmem : (⟨0, 2, 4, .fault 1 (-2)⟩ : Block) ∈
      (⟨#[.acc 4, .jmp (-2)]⟩ : Program).blockTable.blocks :=
    Array.mem_of_getElem? (i := 0) (by decide)
  exact ⟨hmem, by decide, (block_execute_eq_calls_step (by decide) hmem rfl).2.2.1⟩

end AccumulatorMachine
