import AccumulatorMachine.Proofs.Summary
import AccumulatorMachine.Proofs.Tiling

/-!
# Blocks have one entry and closed exits

Control enters a block at its start and leaves it at its last instruction.  No other instruction of
it is a jump (`IsBlock.not_jmp`), and no jump leads into the middle of it
(`IsBlock.not_jump_target`), both because a leader would then stand inside.

Where a block is left was decided when the table was built.  `exitAfter_cases` says all that this
decision can come to, in terms of the successor `Program.next?` of the last instruction: on to an
address inside the program, to one outside, or nowhere.  An exit into the program is taken to a
leader (`IsBlock.isLeader_of_next?`), and so to a block of the table.  A fault exit takes its jump
again when the block is executed, and since its target was found to lie before the start, whatever
the registers are, it faults again.
-/

namespace AccumulatorMachine
namespace Program

variable {p : Program} {start stop : ℕ}

/-- All that an exit can be. -/
lemma Addressable.exitAfter_cases (hp : p.Addressable) {last : ℕ} (hlast : last < p.size) :
    (∃ pc, p.next? (UInt64.ofNat last) = some pc ∧ pc.toNat < p.size ∧
      p.exitAfter last = .goto pc) ∨
    (∃ pc, p.next? (UInt64.ofNat last) = some pc ∧ p.size ≤ pc.toNat ∧
      p.exitAfter last = .halt pc) ∨
    (∃ offset, p.code[last]? = some (.jmp offset) ∧ (last : ℤ) + offset.toInt < 0 ∧
      p.next? (UInt64.ofNat last) = none ∧
      p.exitAfter last = .fault (UInt64.ofNat last) offset) := by
  rcases hnext : p.next? (UInt64.ofNat last) with _ | pc
  · obtain ⟨offset, hget, htarget⟩ := exists_jmp_of_next?_eq_none hnext
    have hexit := hp.exitAfter_of_jumpTarget_eq_none hlast hget htarget
    rw [hp.jumpTarget_ofNat_eq_none_iff hlast] at htarget
    rw [hp.get?_ofNat hlast.le] at hget
    exact Or.inr (Or.inr ⟨offset, hget, htarget, rfl, hexit⟩)
  · have hexit := hp.exitAfter_of_next? hlast hnext
    by_cases hpc : p.size ≤ pc.toNat
    · exact Or.inr (Or.inl ⟨pc, rfl, hpc, by rw [hexit, exitTo, if_pos hpc]⟩)
    · exact Or.inl ⟨pc, rfl, not_le.1 hpc, by rw [hexit, exitTo, if_neg hpc]⟩

lemma Addressable.exitAfter_eq_goto_iff (hp : p.Addressable) {last : ℕ} (hlast : last < p.size)
    {pc : UInt64} :
    p.exitAfter last = .goto pc ↔ p.next? (UInt64.ofNat last) = some pc ∧ pc.toNat < p.size := by
  rcases hp.exitAfter_cases hlast with hgoto | hhalt | hfault
  all_goals grind

lemma Addressable.exitAfter_eq_halt_iff (hp : p.Addressable) {last : ℕ} (hlast : last < p.size)
    {pc : UInt64} :
    p.exitAfter last = .halt pc ↔ p.next? (UInt64.ofNat last) = some pc ∧ p.size ≤ pc.toNat := by
  rcases hp.exitAfter_cases hlast with hgoto | hhalt | hfault
  all_goals grind

/-- An exit is a fault exactly when it is behind a jump to before the start. -/
lemma Addressable.exitAfter_eq_fault_iff (hp : p.Addressable) {last : ℕ} (hlast : last < p.size)
    {site : UInt64} {offset : Int32} :
    p.exitAfter last = .fault site offset ↔ site = UInt64.ofNat last ∧
      p.code[last]? = some (.jmp offset) ∧ (last : ℤ) + offset.toInt < 0 := by
  constructor
  · intro h
    rcases hp.exitAfter_cases hlast with
      ⟨pc, -, -, hexit⟩ | ⟨pc, -, -, hexit⟩ | ⟨offset', hjmp, hneg, -, hexit⟩
    · rw [hexit] at h
      cases h
    · rw [hexit] at h
      cases h
    · rw [hexit] at h
      cases h
      exact ⟨rfl, hjmp, hneg⟩
  · rintro ⟨rfl, hjmp, hneg⟩
    exact hp.exitAfter_of_jumpTarget_eq_none hlast (by rwa [hp.get?_ofNat hlast.le])
      ((hp.jumpTarget_ofNat_eq_none_iff hlast).2 hneg)

/-- No jump leads into the middle of a block. -/
lemma IsBlock.not_jump_target (h : p.IsBlock start stop) (hp : p.Addressable) {q i : ℕ}
    {offset : Int32} (hjmp : p.code[q]? = some (.jmp offset)) (hi : (q : ℤ) + offset.toInt = i) :
    ¬ (start < i ∧ i < stop) := by
  rintro ⟨hstart, hstop⟩
  have hsize : i < p.size := lt_of_lt_of_le hstop h.stop_le
  have hleader := (hp.isLeader_iff hsize).2 (Or.inr (Or.inr ⟨q, offset, hjmp, hi⟩))
  have := h.le_of_isLeader i hleader hstart
  omega

/-- From the last instruction of a block control goes to a leader, unless it leaves the program. -/
lemma IsBlock.isLeader_of_next? (h : p.IsBlock start stop) (hp : p.Addressable) {pc : UInt64}
    (hnext : p.next? (UInt64.ofNat (stop - 1)) = some pc) (hpc : pc.toNat < p.size) :
    p.IsLeader pc.toNat := by
  have hlt := h.lt
  have hle := h.stop_le
  have hget := hp.get?_ofNat (show stop - 1 ≤ p.size by omega)
  by_cases hjmp : ∃ offset, p.get? (UInt64.ofNat (stop - 1)) = some (.jmp offset)
  · obtain ⟨offset, hjmp⟩ := hjmp
    rw [next?_of_jmp hjmp] at hnext
    exact ⟨hpc, Or.inr ⟨stop - 1, offset, hget ▸ hjmp, Or.inr ⟨pc, hnext, rfl⟩⟩⟩
  · push Not at hjmp
    have hlast : (UInt64.ofNat (stop - 1)).toNat < p.size := by
      rw [hp.toNat_ofNat (by omega)]
      omega
    rw [next?_of_not_jmp hlast hjmp, address_add_one, Nat.sub_add_cancel (by omega),
      Option.some.injEq] at hnext
    rw [← hnext, hp.toNat_ofNat hle] at hpc ⊢
    exact h.stop_eq.resolve_left (by omega)

/-- A block that neither faults nor halts the machine leads to a leader. -/
lemma IsBlock.isLeader_execute (h : p.IsBlock start stop) (hp : p.Addressable) {r : Registers}
    (hf : ((p.blockBetween start stop).execute r).fault? = none)
    (hhalt : ((p.blockBetween start stop).execute r).regs.halt = false) :
    p.IsLeader ((p.blockBetween start stop).execute r).regs.pc.toNat := by
  obtain ⟨pc, hnext, hregs⟩ := h.of_execute_success hp hf
  rw [hregs] at hhalt ⊢
  simp only [Bool.or_eq_false_iff, decide_eq_false_iff_not, not_le] at hhalt
  exact h.isLeader_of_next? hp hnext hhalt.2

/-- A block with a fault exit faults with any registers. -/
lemma IsBlock.fault?_execute (h : p.IsBlock start stop) (hp : p.Addressable) {site : UInt64}
    {offset : Int32} (hexit : p.exitAfter (stop - 1) = .fault site offset) (r : Registers) :
    ((p.blockBetween start stop).execute r).fault? = some ⟨site, offset⟩ := by
  have hlt := h.lt
  have hle := h.stop_le
  have hlast : stop - 1 < p.size := by omega
  obtain ⟨rfl, hjmp, hneg⟩ := (hp.exitAfter_eq_fault_iff hlast).1 hexit
  rw [← hp.get?_ofNat hlast.le] at hjmp
  exact Outcome.fault?_of_result (hp.result_execute_of_next?_eq_none hlt hle hjmp
    ((hp.jumpTarget_ofNat_eq_none_iff hlast).2 hneg) r)

end Program

/-- **Blocks have one entry and one exit, and the exits are closed.**  Only the last instruction of
a block can be a jump, and no jump leads to a position behind its start.  An exit on to an address
leads to a block of the table, an exit that halts leads outside, and an exit that faults is the
jump at the end of the block, leads to before the start, and faults with whatever registers the
block is executed.  No other block has an exit that faults. -/
theorem block_exits_closed {p : Program} (hp : p.size < 2 ^ 59) {b : Block}
    (hb : b ∈ p.blockTable.blocks) :
    (∀ i offset, b.start.toNat ≤ i → i + 1 < b.stop.toNat → p.code[i]? ≠ some (.jmp offset)) ∧
      (∀ (q i : ℕ) (offset : Int32), p.code[q]? = some (.jmp offset) →
        (q : ℤ) + offset.toInt = i → ¬ (b.start.toNat < i ∧ i < b.stop.toNat)) ∧
      (∀ pc, b.exit = .goto pc →
        pc.toNat < p.size ∧ ∃ b', p.blockTable.blockAt pc = some b') ∧
      (∀ pc, b.exit = .halt pc → p.size ≤ pc.toNat) ∧
      (∀ site offset, b.exit = .fault site offset →
        site.toNat + 1 = b.stop.toNat ∧ p.get? site = some (.jmp offset) ∧
          (site.toNat : ℤ) + offset.toInt < 0 ∧
          ∀ r, (b.execute r).fault? = some ⟨site, offset⟩) ∧
      ((∃ site offset, b.exit = .fault site offset) ↔
        ∃ offset, p.code[b.stop.toNat - 1]? = some (.jmp offset) ∧
          ((b.stop.toNat - 1 : ℕ) : ℤ) + offset.toInt < 0) := by
  have haddr := Program.addressable_of_size_lt hp
  obtain ⟨start, stop, hblock, rfl⟩ :=
    Program.exists_isBlock_of_mem_blocks (Program.mem_blocks_blockTable_iff.1 hb)
  have hlt := hblock.lt
  have hle := hblock.stop_le
  have hlast : stop - 1 < p.size := by omega
  have hexit : (p.blockBetween start stop).exit = p.exitAfter (stop - 1) := rfl
  rw [haddr.toNat_start hblock, haddr.toNat_stop hblock, hexit]
  refine ⟨?_, ?_, ?_, ?_, ?_, ?_⟩
  · intro i offset hi hstop
    exact hblock.not_jmp hi hstop offset
  · intro q i offset hjmp hi
    exact hblock.not_jump_target haddr hjmp hi
  · intro pc h
    obtain ⟨hnext, hpc⟩ := (haddr.exitAfter_eq_goto_iff hlast).1 h
    exact ⟨hpc, haddr.exists_blockAt_iff.2 (hblock.isLeader_of_next? haddr hnext hpc)⟩
  · intro pc h
    exact ((haddr.exitAfter_eq_halt_iff hlast).1 h).2
  · intro site offset h
    obtain ⟨rfl, hjmp, hneg⟩ := (haddr.exitAfter_eq_fault_iff hlast).1 h
    rw [haddr.toNat_ofNat hlast.le, haddr.get?_ofNat hlast.le]
    exact ⟨by omega, hjmp, hneg, hblock.fault?_execute haddr h⟩
  · simp only [haddr.exitAfter_eq_fault_iff hlast]
    constructor
    · rintro ⟨site, offset, rfl, hfault⟩
      exact ⟨offset, hfault⟩
    · rintro ⟨offset, hfault⟩
      exact ⟨_, offset, rfl, hfault⟩

/-- A jump to before the start at the end of a block, executed with the halt flag set and from an
address far away. -/
theorem block_exits_closed_fault :
    (⟨0, 2, 2, .fault 1 (-5)⟩ : Block) ∈
        (⟨#[.acc 2, .jmp (-5), .jmp 7]⟩ : Program).blockTable.blocks ∧
      ((⟨0, 2, 2, .fault 1 (-5)⟩ : Block).execute ⟨40, 99, true⟩).fault? = some ⟨1, -5⟩ := by
  have hmem : (⟨0, 2, 2, .fault 1 (-5)⟩ : Block) ∈
      (⟨#[.acc 2, .jmp (-5), .jmp 7]⟩ : Program).blockTable.blocks :=
    Array.mem_of_getElem? (i := 0) (by decide)
  obtain ⟨-, -, -, -, hfault, -⟩ := block_exits_closed (by decide) hmem
  exact ⟨hmem, (hfault 1 (-5) rfl).2.2.2 _⟩

end AccumulatorMachine
