import AccumulatorMachine.Proofs.Rest

/-!
# Programs can be moved

The offset of a jump is relative to the place of the jump, so a program does the same wherever it
stands.  Here it is moved by instructions without jumps that are put in front of it.  They are
executed once, one after the other, and add up what they add up (`result_calls_step_prepend`); from
then on every step of the one program is a step of the other at an address that is further on by as
many instructions (`Placed.result_step_moveBy`).

There is one difference.  A jump to before the start of the program leads into the instructions in
front of it, unless it leads to before those as well.  So a loop that ends without a fault, or with
a fault that is one at both places, ends the same way at both (`Loop.moveBy`).  Conversely the moved
loop ends only if the other one does (`exists_loop_of_moveBy`), with a fault or without.

The blocks of the two programs can be very different, since what stands in front becomes a part of
the first block or a block of its own.  Runs end as single steps do, so blocks play no part here.
-/

namespace AccumulatorMachine

/-- What some instructions add to the accumulator, one after the other. -/
def totalDelta (is : List Instruction) : Int64 :=
  is.foldl (fun sum i => sum + i.delta) 0

lemma totalDelta_append_singleton (is : List Instruction) (i : Instruction) :
    totalDelta (is ++ [i]) = totalDelta is + i.delta := by
  simp [totalDelta]

/-! ## Moved addresses -/

lemma toNat_add_ofNat {pc : UInt64} {k : ℕ} (h : pc.toNat + k < 2 ^ 64) :
    (pc + UInt64.ofNat k).toNat = pc.toNat + k := by
  rw [UInt64.toNat_add, UInt64.toNat_ofNat_of_lt' (by simp only [UInt64.size]; omega)]
  exact Nat.mod_eq_of_lt h

/-- The registers with the address so many instructions further on. -/
def Registers.moveBy (k : ℕ) (r : Registers) : Registers :=
  { r with pc := r.pc + UInt64.ofNat k }

/-- The same jump, so many instructions further on. -/
def JumpFault.moveBy (k : ℕ) (f : JumpFault) : JumpFault :=
  { f with pc := f.pc + UInt64.ofNat k }

namespace Program

/-- The program with some instructions put in front of its own. -/
def prepend (front : List Instruction) (p : Program) : Program :=
  ⟨front.toArray ++ p.code⟩

variable {p : Program} {front : List Instruction} {pc pc' : UInt64}

lemma size_prepend (front : List Instruction) (p : Program) :
    (p.prepend front).size = front.length + p.size := by
  simp [prepend, size]

lemma getElem?_prepend_of_lt {i : ℕ} (hi : i < front.length) :
    (p.prepend front).code[i]? = front[i]? := by
  simp [prepend, Array.getElem?_append_left, hi]

lemma addressable_of_prepend (hp : (p.prepend front).Addressable) : p.Addressable := by
  unfold Addressable at hp ⊢
  rw [size_prepend] at hp
  omega

lemma get?_prepend (h : pc.toNat + front.length < 2 ^ 64) :
    (p.prepend front).get? (pc + UInt64.ofNat front.length) = p.get? pc := by
  rw [get?, toNat_add_ofNat h]
  simp [prepend, get?, Array.getElem?_append_right]

lemma deltaAt_prepend (h : pc.toNat + front.length < 2 ^ 64) :
    (p.prepend front).deltaAt (pc + UInt64.ofNat front.length) = p.deltaAt pc := by
  rw [deltaAt, get?_prepend h, deltaAt]

/-- Where control goes from a moved address is where it went, moved. -/
lemma next?_prepend (hp : (p.prepend front).Addressable) (h : pc.toNat + front.length < 2 ^ 64)
    (hnext : p.next? pc = some pc') :
    (p.prepend front).next? (pc + UInt64.ofNat front.length) =
      some (pc' + UInt64.ofNat front.length) := by
  have hmoved := toNat_add_ofNat h
  by_cases hpc : pc.toNat < p.size
  · have hpc' : (pc + UInt64.ofNat front.length).toNat < (p.prepend front).size := by
      rw [hmoved, size_prepend]
      omega
    by_cases hjmp : ∃ offset, p.get? pc = some (.jmp offset)
    · obtain ⟨offset, hjmp⟩ := hjmp
      have hlt := offset.toInt_lt
      rw [next?_of_jmp hjmp, (addressable_of_prepend hp).jumpTarget_eq_some_iff hpc] at hnext
      rw [next?_of_jmp (by rwa [get?_prepend h]), hp.jumpTarget_eq_some_iff hpc', hmoved,
        toNat_add_ofNat, Nat.cast_add, Nat.cast_add]
      · omega
      · unfold Addressable at hp
        rw [size_prepend] at hp
        omega
    · push Not at hjmp
      rw [next?_of_not_jmp hpc hjmp, Option.some.injEq] at hnext
      rw [next?_of_not_jmp hpc' (by simpa [get?_prepend h] using hjmp), ← hnext,
        UInt64.add_assoc, UInt64.add_comm _ 1, UInt64.add_assoc]
  · rw [next?_of_size_le (not_lt.1 hpc), Option.some.injEq] at hnext
    rw [next?_of_size_le, hnext]
    rw [hmoved, size_prepend]
    omega

/-- A jump that leads to before the instructions in front as well leads nowhere. -/
lemma jumpTarget_prepend_eq_none (hp : (p.prepend front).Addressable) {offset : Int32}
    (hpc : pc.toNat < p.size) (hneg : (pc.toNat : ℤ) + front.length + offset.toInt < 0) :
    jumpTarget (pc + UInt64.ofNat front.length) offset = none := by
  have hlt : pc.toNat + front.length < (p.prepend front).size := by
    rw [size_prepend]
    omega
  have hmoved : (pc + UInt64.ofNat front.length).toNat = pc.toNat + front.length := by
    apply toNat_add_ofNat
    unfold Addressable at hp
    omega
  rw [hp.jumpTarget_eq_none_iff (by rwa [hmoved]), hmoved, Nat.cast_add]
  exact hneg

end Program

/-! ## Steps and loops at moved addresses -/

section Moved

variable {p : Program} {front : List Instruction} {r : Registers} {o : Outcome} {n : ℕ}

namespace Registers.Placed

lemma toNat_add_lt (h : r.Placed p) (hp : (p.prepend front).Addressable) :
    r.pc.toNat + front.length < 2 ^ 64 := by
  have hle := h.pc_le
  unfold Program.Addressable at hp
  rw [Program.size_prepend] at hp
  omega

/-- A step at a moved address is the step moved, unless it is a jump to before the start of the one
program that stays inside the other. -/
lemma result_step_moveBy (h : r.Placed p) (hp : (p.prepend front).Addressable)
    (hneg : ∀ f, (r.step p).fault? = some f →
      (f.pc.toNat : ℤ) + front.length + f.offset.toInt < 0) :
    ((r.moveBy front.length).step (p.prepend front)).result =
      Prod.map (Option.map (JumpFault.moveBy front.length)) (moveBy front.length)
        (r.step p).result := by
  have hlt := h.toNat_add_lt hp
  rcases r.step_cases p with ⟨pc, hnext, hstep⟩ | ⟨offset, hget, htarget, hstep⟩
  · have hplaced := h.step (Program.addressable_of_prepend hp)
    rw [Outcome.regs_of_result hstep] at hplaced
    have hlt' : pc.toNat + front.length < 2 ^ 64 := hplaced.toNat_add_lt hp
    have hsize : (p.prepend front).size ≤ (pc + UInt64.ofNat front.length).toNat ↔
        p.size ≤ pc.toNat := by
      rw [toNat_add_ofNat hlt', Program.size_prepend]
      omega
    rw [hstep, result_step_of_next? (r := r.moveBy front.length)
      (Program.next?_prepend hp hlt hnext)]
    simp only [moveBy, Program.deltaAt_prepend hlt, hsize, Prod.map_apply, Option.map_none]
  · have hneg' := hneg _ (Outcome.fault?_of_result hstep)
    rw [hstep, result_step_of_jumpTarget_eq_none (r := r.moveBy front.length)
      ((Program.get?_prepend hlt).trans hget)
      (Program.jumpTarget_prepend_eq_none hp (Program.lt_size_of_get? hget) hneg')]
    rfl

lemma result_step_moveBy_of_success (h : r.Placed p) (hp : (p.prepend front).Addressable)
    (hf : (r.step p).fault? = none) :
    ((r.moveBy front.length).step (p.prepend front)).result =
      (none, (r.step p).regs.moveBy front.length) := by
  rw [h.result_step_moveBy hp (by simp [hf]), Outcome.result, hf]
  rfl

end Registers.Placed

/-- A loop that comes back without a fault, or with one that stays a fault, comes back from moved
registers in as many passes and with the moved result. -/
lemma Loop.moveBy (hloop : Loop (·.step p) n r o) (h : r.Placed p)
    (hp : (p.prepend front).Addressable)
    (hneg : ∀ f, o.fault? = some f → (f.pc.toNat : ℤ) + front.length + f.offset.toInt < 0) :
    ∃ o', Loop (·.step (p.prepend front)) n (r.moveBy front.length) o' ∧
      o'.result = Prod.map (Option.map (JumpFault.moveBy front.length))
        (Registers.moveBy front.length) o.result := by
  induction hloop with
  | done hr => exact ⟨_, .done hr, rfl⟩
  | @fault r f hr hf =>
    have hstep := h.result_step_moveBy hp hneg
    obtain ⟨hfault, -⟩ := Outcome.result_eq_iff.1 hstep
    exact ⟨_, .fault hr (hfault.trans (congrArg (Option.map _) hf)), hstep⟩
  | @pass n r o hr hf _ ih =>
    obtain ⟨hfault, hregs⟩ := Outcome.result_eq_iff.1 (h.result_step_moveBy_of_success hp hf)
    obtain ⟨o', hloop', hres⟩ := ih (h.step (Program.addressable_of_prepend hp)) hneg
    rw [← hregs] at hloop'
    exact ⟨_, .pass hr hfault hloop', hres⟩

lemma Returns.moveBy {fault? : Option JumpFault} {r' : Registers}
    (hreturns : Returns (·.step p) r (fault?, r')) (h : r.Placed p)
    (hp : (p.prepend front).Addressable)
    (hneg : ∀ f, fault? = some f → (f.pc.toNat : ℤ) + front.length + f.offset.toInt < 0) :
    Returns (·.step (p.prepend front)) (r.moveBy front.length)
      (fault?.map (JumpFault.moveBy front.length), r'.moveBy front.length) := by
  obtain ⟨n, o, hloop, hresult⟩ := hreturns
  obtain ⟨rfl, rfl⟩ := Outcome.result_eq_iff.1 hresult
  obtain ⟨o', hloop', hres⟩ := hloop.moveBy h hp hneg
  exact ⟨n, o', hloop', hres⟩

/-- A loop that comes back from moved registers comes back from the others. -/
lemma exists_loop_of_moveBy (hloop : Loop (·.step (p.prepend front)) n (r.moveBy front.length) o)
    (h : r.Placed p) (hp : (p.prepend front).Addressable) :
    ∃ n' o', Loop (·.step p) n' r o' := by
  induction n generalizing r o with
  | zero =>
    cases hloop with
    | done hr => exact ⟨0, _, .done hr⟩
  | succ n ih =>
    by_cases hr : r.halt = true
    · exact ⟨0, _, .done hr⟩
    rw [Bool.not_eq_true] at hr
    -- where the step faults, the loop is over, even if the moved one goes on in front
    rcases hf : (r.step p).fault? with _ | f
    · obtain ⟨hfault, hregs⟩ := Outcome.result_eq_iff.1 (h.result_step_moveBy_of_success hp hf)
      cases hloop with
      | fault _ hf' =>
        rw [hfault] at hf'
        cases hf'
      | pass _ _ hrest =>
        rw [hregs] at hrest
        obtain ⟨n', o', hloop'⟩ := ih hrest (h.step (Program.addressable_of_prepend hp))
        exact ⟨n' + 1, _, .pass hr hf hloop'⟩
    · exact ⟨1, _, .fault hr hf⟩

end Moved

/-! ## The instructions in front -/

namespace Machine

variable {p : Program} {front : List Instruction}

/-- The instructions in front are executed one after the other. -/
lemma result_calls_step_prepend (hp : (p.prepend front).Addressable)
    (hfront : ∀ offset, .jmp offset ∉ front) (seed : Int64) {k : ℕ} (hk : k ≤ front.length) :
    (calls (·.step (p.prepend front)) k (ofProgram (p.prepend front) seed).regs).result =
      (none, ⟨seed + totalDelta (front.take k), UInt64.ofNat k,
        decide ((p.prepend front).size ≤ k)⟩) := by
  have hsize := Program.size_prepend front p
  induction k with
  | zero =>
    simp [calls, Outcome.result, ofProgram, totalDelta, Program.isEmpty_eq_decide]
  | succ k ih =>
    obtain ⟨hfault, hregs⟩ := Outcome.result_eq_iff.1 (ih (by omega))
    have hget : (p.prepend front).get? (UInt64.ofNat k) = some front[k] := by
      rw [hp.get?_ofNat (by omega), Program.getElem?_prepend_of_lt hk,
        List.getElem?_eq_getElem hk]
    have hnext : (p.prepend front).next? (UInt64.ofNat k) = some (UInt64.ofNat (k + 1)) := by
      rw [Program.next?_of_not_jmp, address_add_one]
      · rw [hp.toNat_ofNat (by omega)]
        omega
      · intro offset hjmp
        rw [hget, Option.some.injEq] at hjmp
        exact hfront offset (hjmp ▸ List.getElem_mem hk)
    have hdelta : (p.prepend front).deltaAt (UInt64.ofNat k) = front[k].delta := by
      simp only [Program.deltaAt, hget]
    have hinside : ¬ (p.prepend front).size ≤ k := by omega
    rw [calls_succ_last hfault, hregs, Registers.result_step_of_next? hnext, hdelta,
      hp.toNat_ofNat (by omega), ← List.take_append_getElem hk, totalDelta_append_singleton]
    simp only [hinside, decide_false, Bool.false_or, Int64.add_assoc]

/-- Execution behind the instructions in front goes on from where the other program starts. -/
lemma returns_prepend_iff (hp : (p.prepend front).Addressable)
    (hfront : ∀ offset, .jmp offset ∉ front) {seed : Int64}
    {res : Option JumpFault × Registers} :
    Returns (·.step (p.prepend front)) (ofProgram (p.prepend front) seed).regs res ↔
      Returns (·.step (p.prepend front))
        ((ofProgram p (seed + totalDelta front)).regs.moveBy front.length) res := by
  have hsize := Program.size_prepend front p
  obtain ⟨hfault, hregs⟩ := Outcome.result_eq_iff.1
    (result_calls_step_prepend hp hfront seed le_rfl)
  have hstart : (calls (·.step (p.prepend front)) front.length
      (ofProgram (p.prepend front) seed).regs).regs =
        (ofProgram p (seed + totalDelta front)).regs.moveBy front.length := by
    have hempty : p.size = 0 ↔ (p.prepend front).size ≤ front.length := by omega
    rw [hregs, List.take_length]
    simp [ofProgram, Registers.moveBy, Program.isEmpty_eq_decide, hempty]
  rw [← hstart, returns_calls_iff hfault]
  intro i hi
  obtain ⟨hfault, hregs⟩ := Outcome.result_eq_iff.1
    (result_calls_step_prepend hp hfront seed hi.le)
  rw [Outcome.settled_eq_false_iff, hregs]
  exact ⟨hfault, decide_eq_false (by omega)⟩

/-- A run that ends without a fault, or with one that stays a fault, ends behind the instructions
in front with the moved result. -/
lemma exists_run?_prepend (hp : (p.prepend front).Addressable)
    (hfront : ∀ offset, .jmp offset ∉ front) {seed : Int64} {o : Outcome}
    (hrun : (ofProgram p (seed + totalDelta front)).run? = some o)
    (hneg : ∀ f, o.fault? = some f → (f.pc.toNat : ℤ) + front.length + f.offset.toInt < 0) :
    ∃ o', (ofProgram (p.prepend front) seed).run? = some o' ∧
      o'.fault? = o.fault?.map (JumpFault.moveBy front.length) ∧
      o'.regs = o.regs.moveBy front.length := by
  have hreturns := returns_of_run? (m := ofProgram p (seed + totalDelta front))
    (Program.addressable_of_prepend hp) hrun rfl
  have hmoved := Returns.moveBy hreturns (placed_ofProgram p _) hp hneg
  obtain ⟨o', hrun', hresult⟩ := (exists_run?_iff_returns_stepFrom
    (m := ofProgram (p.prepend front) seed) hp).2 ((returns_prepend_iff hp hfront).2 hmoved)
  exact ⟨o', hrun', Outcome.result_eq_iff.1 hresult⟩

/-- **Jumps are independent of position.**  Put instructions without a jump in front of a program,
and compare with the program itself, started with what they add up.  If its run ends without a
fault, so does the run of the longer program, with the same accumulator, at an address further on by
as many instructions, and both have halted.  If it never ends, neither does the other.  If it faults
and the target of its jump lies before the instructions in front as well, the other run faults at
the moved jump, with the same accumulator. -/
theorem run?_position_independent {p : Program} {front : List Instruction}
    (hfront : ∀ offset, .jmp offset ∉ front) (hsize : front.length + p.size < 2 ^ 59)
    (seed : Int64) :
    (∀ o, (ofProgram p (seed + totalDelta front)).run? = some o → o.fault? = none →
      ∃ o', (ofProgram (p.prepend front) seed).run? = some o' ∧ o'.fault? = none ∧
        o'.regs.acc = o.regs.acc ∧ o'.regs.pc.toNat = o.regs.pc.toNat + front.length ∧
        o.regs.halt = true ∧ o'.regs.halt = true) ∧
      ((ofProgram p (seed + totalDelta front)).run? = none →
        (ofProgram (p.prepend front) seed).run? = none) ∧
      ∀ o f, (ofProgram p (seed + totalDelta front)).run? = some o → o.fault? = some f →
        (f.pc.toNat : ℤ) + front.length + f.offset.toInt < 0 →
        ∃ o' f', (ofProgram (p.prepend front) seed).run? = some o' ∧ o'.fault? = some f' ∧
          f'.pc.toNat = f.pc.toNat + front.length ∧ f'.offset = f.offset ∧
          o'.regs.acc = o.regs.acc := by
  have haddr : (p.prepend front).Addressable :=
    Program.addressable_of_size_lt (by rwa [Program.size_prepend])
  have haddr' : (ofProgram p (seed + totalDelta front)).program.Addressable :=
    Program.addressable_of_prepend haddr
  have hplaced := placed_ofProgram p (seed + totalDelta front)
  refine ⟨?_, ?_, ?_⟩
  · intro o hrun hf
    have hreturns := returns_of_run? haddr' hrun hf
    have hlt := (hplaced.of_returns haddr' hreturns).toNat_add_lt haddr
    obtain ⟨o', hrun', hfault, hregs⟩ := exists_run?_prepend haddr hfront hrun (by simp [hf])
    rw [hf, Option.map_none] at hfault
    refine ⟨o', hrun', hfault, ?_⟩
    rw [hregs]
    exact ⟨rfl, toNat_add_ofNat hlt, hreturns.halt, hreturns.halt⟩
  · intro hnone
    by_contra hrun
    obtain ⟨o', hrun⟩ := Option.ne_none_iff_exists'.1 hrun
    have hreturns := (exists_run?_iff_returns_stepFrom
      (m := ofProgram (p.prepend front) seed) haddr).1 ⟨o', hrun, rfl⟩
    obtain ⟨n, _, hloop, -⟩ := (returns_prepend_iff haddr hfront).1 hreturns
    obtain ⟨n', o, hloop'⟩ := exists_loop_of_moveBy hloop hplaced haddr
    obtain ⟨o'', hrun', -⟩ := (exists_run?_iff_returns_stepFrom haddr').2 ⟨n', o, hloop', rfl⟩
    rw [hnone] at hrun'
    cases hrun'
  · intro o f hrun hf hneg
    have hreturns := returns_of_run? haddr' hrun hf
    have hlt : o.regs.pc.toNat + front.length < 2 ^ 64 :=
      (hplaced.of_returns haddr' hreturns).toNat_add_lt haddr
    rw [hreturns.stuckAt.pc_eq] at hlt
    obtain ⟨o', hrun', hfault, hregs⟩ :=
      exists_run?_prepend haddr hfront hrun (by simpa [hf] using hneg)
    rw [hf, Option.map_some] at hfault
    exact ⟨o', _, hrun', hfault, toNat_add_ofNat hlt, rfl, by rw [hregs]; rfl⟩

/-- A jump past the end from behind two instructions, and a jump that leads to before them. -/
theorem run?_position_independent_behind_two :
    (∃ o', (ofProgram (Program.prepend [.acc 5, .nop] ⟨#[.jmp 2, .acc 7, .jmp 5]⟩) 1).run? =
        some o' ∧ o'.fault? = none ∧ o'.regs.acc = 6 ∧ o'.regs.pc.toNat = 9) ∧
      ∃ o' f', (ofProgram (Program.prepend [.acc 5, .nop] ⟨#[.acc 1, .jmp (-4)]⟩) 1).run? =
        some o' ∧ o'.fault? = some f' ∧ f'.pc.toNat = 3 ∧ f'.offset = -4 ∧ o'.regs.acc = 7 := by
  have hfront : ∀ offset, Instruction.jmp offset ∉ [Instruction.acc 5, .nop] := by simp
  refine ⟨?_, ?_⟩
  · obtain ⟨o', hrun, hfault, hacc, hpc, -⟩ :=
      (run?_position_independent (p := ⟨#[.jmp 2, .acc 7, .jmp 5]⟩) hfront (by decide) 1).1 _ rfl
        (by decide)
    exact ⟨o', hrun, hfault, hacc, hpc⟩
  · exact (run?_position_independent (p := ⟨#[.acc 1, .jmp (-4)]⟩) hfront (by decide) 1).2.2 _
      ⟨1, -4⟩ rfl (by decide) (by decide)

end Machine
end AccumulatorMachine
