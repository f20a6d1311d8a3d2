import AccumulatorMachine.Proofs.Dependence
import AccumulatorMachine.Proofs.Messages

/-!
# The journal of a run

A run leaves an event behind after each turn that succeeds and one more at its end.  Turns are
coarser than single steps, so these events cannot show every state that single steps come to.  They
show a sample of them, and which one is decided by the block table alone: the states up to the first
one at a boundary of the blocks, and from there on the states at the boundaries.

`trail` lists the states that single steps come to, and `sample` takes its pick.  The events are
compared with it turn by turn.  A turn through a block passes over states inside the block, none of
them at a boundary, and ends at one; a turn that is a single step passes over nothing.  Either way
the state it shows is the next one of the sample (`exists_steps_of_turnFrom`).  A turn that faults
shows no state, and there is none left for it to show.

What is printed of an event is a line, and a line has to tell what it is about.  The numbers on it
end at separators that they do not contain, so they can be read back: equal lines are about equal
addresses and accumulators, and at the end of a run about equal registers or equal faults.
-/

namespace AccumulatorMachine

/-! ## The states on the way -/

/-- The registers after each of `n` calls in a row, up to the first that faults. -/
def trail (body : Registers → Outcome) : ℕ → Registers → List Registers
  | 0, _ => []
  | n + 1, r =>
    match (body r).fault? with
    | some _ => []
    | none => (body r).regs :: trail body n (body r).regs

section

variable {body : Registers → Outcome} {r c : Registers} {f : JumpFault} {k n : ℕ}

lemma trail_succ (h : (body r).fault? = none) :
    trail body (n + 1) r = (body r).regs :: trail body n (body r).regs := by
  simp [trail, h]

lemma trail_succ_of_fault (h : (body r).fault? = some f) : trail body (n + 1) r = [] := by
  simp [trail, h]

/-- The states after calls that succeed come in front of those after the calls that follow. -/
lemma trail_add (h : (calls body k r).fault? = none) (n : ℕ) :
    trail body (k + n) r = trail body k r ++ trail body n (calls body k r).regs := by
  induction k generalizing r with
  | zero => simp [trail, calls]
  | succ k ih =>
    rw [Nat.add_right_comm]
    rcases hf : (body r).fault? with _ | f
    · rw [calls_succ hf] at h ⊢
      rw [trail_succ hf, trail_succ hf, ih (by simpa using h)]
      simp
    · rw [calls_succ_of_fault hf, hf] at h
      cases h

lemma trail_succ_last (h : (calls body k r).fault? = none)
    (hf : (calls body (k + 1) r).fault? = none) :
    trail body (k + 1) r = trail body k r ++ [(calls body (k + 1) r).regs] := by
  obtain ⟨hfault, hregs⟩ := Outcome.result_eq_iff.1 (calls_succ_last h)
  rw [trail_add h, trail_succ (hfault ▸ hf), hregs]
  rfl

lemma trail_succ_last_of_fault (h : (calls body k r).fault? = none)
    (hf : (calls body (k + 1) r).fault? = some f) : trail body (k + 1) r = trail body k r := by
  have hfault := (Outcome.result_eq_iff.1 (calls_succ_last h)).1
  rw [trail_add h, trail_succ_of_fault (hfault ▸ hf), List.append_nil]

lemma exists_calls_of_mem_trail (h : c ∈ trail body n r) :
    ∃ i, 0 < i ∧ i ≤ n ∧ (calls body i r).regs = c := by
  induction n generalizing r with
  | zero => cases h
  | succ n ih =>
    rcases hf : (body r).fault? with _ | f
    · rw [trail_succ hf, List.mem_cons] at h
      rcases h with hc | hc
      · exact ⟨1, Nat.one_pos, by omega, by rw [calls_one, hc]⟩
      · obtain ⟨i, -, hi, hcalls⟩ := ih hc
        exact ⟨i + 1, i.succ_pos, by omega, by rw [calls_succ hf, Outcome.regs_after, hcalls]⟩
    · rw [trail_succ_of_fault hf] at h
      cases h

end

/-! ## The sample -/

/-- The states of a trail that a run shows.  Positions on the trail are counted from one, and zero
is the state `r` before it.  Up to the first position at a boundary every state is shown, and behind
it the states at a boundary are.  If no position is at a boundary, all states are shown. -/
def sample (boundary : Registers → Bool) (r : Registers) (states : List Registers) :
    List Registers :=
  let first := (r :: states).findIdx boundary
  ((states.zipIdx 1).filter fun e => e.2 ≤ first || boundary e.1).map Prod.fst

section

variable {boundary : Registers → Bool} {r c : Registers} {states : List Registers}

lemma sample_nil : sample boundary r [] = [] := by
  simp [sample]

lemma sample_of_boundary (h : boundary r = true) :
    sample boundary r states = states.filter boundary := by
  have hfilter : (states.zipIdx 1).filter (fun e => decide (e.2 ≤ 0) || boundary e.1) =
      (states.zipIdx 1).filter (boundary ∘ Prod.fst) := by
    apply List.filter_congr
    intro e he
    have hpos := List.le_snd_of_mem_zipIdx he
    simp only [Function.comp_apply, Bool.or_eq_right_iff_imp, decide_eq_true_eq]
    omega
  rw [sample, List.findIdx_cons, h, cond_true, hfilter, ← List.filter_map, List.zipIdx_map_fst]

/-- The first state is shown, and the sample goes on from it, unless a boundary lies behind. -/
lemma sample_cons (h : boundary r = true → boundary c = true) :
    sample boundary r (c :: states) = c :: sample boundary c states := by
  rcases hr : boundary r with _ | _
  · -- every position moves by one, that of the first boundary included
    have hfirst : (r :: c :: states).findIdx boundary = (c :: states).findIdx boundary + 1 := by
      rw [List.findIdx_cons, hr, cond_false]
    have hshift : states.zipIdx (1 + 1) = (states.zipIdx 1).map (Prod.map id (· + 1)) :=
      List.map_snd_add_zipIdx_eq_zipIdx.symm
    have hpick : (fun e : Registers × ℕ => decide (e.2 ≤ (c :: states).findIdx boundary + 1) ||
        boundary e.1) ∘ Prod.map id (· + 1) =
          fun e => decide (e.2 ≤ (c :: states).findIdx boundary) || boundary e.1 := by
      funext e
      simp
    rw [sample, hfirst, List.zipIdx_cons, List.filter_cons_of_pos (by simp), List.map_cons, hshift,
      List.filter_map, hpick, List.map_map]
    rfl
  · have hc := h hr
    rw [sample_of_boundary hr, sample_of_boundary hc, List.filter_cons_of_pos hc]

/-- From a boundary, the sample passes over states that are not at one. -/
lemma sample_append {passed : List Registers} (hr : passed = [] ∨ boundary r = true)
    (hpassed : ∀ c ∈ passed, boundary c = false) :
    sample boundary r (passed ++ states) = sample boundary r states := by
  rcases hr with rfl | hr
  · rw [List.nil_append]
  · have hnone : passed.filter boundary = [] := by
      rw [List.filter_eq_nil_iff]
      intro c hc
      rw [hpassed c hc]
      exact Bool.false_ne_true
    rw [sample_of_boundary hr, sample_of_boundary hr, List.filter_append, hnone, List.nil_append]

end

/-! ## What is seen of an outcome -/

/-- The events that a fault leaves behind. -/
def trapEvents (fault? : Option JumpFault) : List Event :=
  fault?.toList.map .trapped

lemma Registers.log_jump (r : Registers) (offset : Int32) :
    (r.jump offset).log = trapEvents (r.jump offset).fault? := by
  rcases h : jumpTarget r.pc offset with _ | target
  · simp [jump, h, trapEvents]
  · simp [jump, h, trapEvents]

/-- Executing a block leaves nothing behind but its trap. -/
lemma Block.log_execute (b : Block) (r : Registers) :
    (b.execute r).log = trapEvents (b.execute r).fault? := by
  rcases h : b.exit with pc | pc | ⟨site, offset⟩
  · simp [execute, h, Exit.execute, trapEvents]
  · simp [execute, h, Exit.execute, trapEvents]
  · simp only [execute, h, Exit.execute]
    exact Registers.log_jump _ offset

lemma Registers.log_execute (r : Registers) (i : Instruction) :
    (r.execute i).log = trapEvents (r.execute i).fault? := by
  cases i with
  | nop => rfl
  | acc delta => rfl
  | jmp offset => exact r.log_jump offset

lemma visible_trapEvents (fault? : Option JumpFault) :
    Event.visible .debug (trapEvents fault?) = trapEvents fault? := by
  cases fault? with
  | none => rfl
  | some f => rfl

/-- A step of an instruction leaves behind that it was fetched, and its trap. -/
lemma Registers.log_step {p : Program} {r : Registers} {i : Instruction}
    (hget : p.get? r.pc = some i) :
    (r.step p).log = .fetched r.pc i :: trapEvents (r.step p).fault? := by
  have hlog : (r.step p).log = .fetched r.pc i :: (r.execute i).log := by
    simp only [step, hget]
    split
    · rfl
    · rfl
  have hfault : (r.step p).fault? = (r.execute i).fault? := by
    simp only [step, hget]
    split
    · rfl
    · rfl
  rw [hlog, r.log_execute, hfault]

/-- The instruction that a step fetches is not seen, its trap is. -/
lemma Registers.visible_log_step (p : Program) (r : Registers) :
    Event.visible .debug (r.step p).log = trapEvents (r.step p).fault? := by
  rcases hget : p.get? r.pc with _ | i
  · simp [step, hget, trapEvents, Event.visible]
  · rw [log_step hget]
    exact visible_trapEvents _

/-- The text of the instruction at an address, and a dash outside the program. -/
def Program.shownAt (p : Program) (pc : UInt64) : String :=
  ((p.get? pc).map Instruction.text).getD "-"

lemma Instruction.text_ne_dash (i : Instruction) : i.text ≠ "-" := by
  intro h
  have hspace : ' ' ∈ i.text.toList := by simp [chars]
  rw [h] at hspace
  exact absurd hspace (by decide)

lemma Program.shownAt_eq_dash_iff {p : Program} {pc : UInt64} :
    p.shownAt pc = "-" ↔ p.size ≤ pc.toNat := by
  rw [← get?_eq_none_iff, shownAt]
  rcases p.get? pc with _ | i
  · simp
  · simp [i.text_ne_dash]

/-! ## What a line tells -/

namespace Event

variable {r r' : Registers} {f f' : JumpFault}

lemma text_halted (r : Registers) :
    (halted r).text =
      "INFO acc_vm: " ++
        ("Cpu [ acc: " ++ String.ofList (Text.integer r.acc.toInt) ++
          ", pc: " ++ String.ofList (Text.decimal r.pc.toNat) ++
          ", halt: " ++ (if r.halt then "true" else "false") ++ " ]") := by
  have hhead : "INFO" ++ " " ++ "acc_vm" ++ ": " = "INFO acc_vm: " := by decide
  rw [← hhead]
  rfl

lemma text_trapped (f : JumpFault) :
    (trapped f).text =
      "WARN acc_vm::cpu: " ++
        ("trap: jmp " ++ String.ofList (Text.signed f.offset.toInt) ++
          " at " ++ String.ofList (Text.address f.pc.toNat)) := by
  have hhead : "WARN" ++ " " ++ "acc_vm::cpu" ++ ": " = "WARN acc_vm::cpu: " := by decide
  rw [← hhead]
  rfl

/-- The line at the end of a run that halts tells all registers. -/
lemma text_halted_inj : (halted r).text = (halted r').text ↔ r = r' := by
  refine ⟨?_, fun h => h ▸ rfl⟩
  intro h
  have hchars : ∀ r : Registers, (halted r).text.toList =
      "INFO acc_vm: Cpu [ acc: ".toList ++ (Text.integer r.acc.toInt ++ ',' :: (" pc: ".toList ++
        (Text.decimal r.pc.toNat ++ ',' :: (" halt: ".toList ++
          ((if r.halt then "true" else "false").toList ++ " ]".toList))))) := by
    intro r
    rw [text_halted]
    simp
  have htext := congrArg String.toList h
  rw [hchars, hchars, List.append_cancel_left_eq] at htext
  obtain ⟨hacc, hrest⟩ := Text.integer_append_inj (by decide) (by decide) htext
  rw [List.append_cancel_left_eq] at hrest
  obtain ⟨hpc, hflag⟩ := Text.decimal_append_inj (by decide) hrest
  rw [List.append_cancel_left_eq, List.append_cancel_right_eq, String.toList_inj] at hflag
  have hflags : ∀ b b' : Bool,
      (if b then "true" else "false") = (if b' then "true" else "false") → b = b' := by
    decide
  obtain ⟨acc, pc, halt⟩ := r
  obtain ⟨acc', pc', halt'⟩ := r'
  rw [Registers.mk.injEq]
  exact ⟨Int64.toInt_inj.1 hacc, UInt64.toNat_inj.1 hpc, hflags halt halt' hflag⟩

/-- The line of a trap tells the offset and the address of the jump. -/
lemma text_trapped_inj : (trapped f).text = (trapped f').text ↔ f = f' := by
  refine ⟨?_, fun h => h ▸ rfl⟩
  intro h
  have hchars : ∀ f : JumpFault, (trapped f).text.toList =
      "WARN acc_vm::cpu: trap: jmp ".toList ++ (Text.signed f.offset.toInt ++ ' ' ::
        ("at ".toList ++ (Text.address f.pc.toNat ++ []))) := by
    intro f
    rw [text_trapped]
    simp
  have htext := congrArg String.toList h
  rw [hchars, hchars, List.append_cancel_left_eq] at htext
  exact JumpFault.eq_of_wording_eq htext

lemma text_halted_ne_text_trapped : (halted r).text ≠ (trapped f).text := by
  intro h
  have hhead := congrArg (fun s => s.toList.head?) h
  rw [text_halted, text_trapped] at hhead
  simp at hhead

end Event

namespace Machine

variable {m : Machine} {r : Registers} {o o' : Outcome} {k n n' : ℕ}

/-- The event that shows the registers a run has come to. -/
def reachedEvent (m : Machine) (r : Registers) : Event :=
  .reached r (m.program.get? r.pc)

/-- A turn that succeeds shows where it has led, and one that faults shows its trap. -/
lemma visible_log_turnFrom (m : Machine) (r : Registers) :
    Event.visible .debug (m.turnFrom r).log =
      match (m.turnFrom r).fault? with
      | none => [m.reachedEvent (m.turnFrom r).regs]
      | some f => [.trapped f] := by
  have hadvance : Event.visible .debug (m.advance r).log = trapEvents (m.advance r).fault? := by
    rcases hb : m.table.blockAt r.pc with _ | b
    · simp only [advance, hb]
      exact r.visible_log_step m.program
    · simp only [advance, hb, b.log_execute, visible_trapEvents]
  rcases hf : (m.advance r).fault? with _ | f
  · rw [hf] at hadvance
    simp only [turnFrom, hf, Event.visible, List.filter_append] at hadvance ⊢
    rw [hadvance]
    rfl
  · rw [hf] at hadvance
    simp only [turnFrom, hf]
    exact hadvance

/-! ## Boundaries -/

/-- Whether a block starts at the address or the address lies outside the program. -/
def atBoundary (m : Machine) (r : Registers) : Bool :=
  (m.table.blockAt r.pc).isSome || decide (m.program.size ≤ r.pc.toNat)

lemma atBoundary_iff (hp : m.program.Addressable) :
    m.atBoundary r = true ↔ m.program.IsLeader r.pc.toNat ∨ m.program.size ≤ r.pc.toNat := by
  rw [atBoundary, Bool.or_eq_true, decide_eq_true_iff, m.table_eq, Option.isSome_iff_exists,
    hp.exists_blockAt_iff]

/-- Between the first instruction of a block and the last, single steps come to no boundary. -/
lemma atBoundary_of_mem_trail {start stop : ℕ} {c : Registers} (hp : m.program.Addressable)
    (hblock : m.program.IsBlock start stop) (hr : r.pc = UInt64.ofNat start)
    (hk : start + k < stop) (hc : c ∈ trail m.stepFrom k r) : m.atBoundary c = false := by
  obtain ⟨i, hpos, hi, rfl⟩ := exists_calls_of_mem_trail hc
  have hstop := hblock.stop_le
  have hregs := Outcome.regs_of_result (hblock.calls_step hp hr (k := i) (by omega))
  have hpc : (calls m.stepFrom i r).regs.pc.toNat = start + i := by
    rw [show (calls m.stepFrom i r).regs = _ from hregs, hp.toNat_ofNat (by omega)]
  rw [Bool.eq_false_iff, ne_eq, atBoundary_iff hp, hpc]
  intro hboundary
  rcases hboundary with hleader | hout
  · have := hblock.le_of_isLeader _ hleader (by omega)
    omega
  · omega

/-- A block that does not fault ends at a boundary. -/
lemma atBoundary_execute {start stop : ℕ} (hp : m.program.Addressable)
    (hblock : m.program.IsBlock start stop)
    (hf : ((m.program.blockBetween start stop).execute r).fault? = none) :
    m.atBoundary ((m.program.blockBetween start stop).execute r).regs = true := by
  obtain ⟨pc, hnext, hregs⟩ := hblock.of_execute_success hp hf
  rw [atBoundary_iff hp, hregs]
  by_cases hpc : m.program.size ≤ pc.toNat
  · exact Or.inr hpc
  · exact Or.inl (hblock.isLeader_of_next? hp hnext (not_le.1 hpc))

/-- The single steps that a turn stands for, the last one counted apart.  Those before it come to no
boundary, and there are none of them unless the turn starts at one.  From a boundary the last one
leads to a boundary again. -/
lemma exists_steps_of_turnFrom (hp : m.program.Addressable) (hr : r.halt = false) :
    ∃ k, (∀ i < k + 1, (calls m.stepFrom i r).settled = false) ∧
      (m.turnFrom r).result = (calls m.stepFrom (k + 1) r).result ∧
      (trail m.stepFrom k r = [] ∨ m.atBoundary r = true) ∧
      (∀ c ∈ trail m.stepFrom k r, m.atBoundary c = false) ∧
      ((m.turnFrom r).fault? = none → m.atBoundary r = true →
        m.atBoundary (m.turnFrom r).regs = true) := by
  rcases m.turnFrom_cases r with ⟨hb, hturn⟩ | ⟨start, stop, hblock, hpc, hturn⟩
  · refine ⟨0, ?_, by rw [hturn, calls_one], Or.inl rfl, ?_, ?_⟩
    · intro i hi
      obtain rfl : i = 0 := by omega
      rw [settled_calls_zero, hr]
    · intro c hc
      cases hc
    · -- with no block to start, the turn starts outside the program and stays where it is
      intro _ hboundary
      have hout : m.program.size ≤ r.pc.toNat := by
        simpa [atBoundary, m.table_eq, hb] using hboundary
      have hregs : (m.turnFrom r).regs = { r with halt := true } :=
        Outcome.regs_of_result (hturn.trans (Registers.result_step_of_size_le hout))
      rw [atBoundary_iff hp, hregs]
      exact Or.inr hout
  · have hlt := hblock.lt
    have hcount : stop - start - 1 + 1 = stop - start := by omega
    refine ⟨stop - start - 1, ?_, ?_, Or.inr ?_, ?_, ?_⟩
    · intro i hi
      exact hblock.settled_calls_step hp hpc hr (by omega)
    · rw [hturn, hcount]
      exact hblock.result_execute hp hpc
    · rw [atBoundary_iff hp, hpc, hp.toNat_ofNat hblock.isLeader.1.le]
      exact Or.inl hblock.isLeader
    · intro c hc
      exact atBoundary_of_mem_trail hp hblock hpc (by omega) hc
    · intro hf _
      obtain ⟨hfault, hregs⟩ := Outcome.result_eq_iff.1 hturn
      rw [hregs]
      exact atBoundary_execute hp hblock (hfault ▸ hf)

/-! ## Runs -/

/-- What is seen of a loop over turns is the sample of its single steps, and a trap if it ends with
one. -/
lemma visible_log_of_loop (hp : m.program.Addressable) (hloop : Loop m.turnFrom n r o)
    (hsteps : Loop m.stepFrom n' r o') :
    Event.visible .debug o.log =
      (sample m.atBoundary r (trail m.stepFrom n' r)).map m.reachedEvent ++
        trapEvents o.fault? := by
  induction hloop generalizing n' o' with
  | @done r hr =>
    have hn' : n' = 0 := hsteps.eq_of_calls (by rw [settled_calls_zero, hr]) (by omega)
    rw [hn', trail, sample_nil]
    rfl
  | @fault r f hr hf =>
    obtain ⟨k, hbusy, hresult, hstart, hpassed, -⟩ := exists_steps_of_turnFrom hp hr
    have hfault : (calls m.stepFrom (k + 1) r).fault? = some f := by
      rw [← (Outcome.result_eq_iff.1 hresult).1, hf]
    have hn' : n' = k + 1 := hsteps.eq_of_calls (Outcome.settled_of_fault hfault) hbusy
    have hbefore := (Outcome.settled_eq_false_iff.1 (hbusy k k.lt_succ_self)).1
    have hnone : sample m.atBoundary r (trail m.stepFrom k r) = [] := by
      rw [← List.append_nil (trail m.stepFrom k r), sample_append hstart hpassed, sample_nil]
    rw [hn', trail_succ_last_of_fault hbefore hfault, hnone, m.visible_log_turnFrom, hf]
    rfl
  | @pass n r o hr hf _ ih =>
    obtain ⟨k, hbusy, hresult, hstart, hpassed, hend⟩ := exists_steps_of_turnFrom hp hr
    obtain ⟨hfault, hregs⟩ := Outcome.result_eq_iff.1 hresult
    rw [hf] at hfault
    obtain ⟨o'', hrest, -⟩ := hsteps.drop hfault.symm hbusy
    have hbefore := (Outcome.settled_eq_false_iff.1 (hbusy k k.lt_succ_self)).1
    have htrail : trail m.stepFrom n' r = trail m.stepFrom k r ++
        (m.turnFrom r).regs :: trail m.stepFrom (n' - (k + 1)) (m.turnFrom r).regs := by
      have hn' := hsteps.le_of_calls hbusy
      conv_lhs => rw [← Nat.add_sub_of_le hn']
      rw [trail_add hfault.symm, trail_succ_last hbefore hfault.symm, ← hregs, List.append_assoc]
      rfl
    have hlog : Event.visible .debug (o.after (m.turnFrom r).log).log =
        Event.visible .debug (m.turnFrom r).log ++ Event.visible .debug o.log :=
      List.filter_append ..
    rw [← hregs] at hrest
    rw [hlog, m.visible_log_turnFrom, hf, ih hrest, htrail, sample_append hstart hpassed,
      sample_cons (hend hf)]
    rfl

/-- The event at the end of a run: how it was trapped, or the registers it has halted with. -/
def endEvent (o : Outcome) : Event :=
  match o.fault? with
  | none => .halted o.regs
  | some f => .trapped f

lemma visible_log_of_run? (hp : m.program.Addressable) (hrun : m.run? = some o)
    (hsteps : Loop m.stepFrom n m.regs o') :
    Event.visible .debug o.log =
      (sample m.atBoundary m.regs (trail m.stepFrom n m.regs)).map m.reachedEvent ++
        [endEvent o] := by
  obtain ⟨n', o'', hloop, rfl⟩ := (run?_eq_some_iff hp).1 hrun
  have hlog := visible_log_of_loop hp hloop hsteps
  rcases hf : o''.fault? with _ | f
  · simp only [Outcome.concluded, hf, endEvent, Event.visible, List.filter_append] at hlog ⊢
    rw [hlog]
    simp [trapEvents, Event.severity, Severity.rank]
  · simp only [Outcome.concluded, hf, endEvent] at hlog ⊢
    rw [hlog]
    rfl

lemma text_reachedEvent (m : Machine) (r : Registers) :
    (m.reachedEvent r).text =
      "DEBUG acc_vm: " ++
        ("State: PC: " ++ String.ofList (Text.address r.pc.toNat) ++
          ", ACC: " ++ String.ofList (Text.alignRight 4 (Text.integer r.acc.toInt)) ++
          " | " ++ m.program.shownAt r.pc) := by
  have hhead : "DEBUG" ++ " " ++ "acc_vm" ++ ": " = "DEBUG acc_vm: " := by decide
  rw [← hhead]
  rfl

/-- The line of a state tells its address and its accumulator. -/
lemma text_reachedEvent_inj {c c' : Registers} :
    (m.reachedEvent c).text = (m.reachedEvent c').text ↔ c.pc = c'.pc ∧ c.acc = c'.acc := by
  have hchars : ∀ r : Registers, (m.reachedEvent r).text.toList =
      "DEBUG acc_vm: State: PC: ".toList ++ (Text.address r.pc.toNat ++ ',' :: (" ACC: ".toList ++
        (Text.alignRight 4 (Text.integer r.acc.toInt) ++ [' '] ++ '|' ::
          (" ".toList ++ (m.program.shownAt r.pc).toList)))) := by
    intro r
    rw [text_reachedEvent]
    simp
  constructor
  · intro h
    have htext := congrArg String.toList h
    rw [hchars, hchars, List.append_cancel_left_eq] at htext
    obtain ⟨hpc, hrest⟩ := Text.address_append_inj (by decide) (by decide) htext
    rw [List.append_cancel_left_eq] at hrest
    obtain ⟨hacc, -⟩ := Text.alignRight_append_inj (by decide) (by decide) (by decide) hrest
    exact ⟨UInt64.toNat_inj.1 hpc, Int64.toInt_inj.1 hacc⟩
  · rintro ⟨hpc, hacc⟩
    rw [text_reachedEvent, text_reachedEvent, hpc, hacc]

lemma text_endEvent (o : Outcome) :
    (endEvent o).text =
      match o.fault? with
      | none =>
        "INFO acc_vm: " ++
          ("Cpu [ acc: " ++ String.ofList (Text.integer o.regs.acc.toInt) ++
            ", pc: " ++ String.ofList (Text.decimal o.regs.pc.toNat) ++
            ", halt: " ++ (if o.regs.halt then "true" else "false") ++ " ]")
      | some f =>
        "WARN acc_vm::cpu: " ++
          ("trap: jmp " ++ String.ofList (Text.signed f.offset.toInt) ++
            " at " ++ String.ofList (Text.address f.pc.toNat)) := by
  unfold endEvent
  split
  · exact Event.text_halted _
  · exact Event.text_trapped _

/-- The line at the end of a run tells how it has ended. -/
lemma text_endEvent_inj : (endEvent o).text = (endEvent o').text ↔ endEvent o = endEvent o' := by
  unfold endEvent
  split
  · split
    · rw [Event.text_halted_inj, Event.halted.injEq]
    · simp [Event.text_halted_ne_text_trapped]
  · split
    · simp [Event.text_halted_ne_text_trapped.symm]
    · rw [Event.text_trapped_inj, Event.trapped.injEq]

/-- **The journal of a run is a faithful sample of single stepping.**  Take any machine whose run
ends, and the loop over single steps, which ends with the same result.  A reader of the journal who
does not ask for single instructions sees one event for each state of the sample, in order, and one
event at the end, and nothing else.  The sample has the states up to the first one where a block
starts or the program is left, and after it the states where one of the two is the case.  An event
shows the address and the accumulator of its state and the instruction there, and a dash in its
place exactly outside the program.  The last one has the final registers, or the offset and the
address of the fault.  All of this can be told from the lines that are printed: two lines of states
are equal exactly if the addresses and the accumulators are, and two last lines exactly if the runs
have ended alike. -/
theorem run?_journal_samples_steps {m : Machine} (hp : m.program.size < 2 ^ 59) {o : Outcome}
    (hrun : m.run? = some o) :
    (∃ n o', Loop m.stepFrom n m.regs o' ∧ o'.result = o.result ∧
      Event.visible .debug o.log =
        (sample m.atBoundary m.regs (trail m.stepFrom n m.regs)).map m.reachedEvent ++
          [endEvent o] ∧
      Event.report .debug o.log =
        ((sample m.atBoundary m.regs (trail m.stepFrom n m.regs)).map fun c =>
          "DEBUG acc_vm: " ++
            ("State: PC: " ++ String.ofList (Text.address c.pc.toNat) ++
              ", ACC: " ++ String.ofList (Text.alignRight 4 (Text.integer c.acc.toInt)) ++
              " | " ++ m.program.shownAt c.pc)) ++
          [match o.fault? with
            | none =>
              "INFO acc_vm: " ++
                ("Cpu [ acc: " ++ String.ofList (Text.integer o.regs.acc.toInt) ++
                  ", pc: " ++ String.ofList (Text.decimal o.regs.pc.toNat) ++
                  ", halt: " ++ (if o.regs.halt then "true" else "false") ++ " ]")
            | some f =>
              "WARN acc_vm::cpu: " ++
                ("trap: jmp " ++ String.ofList (Text.signed f.offset.toInt) ++
                  " at " ++ String.ofList (Text.address f.pc.toNat))]) ∧
      (∀ pc, m.program.shownAt pc = "-" ↔ m.program.size ≤ pc.toNat) ∧
      (∀ c c' : Registers, (m.reachedEvent c).text = (m.reachedEvent c').text ↔
        c.pc = c'.pc ∧ c.acc = c'.acc) ∧
      ∀ e e' : Outcome, (endEvent e).text = (endEvent e').text ↔ endEvent e = endEvent e' := by
  have haddr := Program.addressable_of_size_lt hp
  obtain ⟨n, o', hsteps, hresult⟩ := (exists_run?_iff_returns_stepFrom haddr).1 ⟨o, hrun, rfl⟩
  have hvisible := visible_log_of_run? haddr hrun hsteps
  refine ⟨⟨n, o', hsteps, hresult, hvisible, ?_⟩, fun _ => Program.shownAt_eq_dash_iff,
    fun _ _ => text_reachedEvent_inj, fun _ _ => text_endEvent_inj⟩
  calc Event.report .debug o.log
      = (Event.visible .debug o.log).map Event.text := rfl
    _ = _ := by
      rw [hvisible, List.map_append, List.map_map, List.map_singleton, text_endEvent]
      refine congrArg (· ++ _) (List.map_congr_left ?_)
      intro c _
      exact m.text_reachedEvent c

/-- Two runs that start inside a block.  Both show the state after their first step and the start of
the last block, and no state inside that block.  The first one halts with a negative accumulator,
and the second one faults at the jump that ends the block. -/
theorem run?_journal_samples_steps_inside_block :
    (∃ (m : Machine) (o : Outcome) (n : ℕ) (o' : Outcome),
      m.program = ⟨#[.acc 1, .acc (-20), .jmp 2, .nop, .acc (-9), .nop]⟩ ∧
      m.regs = ⟨5, 1, false⟩ ∧ m.run? = some o ∧ Loop m.stepFrom n m.regs o' ∧
      Event.report .debug o.log =
        ["DEBUG acc_vm: State: PC: 0x0002, ACC:  -15 | jmp +2",
          "DEBUG acc_vm: State: PC: 0x0004, ACC:  -15 | acc -9",
          "DEBUG acc_vm: State: PC: 0x0006, ACC:  -24 | -",
          "INFO acc_vm: Cpu [ acc: -24, pc: 6, halt: true ]"] ∧
      Event.visible .debug o.log =
        (sample m.atBoundary m.regs (trail m.stepFrom n m.regs)).map m.reachedEvent ++
          [endEvent o]) ∧
    ∃ (m : Machine) (o : Outcome) (n : ℕ) (o' : Outcome),
      m.program = ⟨#[.acc 1, .acc 2, .jmp 2, .nop, .acc 4, .acc 8, .jmp (-9)]⟩ ∧
      m.regs = ⟨1, 1, false⟩ ∧ m.run? = some o ∧ Loop m.stepFrom n m.regs o' ∧
      Event.report .debug o.log =
        ["DEBUG acc_vm: State: PC: 0x0002, ACC:    3 | jmp +2",
          "DEBUG acc_vm: State: PC: 0x0004, ACC:    3 | acc +4",
          "WARN acc_vm::cpu: trap: jmp -9 at 0x0006"] ∧
      Event.visible .debug o.log =
        (sample m.atBoundary m.regs (trail m.stepFrom n m.regs)).map m.reachedEvent ++
          [endEvent o] := by
  constructor
  · have hrun : (withRegs (ofProgram
        ⟨#[.acc 1, .acc (-20), .jmp 2, .nop, .acc (-9), .nop]⟩ 0) ⟨5, 1, false⟩).run? =
          some ⟨⟨-24, 6, true⟩, none,
            [.fetched 1 (.acc (-20)), .reached ⟨-15, 2, false⟩ (some (.jmp 2)),
              .fetched 2 (.jmp 2), .reached ⟨-15, 4, false⟩ (some (.acc (-9))),
              .reached ⟨-24, 6, true⟩ none, .halted ⟨-24, 6, true⟩]⟩ := by
      decide +kernel
    obtain ⟨n, o', hsteps, -, hvisible, -⟩ := (run?_journal_samples_steps (by decide) hrun).1
    exact ⟨_, _, n, o', rfl, rfl, hrun, hsteps, by decide, hvisible⟩
  · have hrun : (withRegs (ofProgram
        ⟨#[.acc 1, .acc 2, .jmp 2, .nop, .acc 4, .acc 8, .jmp (-9)]⟩ 0) ⟨1, 1, false⟩).run? =
          some ⟨⟨15, 6, false⟩, some ⟨6, -9⟩,
            [.fetched 1 (.acc 2), .reached ⟨3, 2, false⟩ (some (.jmp 2)),
              .fetched 2 (.jmp 2), .reached ⟨3, 4, false⟩ (some (.acc 4)), .trapped ⟨6, -9⟩]⟩ := by
      decide +kernel
    obtain ⟨n, o', hsteps, -, hvisible, -⟩ := (run?_journal_samples_steps (by decide) hrun).1
    exact ⟨_, _, n, o', rfl, rfl, hrun, hsteps, by decide, hvisible⟩

end Machine
end AccumulatorMachine
