import Mathlib.Data.Int.ModEq
import Mathlib.Data.List.Forall2
import AccumulatorMachine.Proofs.Reachability

/-!
# The seed only shifts the result

A machine never looks at its accumulator.  A single step taken with another accumulator goes the
same way and leaves the same difference behind (`result_step_shift`), so any number of steps does,
and so does a loop over them (`Returns.shift`).  A run ends as that loop ends, and this is why
nothing has to be said here about blocks and their summed additions.

`Machine.results?` is what a user sees of calls made one after the other.  Its list of results for
one seed is the list for another with every accumulator shifted (`results?_shift`).

Shifting wraps around like every addition to the accumulator, so as integers two accumulators keep
their difference only modulo `2 ^ 64`, which is how `DifferBy` states it.
-/

namespace AccumulatorMachine

variable {p : Program} {r : Registers} {res : Option JumpFault × Registers}

/-! ## Results that differ in the accumulator -/

/-- Two results that show the same fault, address and halt flag, and accumulators that differ by
`d` up to wrap-around. -/
structure DifferBy (d : ℤ) (x y : Option JumpFault × Registers) : Prop where
  fault_eq : x.1 = y.1
  pc_eq : x.2.pc = y.2.pc
  halt_eq : x.2.halt = y.2.halt
  acc_modEq : y.2.acc.toInt - x.2.acc.toInt ≡ d [ZMOD 2 ^ 64]

lemma toInt_add_sub_modEq (x d : Int64) : (x + d).toInt - x.toInt ≡ d.toInt [ZMOD 2 ^ 64] := by
  have hadd : (x + d).toInt ≡ x.toInt + d.toInt [ZMOD 2 ^ 64] := by
    rw [Int64.toInt_add]
    exact Int.bmod_emod
  simpa using hadd.sub_right x.toInt

lemma toInt_sub_modEq (a b : Int64) : (b - a).toInt ≡ b.toInt - a.toInt [ZMOD 2 ^ 64] := by
  rw [Int64.toInt_sub]
  exact Int.bmod_emod

lemma differBy_map_shift (a b : Int64) (x : Option JumpFault × Registers) :
    DifferBy (b.toInt - a.toInt) x (Prod.map id (Registers.shift (b - a)) x) :=
  ⟨rfl, rfl, rfl, (toInt_add_sub_modEq _ _).trans (toInt_sub_modEq a b)⟩

/-! ## Loops and runs -/

/-- A loop over single steps comes back from shifted registers with a shifted result. -/
lemma Returns.shift (h : Returns (·.step p) r res) (d : Int64) :
    Returns (·.step p) (r.shift d) (Prod.map id (Registers.shift d) res) := by
  obtain ⟨n, o, hloop, rfl⟩ := h
  obtain ⟨rfl, hsettled, hbefore⟩ := hloop.spec
  have hsame : ∀ i, (calls (·.step p) i (r.shift d)).settled = (calls (·.step p) i r).settled :=
    fun i => Outcome.settled_of_control (control_calls_step_shift p d i r)
  refine ⟨n, _, loop_of_calls ?_ ?_, result_calls_step_shift p d n r⟩
  · rw [hsame, hsettled]
  · intro i hi
    rw [hsame, hbefore i hi]

namespace Machine

variable {m : Machine}

/-- The machine with an amount added to its accumulator. -/
def shift (d : Int64) (m : Machine) : Machine :=
  m.withRegs (m.regs.shift d)

lemma map_result_run?_shift (hp : m.program.Addressable) (d : Int64) :
    (m.shift d).run?.map Outcome.result =
      (m.run?.map Outcome.result).map (Prod.map id (Registers.shift d)) := by
  ext res
  simp only [Option.map_eq_some_iff]
  constructor
  · -- a result of the shifted run is shifted back to one of the run itself
    intro h
    have hreturns := (exists_run?_iff_returns_stepFrom (m := m.shift d) hp).1 h
    have hback := hreturns.shift (-d)
    rw [show (m.shift d).regs.shift (-d) = m.regs from Registers.shift_neg_shift d m.regs] at hback
    refine ⟨_, (exists_run?_iff_returns_stepFrom hp).2 hback, ?_⟩
    simp [Prod.map, Registers.shift_shift_neg]
  · rintro ⟨res', h, rfl⟩
    have hreturns := (exists_run?_iff_returns_stepFrom hp).1 h
    exact (exists_run?_iff_returns_stepFrom (m := m.shift d) hp).2 (hreturns.shift d)

/-! ## Calls one after the other -/

/-- The results of calls made one after the other, each with its fault if it has one; nothing if
one of them is a run that never ends.  A fault does not keep the next call from being made. -/
def results? (m : Machine) : List Call → Option (List (Option JumpFault × Registers))
  | [] => some []
  | c :: cs => (m.call? c).bind fun o => ((m.withRegs o.regs).results? cs).map (o.result :: ·)

lemma map_result_call?_shift (hp : m.program.Addressable) (d : Int64) (c : Call) :
    ((m.shift d).call? c).map Outcome.result =
      ((m.call? c).map Outcome.result).map (Prod.map id (Registers.shift d)) := by
  cases c with
  | step => exact congrArg some (result_step_shift m.program d m.regs)
  | run => exact map_result_run?_shift hp d

lemma results?_cons (m : Machine) (c : Call) (cs : List Call) :
    m.results? (c :: cs) = ((m.call? c).map Outcome.result).bind fun res =>
      ((m.withRegs res.2).results? cs).map (res :: ·) := by
  rw [results?, Option.bind_map]
  rfl

/-- Calls made of a shifted machine give the same results with their accumulators shifted. -/
lemma results?_shift (hp : m.program.Addressable) (d : Int64) (cs : List Call) :
    (m.shift d).results? cs =
      (m.results? cs).map (List.map (Prod.map id (Registers.shift d))) := by
  induction cs generalizing m with
  | nil => rfl
  | cons c cs ih =>
    rw [results?_cons, results?_cons, map_result_call?_shift hp]
    rcases (m.call? c).map Outcome.result with _ | ⟨fault?, r⟩
    · rfl
    · have hrest := ih (m := m.withRegs r) hp
      simp only [Option.map_some, Option.bind_some, Prod.map_apply, Option.map_map]
      rw [show (m.shift d).withRegs (r.shift d) = (m.withRegs r).shift d from rfl, hrest,
        Option.map_map]
      rfl

/-! ## Two seeds -/

lemma ofProgram_eq_shift (p : Program) (a b : Int64) :
    ofProgram p b = (ofProgram p a).shift (b - a) := by
  have hacc : a + (b - a) = b := by
    rw [Int64.sub_eq_add_neg, Int64.add_comm b, ← Int64.add_assoc, Int64.add_right_neg,
      Int64.zero_add]
  simp [ofProgram, shift, withRegs, Registers.shift, hacc]

/-- **The accumulator never influences control, and the seed only shifts the result.**  The same
calls, made of two machines that start with different accumulators, all return on the one exactly
when they do on the other.  Each of them then has the same fault or none and leaves the same
address and halt flag, and the accumulators still differ by as much as the seeds. -/
theorem results?_of_two_seeds {p : Program} (hp : p.size < 2 ^ 59) (a b : Int64)
    (cs : List Call) :
    ((ofProgram p a).results? cs = none ↔ (ofProgram p b).results? cs = none) ∧
      ∀ xs ys, (ofProgram p a).results? cs = some xs → (ofProgram p b).results? cs = some ys →
        List.Forall₂ (DifferBy (b.toInt - a.toInt)) xs ys := by
  have hshift : (ofProgram p b).results? cs =
      ((ofProgram p a).results? cs).map (List.map (Prod.map id (Registers.shift (b - a)))) := by
    rw [ofProgram_eq_shift p a b]
    exact results?_shift (Program.addressable_of_size_lt hp) _ cs
  refine ⟨by rw [hshift, Option.map_eq_none_iff], ?_⟩
  intro xs ys hxs hys
  rw [hshift, hxs, Option.map_some, Option.some.injEq] at hys
  rw [← hys, List.forall₂_map_right_iff]
  exact List.forall₂_same.2 fun x _ => differBy_map_shift a b x

/-- A step and a run that faults, with an accumulator that wraps around in one of the two machines
only. -/
theorem results?_of_two_seeds_wrap_around :
    (ofProgram ⟨#[.acc 1, .jmp (-2)]⟩ 0).results? [.step, .run] =
        some [(none, ⟨1, 1, false⟩), (some ⟨1, -2⟩, ⟨1, 1, false⟩)] ∧
      (ofProgram ⟨#[.acc 1, .jmp (-2)]⟩ Int64.maxValue).results? [.step, .run] =
        some [(none, ⟨Int64.minValue, 1, false⟩), (some ⟨1, -2⟩, ⟨Int64.minValue, 1, false⟩)] ∧
      List.Forall₂ (DifferBy (Int64.maxValue.toInt - Int64.toInt 0))
        [(none, ⟨1, 1, false⟩), (some ⟨1, -2⟩, ⟨1, 1, false⟩)]
        [(none, ⟨Int64.minValue, 1, false⟩), (some ⟨1, -2⟩, ⟨Int64.minValue, 1, false⟩)] := by
  have h0 : (ofProgram ⟨#[.acc 1, .jmp (-2)]⟩ 0).results? [.step, .run] =
      some [(none, ⟨1, 1, false⟩), (some ⟨1, -2⟩, ⟨1, 1, false⟩)] := by decide
  have hmax : (ofProgram ⟨#[.acc 1, .jmp (-2)]⟩ Int64.maxValue).results? [.step, .run] =
      some [(none, ⟨Int64.minValue, 1, false⟩), (some ⟨1, -2⟩, ⟨Int64.minValue, 1, false⟩)] := by
    decide
  exact ⟨h0, hmax, (results?_of_two_seeds (by decide) _ _ _).2 _ _ h0 hmax⟩

end Machine
end AccumulatorMachine
