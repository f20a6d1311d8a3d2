import Mathlib.Data.Nat.Find
import Mathlib.Order.Nat
import Mathlib.Tactic.Common
import AccumulatorMachine.Machine.Drive
import AccumulatorMachine.Proofs.Control

/-!
# Repeated calls and loops

Single steps and turns have one type, `Registers → Outcome`, and this file is about repeating any
such `body`.  `calls` makes a fixed number of calls in a row and looks at nothing but faults.
`Loop` is the loop that goes on until the halt flag is set: it has no bound, counts its passes,
and relates nothing to registers from which it would not come back.

`loop_iff_calls` says that a loop stops at the first number of calls after which nothing is left
to do, and `Loop.outcome_drive` with `exists_loop_of_settled` that a bounded drive is that loop
for as long as the bound lasts.

`Accelerates fast slow` is the simulation between two bodies of which one does in a single call
what takes the other several.  `Accelerates.returns_iff` carries it over to the loops: each of
them comes back exactly when the other does, and with the same result.  `AgreeOn P body body'` is
the simpler case of two bodies that go call by call, and only where an invariant `P` holds.
-/

namespace AccumulatorMachine

variable {body : Registers → Outcome} {r : Registers} {o : Outcome} {f : JumpFault} {k n : ℕ}

/-! ## A number of calls in a row -/

/-- What `n` calls in a row come to.  The first fault ends them; the halt flag does not. -/
def calls (body : Registers → Outcome) : ℕ → Registers → Outcome
  | 0, r => { regs := r }
  | n + 1, r =>
    match (body r).fault? with
    | some _ => body r
    | none => (calls body n (body r).regs).after (body r).log

lemma settled_calls_zero : (calls body 0 r).settled = r.halt := by
  simp [calls, Outcome.settled]

lemma calls_succ_of_fault (h : (body r).fault? = some f) : calls body (n + 1) r = body r := by
  simp [calls, h]

lemma calls_succ (h : (body r).fault? = none) :
    calls body (n + 1) r = (calls body n (body r).regs).after (body r).log := by
  simp [calls, h]

lemma calls_one : calls body 1 r = body r := by
  rcases hf : (body r).fault? with _ | f
  · rw [calls_succ hf]
    simp [calls, Outcome.after, ← hf]
  · exact calls_succ_of_fault hf

/-- Calls that succeed can be counted apart from those that follow them. -/
lemma calls_add (h : (calls body k r).fault? = none) (n : ℕ) :
    calls body (k + n) r =
      (calls body n (calls body k r).regs).after (calls body k r).log := by
  induction k generalizing r with
  | zero => simp [calls, Outcome.after]
  | succ k ih =>
    rw [Nat.add_right_comm]
    rcases hf : (body r).fault? with _ | f
    · rw [calls_succ hf] at h
      rw [calls_succ hf, calls_succ hf, ih (by simpa using h)]
      simp [Outcome.after]
    · rw [calls_succ_of_fault hf, hf] at h
      cases h

lemma calls_succ_last (h : (calls body k r).fault? = none) :
    (calls body (k + 1) r).result = (body (calls body k r).regs).result := by
  rw [calls_add h, calls_one, Outcome.result_after]

/-- After a fault no further call is made. -/
lemma calls_add_of_fault (h : (calls body k r).fault? = some f) (n : ℕ) :
    calls body (k + n) r = calls body k r := by
  induction k generalizing r with
  | zero => cases h
  | succ k ih =>
    rw [Nat.add_right_comm]
    rcases hf : (body r).fault? with _ | f'
    · rw [calls_succ hf] at h
      rw [calls_succ hf, calls_succ hf, ih (by simpa using h)]
    · rw [calls_succ_of_fault hf, calls_succ_of_fault hf]

/-- What every call keeps, a faulting one included, any number of calls keeps. -/
lemma calls_invariant {P : Registers → Prop} (hbody : ∀ r, P r → P (body r).regs) (h : P r)
    (n : ℕ) : P (calls body n r).regs := by
  induction n generalizing r with
  | zero => exact h
  | succ n ih =>
    rcases hf : (body r).fault? with _ | f
    · rw [calls_succ hf]
      exact ih (hbody r h)
    · rw [calls_succ_of_fault hf]
      exact hbody r h

/-! ## Loops -/

/-- The loop over `body` that goes on until the halt flag is set or a call faults: `Loop body n r o`
says that, started with the registers `r`, it comes back with `o` in its `n`-th pass. -/
inductive Loop (body : Registers → Outcome) : ℕ → Registers → Outcome → Prop
  /-- The flag is set, and no pass is made. -/
  | done {r : Registers} (h : r.halt = true) : Loop body 0 r { regs := r }
  /-- A pass faults. -/
  | fault {r : Registers} {f : JumpFault} (h : r.halt = false) (hf : (body r).fault? = some f) :
      Loop body 1 r (body r)
  /-- A pass succeeds, and the loop goes on from its registers. -/
  | pass {n : ℕ} {r : Registers} {o : Outcome} (h : r.halt = false)
      (hf : (body r).fault? = none) (rest : Loop body n (body r).regs o) :
      Loop body (n + 1) r (o.after (body r).log)

/-- The loop started with `r` comes back with this result, after however many passes. -/
def Returns (body : Registers → Outcome) (r : Registers) (res : Option JumpFault × Registers) :
    Prop :=
  ∃ n o, Loop body n r o ∧ o.result = res

lemma Loop.spec (h : Loop body n r o) :
    calls body n r = o ∧ o.settled = true ∧ ∀ i < n, (calls body i r).settled = false := by
  induction h with
  | done h =>
    refine ⟨rfl, by simp [Outcome.settled, h], ?_⟩
    intro i hi
    omega
  | fault h hf =>
    refine ⟨calls_succ_of_fault hf, Outcome.settled_of_fault hf, ?_⟩
    intro i hi
    obtain rfl : i = 0 := by omega
    rw [settled_calls_zero, h]
  | pass h hf _ ih =>
    obtain ⟨hcalls, hsettled, hbefore⟩ := ih
    refine ⟨by rw [calls_succ hf, hcalls], hsettled, ?_⟩
    intro i hi
    rcases i with _ | i
    · rw [settled_calls_zero, h]
    · rw [calls_succ hf, Outcome.settled_after]
      exact hbefore i (by omega)

lemma loop_of_calls (hsettled : (calls body n r).settled = true)
    (hbefore : ∀ i < n, (calls body i r).settled = false) : Loop body n r (calls body n r) := by
  induction n generalizing r with
  | zero => exact .done (by rwa [settled_calls_zero] at hsettled)
  | succ n ih =>
    have h := hbefore 0 (by omega)
    rw [settled_calls_zero] at h
    rcases hf : (body r).fault? with _ | f
    · rw [calls_succ hf] at hsettled ⊢
      refine .pass h hf (ih hsettled ?_)
      intro i hi
      simpa [calls_succ hf] using hbefore (i + 1) (by omega)
    · -- a fault in the first pass leaves no room for a second one
      rcases n with _ | n
      · rw [calls_succ_of_fault hf]
        exact .fault h hf
      · have h1 := hbefore 1 (by omega)
        rw [calls_one, Outcome.settled_of_fault hf] at h1
        cases h1

lemma exists_returns_iff : (∃ res, Returns body r res) ↔ ∃ n o, Loop body n r o := by
  constructor
  · rintro ⟨_, n, o, hloop, -⟩
    exact ⟨n, o, hloop⟩
  · rintro ⟨n, o, hloop⟩
    exact ⟨_, n, o, hloop, rfl⟩

/-- If some number of calls leaves nothing to do, the loop comes back, and no later. -/
lemma exists_loop_of_settled_calls (h : (calls body n r).settled = true) :
    ∃ n' ≤ n, Loop body n' r (calls body n' r) := by
  have hex : ∃ n, (calls body n r).settled = true := ⟨n, h⟩
  refine ⟨Nat.find hex, Nat.find_min' hex h, loop_of_calls (Nat.find_spec hex) ?_⟩
  intro i hi
  exact Bool.not_eq_true _ ▸ Nat.find_min hex hi

/-- A loop comes back at the first number of calls after which nothing is left to do. -/
lemma loop_iff_calls :
    Loop body n r o ↔
      calls body n r = o ∧ o.settled = true ∧ ∀ i < n, (calls body i r).settled = false := by
  constructor
  · exact Loop.spec
  · rintro ⟨rfl, hsettled, hbefore⟩
    exact loop_of_calls hsettled hbefore

/-- Calls that leave something to do can be put in front of a loop. -/
lemma Loop.prepend (h : Loop body n (calls body k r).regs o)
    (hk : (calls body k r).fault? = none)
    (hbefore : ∀ i < k, (calls body i r).settled = false) :
    Loop body (k + n) r (o.after (calls body k r).log) := by
  obtain ⟨hcalls, hsettled, hrest⟩ := h.spec
  refine loop_iff_calls.2 ⟨by rw [calls_add hk, hcalls], hsettled, ?_⟩
  intro i hi
  by_cases hik : i < k
  · exact hbefore i hik
  · obtain ⟨j, rfl⟩ := Nat.exists_eq_add_of_le (not_lt.1 hik)
    rw [calls_add hk, Outcome.settled_after]
    exact hrest j (by omega)

lemma Loop.le_of_calls (h : Loop body n r o)
    (hbefore : ∀ i < k, (calls body i r).settled = false) : k ≤ n := by
  by_contra hlt
  obtain ⟨rfl, hsettled, -⟩ := h.spec
  rw [hbefore n (by omega)] at hsettled
  cases hsettled

/-- A loop makes as many passes as there are calls before nothing is left to do. -/
lemma Loop.eq_of_calls (h : Loop body n r o) (hsettled : (calls body k r).settled = true)
    (hbefore : ∀ i < k, (calls body i r).settled = false) : n = k := by
  refine le_antisymm ?_ (h.le_of_calls hbefore)
  by_contra hlt
  rw [h.spec.2.2 k (by omega)] at hsettled
  cases hsettled

/-- Calls that leave something to do are the first passes of the loop. -/
lemma Loop.drop (h : Loop body n r o) (hk : (calls body k r).fault? = none)
    (hbefore : ∀ i < k, (calls body i r).settled = false) :
    ∃ o', Loop body (n - k) (calls body k r).regs o' ∧ o'.result = o.result := by
  have hkn := h.le_of_calls hbefore
  obtain ⟨hcalls, hsettled, hrest⟩ := h.spec
  obtain ⟨j, rfl⟩ := Nat.exists_eq_add_of_le hkn
  rw [Nat.add_sub_cancel_left]
  rw [calls_add hk] at hcalls
  refine ⟨_, loop_of_calls ?_ ?_, by rw [← hcalls, Outcome.result_after]⟩
  · rwa [← hcalls, Outcome.settled_after] at hsettled
  · intro i hi
    simpa [calls_add hk] using hrest (k + i) (by omega)

/-- A loop comes back with the same result from where its first passes have led. -/
lemma returns_calls_iff (hk : (calls body k r).fault? = none)
    (hbefore : ∀ i < k, (calls body i r).settled = false) {res : Option JumpFault × Registers} :
    Returns body (calls body k r).regs res ↔ Returns body r res := by
  constructor
  · rintro ⟨n, o, hloop, rfl⟩
    exact ⟨_, _, hloop.prepend hk hbefore, rfl⟩
  · rintro ⟨n, o, hloop, rfl⟩
    obtain ⟨o', hloop', hres⟩ := hloop.drop hk hbefore
    exact ⟨_, o', hloop', hres⟩

/-! ## Drives -/

/-- A drive whose bound lets the loop come back has its outcome. -/
lemma Loop.outcome_drive (h : Loop body n r o) {bound : ℕ} (hn : n ≤ bound) :
    (drive body bound r).outcome = o := by
  induction h generalizing bound with
  | done h => rw [drive_of_halt bound h]
  | fault h hf =>
    obtain ⟨b, rfl⟩ := Nat.exists_eq_add_of_le' hn
    rw [drive_of_fault b h hf]
  | pass h hf _ ih =>
    obtain ⟨b, rfl⟩ := Nat.exists_eq_add_of_le' (Nat.le_of_add_left_le hn)
    rw [drive_succ b h hf, ih (by omega)]

lemma exists_loop_of_settled {bound : ℕ} (h : (drive body bound r).settled = true) :
    ∃ n ≤ bound, Loop body n r (drive body bound r).outcome := by
  induction bound generalizing r with
  | zero =>
    refine ⟨0, le_rfl, .done ?_⟩
    simpa [drive, Drive.settled] using h
  | succ bound ih =>
    by_cases hr : r.halt = true
    · rw [drive_of_halt _ hr]
      exact ⟨0, by omega, .done hr⟩
    · rw [Bool.not_eq_true] at hr
      rcases hf : (body r).fault? with _ | f
      · rw [drive_succ _ hr hf] at h ⊢
        obtain ⟨n, hn, hloop⟩ := ih (by simpa [Drive.settled] using h)
        exact ⟨n + 1, by omega, .pass hr hf hloop⟩
      · rw [drive_of_fault _ hr hf]
        exact ⟨1, by omega, .fault hr hf⟩

/-! ## One body in place of another -/

/-- Each call of `fast` gives the result of one or more calls of `slow`, and none of those but the
last settles anything. -/
def Accelerates (fast slow : Registers → Outcome) : Prop :=
  ∀ r, r.halt = false → ∃ k, 0 < k ∧ (∀ i < k, (calls slow i r).settled = false) ∧
    (fast r).result = (calls slow k r).result

namespace Accelerates

variable {fast slow : Registers → Outcome}

lemma loop_slow (h : Accelerates fast slow) (hloop : Loop fast n r o) :
    ∃ n' o', n ≤ n' ∧ Loop slow n' r o' ∧ o'.result = o.result := by
  induction hloop with
  | done h => exact ⟨0, _, le_rfl, .done h, rfl⟩
  | @fault r f hr hf =>
    obtain ⟨k, hk, hbefore, hresult⟩ := h r hr
    refine ⟨k, _, hk, loop_of_calls ?_ hbefore, hresult.symm⟩
    rw [← Outcome.settled_congr hresult]
    exact Outcome.settled_of_fault hf
  | @pass n r o hr hf _ ih =>
    obtain ⟨k, hk, hbefore, hresult⟩ := h r hr
    obtain ⟨hfault, hregs⟩ := Outcome.result_eq_iff.1 hresult
    obtain ⟨n', o', hn, hslow, hres⟩ := ih
    rw [hregs] at hslow
    exact ⟨k + n', _, by omega, hslow.prepend (hfault ▸ hf) hbefore, hres⟩

lemma loop_fast (h : Accelerates fast slow) (hloop : Loop slow n r o) :
    ∃ n' o', Loop fast n' r o' ∧ o'.result = o.result := by
  -- one call of `fast` uses up at least one pass of the slow loop
  induction n using Nat.strong_induction_on generalizing r o with
  | _ n ih =>
    by_cases hr : r.halt = true
    · cases hloop with
      | done => exact ⟨0, _, .done hr, rfl⟩
      | fault hr' => simp [hr] at hr'
      | pass hr' => simp [hr] at hr'
    rw [Bool.not_eq_true] at hr
    obtain ⟨k, hk, hbefore, hresult⟩ := h r hr
    obtain ⟨hfault, hregs⟩ := Outcome.result_eq_iff.1 hresult
    have hkn := hloop.le_of_calls hbefore
    rcases hf : (fast r).fault? with _ | f
    · rw [hf] at hfault
      obtain ⟨o', hrest, hres⟩ := hloop.drop hfault.symm hbefore
      rw [← hregs] at hrest
      obtain ⟨n', o'', hfast, hres'⟩ := ih (n - k) (by omega) hrest
      exact ⟨n' + 1, _, .pass hr hf hfast, hres'.trans hres⟩
    · rw [hf] at hfault
      obtain ⟨hcalls, -, -⟩ := hloop.spec
      obtain ⟨j, rfl⟩ := Nat.exists_eq_add_of_le hkn
      rw [calls_add_of_fault hfault.symm] at hcalls
      exact ⟨1, _, .fault hr hf, by rw [hresult, hcalls]⟩

/-- The two loops come back together and with the same result. -/
lemma returns_iff (h : Accelerates fast slow) {res : Option JumpFault × Registers} :
    Returns fast r res ↔ Returns slow r res := by
  constructor
  · rintro ⟨n, o, hloop, rfl⟩
    obtain ⟨n', o', -, hslow, hres⟩ := h.loop_slow hloop
    exact ⟨n', o', hslow, hres⟩
  · rintro ⟨n, o, hloop, rfl⟩
    obtain ⟨n', o', hfast, hres⟩ := h.loop_fast hloop
    exact ⟨n', o', hfast, hres⟩

end Accelerates

/-! ## Two bodies call by call -/

/-- Before the machine has halted, the two bodies give the same result wherever `P` holds, and a
call that succeeds keeps `P`. -/
def AgreeOn (P : Registers → Prop) (body body' : Registers → Outcome) : Prop :=
  ∀ r, P r → r.halt = false →
    (body' r).result = (body r).result ∧ ((body r).fault? = none → P (body r).regs)

namespace AgreeOn

variable {P : Registers → Prop} {body' : Registers → Outcome}

lemma symm (h : AgreeOn P body body') : AgreeOn P body' body := by
  intro r hP hr
  obtain ⟨hresult, hkeep⟩ := h r hP hr
  obtain ⟨hfault, hregs⟩ := Outcome.result_eq_iff.1 hresult
  exact ⟨hresult.symm, by rwa [hfault, hregs]⟩

lemma loop (h : AgreeOn P body body') (hP : P r) (hloop : Loop body n r o) :
    ∃ o', Loop body' n r o' ∧ o'.result = o.result := by
  induction hloop with
  | done hr => exact ⟨_, .done hr, rfl⟩
  | @fault r f hr hf =>
    obtain ⟨hresult, -⟩ := h r hP hr
    have hfault : (body' r).fault? = (body r).fault? := (Outcome.result_eq_iff.1 hresult).1
    exact ⟨_, .fault hr (hfault.trans hf), hresult⟩
  | @pass n r o hr hf _ ih =>
    obtain ⟨hresult, hkeep⟩ := h r hP hr
    obtain ⟨hfault, hregs⟩ := Outcome.result_eq_iff.1 hresult
    obtain ⟨o', hloop', hres⟩ := ih (hkeep hf)
    rw [← hregs] at hloop'
    exact ⟨_, .pass hr (hfault.trans hf) hloop', hres⟩

/-- From registers where `P` holds the two loops come back together and with the same result. -/
lemma returns_iff (h : AgreeOn P body body') (hP : P r) {res : Option JumpFault × Registers} :
    Returns body' r res ↔ Returns body r res := by
  constructor
  · rintro ⟨n, o, hloop, rfl⟩
    obtain ⟨o', hloop', hres⟩ := h.symm.loop hP hloop
    exact ⟨n, o', hloop', hres⟩
  · rintro ⟨n, o, hloop, rfl⟩
    obtain ⟨o', hloop', hres⟩ := h.loop hP hloop
    exact ⟨n, o', hloop', hres⟩

end AgreeOn
end AccumulatorMachine
