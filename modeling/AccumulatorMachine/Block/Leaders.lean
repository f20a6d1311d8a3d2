import AccumulatorMachine.Registers.Jump

/-!
# Leaders

A leader is an address at which straight execution can be entered: the first address, the
address after a jump, and the target of a jump.  `IsLeader` states that; `leaders` computes
the leaders of a program in ascending order by marking addresses, and `mem_leaders_iff` says
that the two agree.
-/

namespace AccumulatorMachine
namespace Program

/-- Whether execution can be entered at this position of the program. -/
def IsLeader (p : Program) (i : Nat) : Prop :=
  i < p.size ∧
    (i = 0 ∨
      ∃ j offset, p.code[j]? = some (.jmp offset) ∧
        (i = j + 1 ∨ ∃ target, jumpTarget (UInt64.ofNat j) offset = some target ∧
          i = target.toNat))

/-- The positions that an instruction at position `i` makes into leaders, some of them perhaps
outside the program. -/
def landings (i : Nat) : Instruction → List Nat
  | .jmp offset => (i + 1) :: ((jumpTarget (UInt64.ofNat i) offset).map UInt64.toNat).toList
  | _ => []

/-- Every position that is a leader if it lies in the program. -/
def allLandings (p : Program) : List Nat :=
  0 :: p.toList.zipIdx.flatMap fun entry => landings entry.2 entry.1

/-- Marks the given positions; those outside the marks are passed over. -/
def markAll (marks : Array Bool) (positions : List Nat) : Array Bool :=
  positions.foldl (fun marks i => marks.setIfInBounds i true) marks

/-- For each position of the program, whether it is a leader. -/
def leaderMarks (p : Program) : Array Bool :=
  markAll (Array.replicate p.size false) p.allLandings

/-- The leaders of a program in ascending order. -/
def leaders (p : Program) : List Nat :=
  let marks := p.leaderMarks
  (List.range p.size).filter fun i => marks[i]? == some true

/-! ## Marks and leaders agree -/

theorem getElem?_markAll (marks : Array Bool) (positions : List Nat) (i : Nat) :
    (markAll marks positions)[i]? = some true ↔
      marks[i]? = some true ∨ (i < marks.size ∧ i ∈ positions) := by
  induction positions generalizing marks with
  | nil => simp [markAll]
  | cons j positions ih =>
    have h := ih (marks.setIfInBounds j true)
    simp only [markAll, List.foldl_cons] at h ⊢
    rw [h, Array.size_setIfInBounds, Array.getElem?_setIfInBounds]
    by_cases hj : j = i
    · subst hj
      by_cases hlt : j < marks.size <;> simp [hlt]
    · simp [hj, Ne.symm hj]

theorem mem_landings_iff {i k : Nat} {ins : Instruction} :
    k ∈ landings i ins ↔ ∃ offset, ins = .jmp offset ∧
      (k = i + 1 ∨ ∃ target, jumpTarget (UInt64.ofNat i) offset = some target ∧
        k = target.toNat) := by
  cases ins with
  | nop => simp [landings]
  | acc d => simp [landings]
  | jmp offset =>
    simp only [landings, List.mem_cons, Option.mem_toList, Option.map_eq_some_iff,
      Instruction.jmp.injEq, exists_eq_left']
    exact or_congr_right (exists_congr fun _ => and_congr_right fun _ => eq_comm)

theorem mem_allLandings_iff {p : Program} {k : Nat} :
    k ∈ p.allLandings ↔ k = 0 ∨
      ∃ j offset, p.code[j]? = some (.jmp offset) ∧
        (k = j + 1 ∨ ∃ target, jumpTarget (UInt64.ofNat j) offset = some target ∧
          k = target.toNat) := by
  simp only [allLandings, List.mem_cons, List.mem_flatMap, Prod.exists, mem_landings_iff,
    List.mem_zipIdx_iff_getElem?, toList, Array.getElem?_toList]
  apply or_congr_right
  constructor
  · rintro ⟨_, j, h, offset, rfl, hk⟩
    exact ⟨j, offset, h, hk⟩
  · rintro ⟨j, offset, h, hk⟩
    exact ⟨_, j, h, offset, rfl, hk⟩

/-- The computed leaders are the leaders. -/
theorem mem_leaders_iff {p : Program} {i : Nat} : i ∈ p.leaders ↔ p.IsLeader i := by
  simp only [leaders, List.mem_filter, List.mem_range, beq_iff_eq, leaderMarks,
    getElem?_markAll, Array.size_replicate, IsLeader, mem_allLandings_iff]
  constructor
  · rintro ⟨hi, h | h⟩
    · simp [hi] at h
    · exact ⟨hi, h.2⟩
  · rintro ⟨hi, h⟩
    exact ⟨hi, Or.inr ⟨hi, h⟩⟩

instance (p : Program) (i : Nat) : Decidable (p.IsLeader i) :=
  decidable_of_iff _ mem_leaders_iff

end Program
end AccumulatorMachine
