import AccumulatorMachine.Proofs.Exits

/-!
# Execution with every operation checked

Addresses are words, and so is the sum that a jump computes.  Addition of words wraps around, and an
index that lies outside an array is passed over.  Neither ever happens.  To say so, this file does
the work of cutting a program into blocks, of a step and of executing a block a second time, with
words for all positions and with checks: `Checked.add`, `sub` and `addSigned` refuse a result that
is not the exact one, `Checked.get` and `set` an index that is not below the size.  What wraps
around by design, the accumulator, is left unchecked.

The checked computations come out, with what the unchecked ones give: `Checked.blockTable_eq` for
the table, `Checked.step_eq` for a step from any registers whatsoever, and `Checked.execute_eq` for
a block of the table.  An address behind the largest signed word would make the sum of a jump
overflow, or turn it negative.  A step never comes to such a sum, because there is no instruction at
that address, and a block has the address of its jump from the table.
-/

namespace AccumulatorMachine

/-- What stops a checked computation. -/
inductive Trap where
  /-- A sum or a difference is not a number of its width. -/
  | overflow
  /-- An index is not below the size of its array. -/
  | outOfBounds
deriving DecidableEq, Repr

namespace Checked

/-! ## Operations -/

/-- A position or a size as an address. -/
def address (n : ℕ) : Except Trap UInt64 :=
  if n < 2 ^ 64 then .ok (UInt64.ofNat n) else .error .overflow

/-- The sum of two addresses. -/
def add (x y : UInt64) : Except Trap UInt64 :=
  if x.toNat + y.toNat < 2 ^ 64 then .ok (x + y) else .error .overflow

/-- The difference of two addresses. -/
def sub (x y : UInt64) : Except Trap UInt64 :=
  if y.toNat ≤ x.toNat then .ok (x - y) else .error .overflow

/-- The sum of two signed words. -/
def addSigned (x y : Int64) : Except Trap Int64 :=
  if -2 ^ 63 ≤ x.toInt + y.toInt ∧ x.toInt + y.toInt < 2 ^ 63 then .ok (x + y)
  else .error .overflow

/-- The element at an index. -/
def get {α : Type} (xs : Array α) (i : UInt64) : Except Trap α :=
  match xs[i.toNat]? with
  | some x => .ok x
  | none => .error .outOfBounds

/-- The array with another element at an index. -/
def set {α : Type} (xs : Array α) (i : UInt64) (x : α) : Except Trap (Array α) :=
  if i.toNat < xs.size then .ok (xs.setIfInBounds i.toNat x) else .error .outOfBounds

/-! ## Steps and blocks -/

/-- The target of a jump, unless it lies before the start of the program. -/
def jumpTarget (pc : UInt64) (offset : Int32) : Except Trap (Option UInt64) := do
  let target ← addSigned pc.toInt64 offset.toInt64
  return if target < 0 then none else some target.toUInt64

/-- Takes a jump from the current address. -/
def jump (r : Registers) (offset : Int32) : Except Trap Outcome := do
  match ← jumpTarget r.pc offset with
  | some target => return { regs := { r with pc := target } }
  | none =>
    let fault : JumpFault := ⟨r.pc, offset⟩
    return { regs := r, fault? := some fault, log := [.trapped fault] }

/-- What an instruction does, apart from the halt flag. -/
def perform (r : Registers) : Instruction → Except Trap Outcome
  | .nop => do
    let next ← add r.pc 1
    return { regs := { r with pc := next } }
  | .acc delta => do
    let next ← add r.pc 1
    return { regs := { r with acc := r.acc + delta, pc := next } }
  | .jmp offset => jump r offset

/-- Executes the instruction under the address. -/
def step (r : Registers) (p : Program) : Except Trap Outcome :=
  match p.get? r.pc with
  | none => return { regs := { r with halt := true } }
  | some i => do
    let o ← perform r i
    match o.fault? with
    | some _ => return o.after [.fetched r.pc i]
    | none => return { o with regs := o.regs.haltPast p.size }.after [.fetched r.pc i]

/-- Executes a whole block: its addition, then its exit. -/
def execute (b : Block) (r : Registers) : Except Trap Outcome :=
  let sum := r.acc + b.delta
  match b.exit with
  | .goto pc => return { regs := { r with acc := sum, pc := pc } }
  | .halt pc => return { regs := { acc := sum, pc := pc, halt := true } }
  | .fault site offset => jump { r with acc := sum, pc := site } offset

/-! ## The block table -/

/-- The positions that an instruction at an address makes into leaders. -/
def landings (pc : UInt64) : Instruction → Except Trap (List ℕ)
  | .jmp offset => do
    let next ← add pc 1
    let target? ← jumpTarget pc offset
    return next.toNat :: (target?.map UInt64.toNat).toList
  | _ => return []

/-- Every position that is a leader if it lies in the program. -/
def allLandings (p : Program) : Except Trap (List ℕ) := do
  let each ← p.toList.zipIdx.mapM fun entry => do
    let pc ← address entry.2
    landings pc entry.1
  return 0 :: each.flatten

/-- The positions that are marked. -/
def keepMarked (marks : Array Bool) : List ℕ → Except Trap (List ℕ)
  | [] => return []
  | i :: is => do
    let pc ← address i
    let marked ← get marks pc
    let rest ← keepMarked marks is
    return if marked then i :: rest else rest

/-- The leaders of a program in ascending order. -/
def leaders (p : Program) : Except Trap (List ℕ) := do
  let landings ← allLandings p
  keepMarked (Program.markAll (Array.replicate p.size false) landings) (List.range p.size)

/-- The exit of a block that ends before `stop` with the instruction at `last`. -/
def exitAfter (p : Program) (last stop : UInt64) : Except Trap Exit :=
  match p.get? last with
  | some (.jmp offset) => do
    match ← jumpTarget last offset with
    | some target => return p.exitTo target
    | none => return .fault last offset
  | _ => return p.exitTo stop

/-- The block from `start` up to `stop`. -/
def blockBetween (p : Program) (start stop : ℕ) : Except Trap Block := do
  let first ← address start
  let behind ← address stop
  let last ← sub behind 1
  let exit ← exitAfter p last behind
  return ⟨first, behind, p.deltaBetween start stop, exit⟩

/-- The blocks of a program in order. -/
def blocks (p : Program) : Except Trap (List Block) := do
  let starts ← leaders p
  starts.zipIdx.mapM fun entry => do
    let index ← address entry.2
    let next ← add index 1
    blockBetween p entry.1 (starts[next.toNat]?.getD p.size)

/-- The block table of a program. -/
def blockTable (p : Program) : Except Trap BlockTable := do
  let blocks ← blocks p
  let entries ← blocks.zipIdx.foldlM (fun entries e => set entries e.1.start (some e.2))
    (Array.replicate p.size none)
  return ⟨blocks.toArray, entries⟩

/-! ## Checks that are passed -/

variable {p : Program} {pc : UInt64} {offset : Int32} {r : Registers} {i n : ℕ}

@[simp] lemma ok_bind {α β : Type} (x : α) (f : α → Except Trap β) :
    (Except.ok x >>= f) = f x := rfl

@[simp] lemma pure_eq_ok {α : Type} (x : α) : (pure x : Except Trap α) = .ok x := rfl

lemma mapM_eq_ok {α β : Type} {f : α → Except Trap β} {g : α → β} {xs : List α}
    (h : ∀ x ∈ xs, f x = .ok (g x)) : xs.mapM f = .ok (xs.map g) := by
  induction xs with
  | nil => rfl
  | cons x xs ih =>
    have hxs := ih fun y hy => h y (List.mem_cons_of_mem _ hy)
    rw [List.mapM_cons, h x List.mem_cons_self, hxs]
    rfl

lemma address_eq (hp : p.Addressable) (hn : n ≤ p.size) : address n = .ok (UInt64.ofNat n) := by
  unfold Program.Addressable at hp
  exact if_pos (by omega)

lemma add_one_eq (hp : p.Addressable) (hpc : pc.toNat < p.size) : add pc 1 = .ok (pc + 1) := by
  unfold Program.Addressable at hp
  refine if_pos ?_
  rw [UInt64.toNat_one]
  omega

/-- From an address inside the program the sum of a jump is exact. -/
lemma jumpTarget_eq (hp : p.Addressable) (hpc : pc.toNat < p.size) :
    jumpTarget pc offset = .ok (AccumulatorMachine.jumpTarget pc offset) := by
  have hlo := offset.le_toInt
  have hhi := offset.toInt_lt
  unfold Program.Addressable at hp
  have hsum : addSigned pc.toInt64 offset.toInt64 = .ok (pc.toInt64 + offset.toInt64) := by
    refine if_pos ?_
    rw [toInt_toInt64 (by omega), Int32.toInt_toInt64]
    omega
  rw [jumpTarget, hsum]
  rfl

lemma jump_eq (hp : p.Addressable) (hpc : r.pc.toNat < p.size) :
    jump r offset = .ok (r.jump offset) := by
  rw [jump, jumpTarget_eq hp hpc, Registers.jump]
  rcases AccumulatorMachine.jumpTarget r.pc offset with _ | target
  · rfl
  · rfl

lemma perform_eq (hp : p.Addressable) (hpc : r.pc.toNat < p.size) (ins : Instruction) :
    perform r ins = .ok (r.execute ins) := by
  cases ins with
  | nop =>
    rw [perform, add_one_eq hp hpc]
    rfl
  | acc delta =>
    rw [perform, add_one_eq hp hpc]
    rfl
  | jmp offset => exact jump_eq hp hpc

/-- No operation of a step overflows, whatever the registers. -/
lemma step_eq (hp : p.Addressable) (r : Registers) : step r p = .ok (r.step p) := by
  unfold step Registers.step
  rcases hget : p.get? r.pc with _ | ins
  · rfl
  · simp only [perform_eq hp (Program.lt_size_of_get? hget), ok_bind]
    rcases (r.execute ins).fault? with _ | f
    · rfl
    · rfl

/-- No operation of a block of the table overflows, whatever the registers. -/
lemma execute_eq (hp : p.Addressable) {b : Block} (hb : b ∈ p.blocks) (r : Registers) :
    execute b r = .ok (b.execute r) := by
  unfold execute Block.execute Exit.execute
  rcases hexit : b.exit with pc | pc | ⟨site, offset⟩
  · rfl
  · rfl
  · -- the jump of a fault exit is the last instruction of its block
    obtain ⟨start, stop, hblock, rfl⟩ := Program.exists_isBlock_of_mem_blocks hb
    have hlt := hblock.lt
    have hle := hblock.stop_le
    have hlast : stop - 1 < p.size := by omega
    obtain ⟨rfl, -, -⟩ := (hp.exitAfter_eq_fault_iff hlast).1 hexit
    exact jump_eq hp (by rwa [hp.toNat_ofNat hlast.le])

/-! ## The table comes out -/

lemma landings_eq (hp : p.Addressable) (hi : i < p.size) (ins : Instruction) :
    landings (UInt64.ofNat i) ins = .ok (Program.landings i ins) := by
  have hword := hp.toNat_ofNat hi.le
  have hpc : (UInt64.ofNat i).toNat < p.size := by rwa [hword]
  cases ins with
  | nop => rfl
  | acc delta => rfl
  | jmp offset =>
    rw [landings, add_one_eq hp hpc, jumpTarget_eq hp hpc]
    simp only [ok_bind, pure_eq_ok, hp.toNat_add_one hpc, hword, Program.landings]

lemma allLandings_eq (hp : p.Addressable) : allLandings p = .ok p.allLandings := by
  have heach : ∀ entry ∈ p.toList.zipIdx,
      (do let pc ← address entry.2; landings pc entry.1) =
        Except.ok (Program.landings entry.2 entry.1) := by
    intro entry hentry
    have hi : entry.2 < p.size := List.snd_lt_of_mem_zipIdx hentry
    rw [address_eq hp hi.le, ok_bind, landings_eq hp hi]
  rw [allLandings, mapM_eq_ok heach, ok_bind, pure_eq_ok, Program.allLandings, List.flatMap_def]

lemma keepMarked_eq (hp : p.Addressable) {marks : Array Bool} (hmarks : marks.size = p.size)
    {is : List ℕ} (h : ∀ i ∈ is, i < p.size) :
    keepMarked marks is = .ok (is.filter fun i => marks[i]? == some true) := by
  induction is with
  | nil => rfl
  | cons i is ih =>
    have hi := h i List.mem_cons_self
    have hmark : marks[i]? = some marks[i] := Array.getElem?_eq_getElem (by omega)
    have hget : get marks (UInt64.ofNat i) = .ok marks[i] := by
      rw [get, hp.toNat_ofNat hi.le, hmark]
    rw [keepMarked, address_eq hp hi.le, ok_bind, hget, ok_bind,
      ih fun j hj => h j (List.mem_cons_of_mem _ hj), ok_bind, pure_eq_ok, List.filter_cons, hmark]
    simp

lemma size_markAll (marks : Array Bool) (positions : List ℕ) :
    (Program.markAll marks positions).size = marks.size := by
  induction positions generalizing marks with
  | nil => rfl
  | cons i positions ih =>
    rw [Program.markAll, List.foldl_cons]
    exact (ih _).trans Array.size_setIfInBounds

lemma leaders_eq (hp : p.Addressable) : leaders p = .ok p.leaders := by
  rw [leaders, allLandings_eq hp, ok_bind, keepMarked_eq hp]
  · rfl
  · rw [size_markAll, Array.size_replicate]
  · intro i hi
    exact List.mem_range.1 hi

lemma exitAfter_eq (hp : p.Addressable) (hi : i < p.size) :
    exitAfter p (UInt64.ofNat i) (UInt64.ofNat (i + 1)) = .ok (p.exitAfter i) := by
  unfold exitAfter Program.exitAfter
  rw [hp.get?_ofNat hi.le]
  rcases p.code[i]? with _ | ins
  · rfl
  · cases ins with
    | nop => rfl
    | acc delta => rfl
    | jmp offset =>
      simp only [jumpTarget_eq hp (show (UInt64.ofNat i).toNat < p.size by
        rwa [hp.toNat_ofNat hi.le]), ok_bind]
      rcases AccumulatorMachine.jumpTarget (UInt64.ofNat i) offset with _ | target
      · rfl
      · rfl

/-- A block has a last instruction, so the address before its end does not wrap around. -/
lemma blockBetween_eq (hp : p.Addressable) {start stop : ℕ} (h : p.IsBlock start stop) :
    blockBetween p start stop = .ok (p.blockBetween start stop) := by
  have hlt := h.lt
  have hle := h.stop_le
  obtain ⟨last, rfl⟩ : ∃ last, stop = last + 1 := ⟨stop - 1, by omega⟩
  have hsub : sub (UInt64.ofNat (last + 1)) 1 = .ok (UInt64.ofNat last) := by
    rw [sub, ← address_add_one, UInt64.add_sub_cancel]
    refine if_pos ?_
    rw [address_add_one, hp.toNat_ofNat hle, UInt64.toNat_one]
    omega
  rw [blockBetween, address_eq hp (by omega), address_eq hp hle, ok_bind, ok_bind, hsub, ok_bind,
    exitAfter_eq hp (by omega)]
  rfl

lemma blocks_eq (hp : p.Addressable) : blocks p = .ok p.blocks := by
  have heach : ∀ entry ∈ p.leaders.zipIdx,
      (do
        let index ← address entry.2
        let next ← add index 1
        blockBetween p entry.1 (p.leaders[next.toNat]?.getD p.size)) =
        Except.ok (p.blockBetween entry.1 (p.leaders[entry.2 + 1]?.getD p.size)) := by
    intro entry hentry
    have hindex : entry.2 < p.size := by
      refine lt_of_lt_of_le (List.snd_lt_of_mem_zipIdx hentry) ?_
      simpa [Program.leaders] using List.length_filter_le _ (List.range p.size)
    have hword := hp.toNat_ofNat hindex.le
    have hpc : (UInt64.ofNat entry.2).toNat < p.size := by rwa [hword]
    rw [address_eq hp hindex.le, ok_bind, add_one_eq hp hpc, ok_bind, hp.toNat_add_one hpc, hword,
      blockBetween_eq hp]
    exact Program.isBlock_of_getElem?_leaders (List.mem_zipIdx_iff_getElem?.1 hentry)
  rw [blocks, leaders_eq hp, ok_bind, mapM_eq_ok heach]
  congr 1
  apply List.ext_getElem?
  intro k
  rw [Program.getElem?_blocks, List.getElem?_map, List.getElem?_zipIdx, Option.map_map,
    Nat.zero_add]
  rfl

lemma foldlM_set_eq {es : List (Block × ℕ)} {entries : Array (Option ℕ)}
    (h : ∀ e ∈ es, e.1.start.toNat < entries.size) :
    es.foldlM (fun entries e => set entries e.1.start (some e.2)) entries =
      .ok (es.foldl (fun entries e => entries.setIfInBounds e.1.start.toNat (some e.2))
        entries) := by
  induction es generalizing entries with
  | nil => rfl
  | cons e es ih =>
    have hset : set entries e.1.start (some e.2) =
        .ok (entries.setIfInBounds e.1.start.toNat (some e.2)) :=
      if_pos (h e List.mem_cons_self)
    rw [List.foldlM_cons, hset, ok_bind, ih, List.foldl_cons]
    intro e' he'
    rw [Array.size_setIfInBounds]
    exact h e' (List.mem_cons_of_mem _ he')

/-- No operation overflows and no index is out of bounds while the table is built. -/
lemma blockTable_eq (hp : p.Addressable) : blockTable p = .ok p.blockTable := by
  rw [blockTable, blocks_eq hp, ok_bind, foldlM_set_eq]
  · rfl
  · intro e he
    have hmem : e.1 ∈ p.blocks := List.fst_mem_of_mem_zipIdx he
    obtain ⟨start, stop, hblock, hb⟩ := Program.exists_isBlock_of_mem_blocks hmem
    rw [hb, hp.toNat_start hblock, Array.size_replicate]
    exact hblock.isLeader.1

end Checked
end AccumulatorMachine
