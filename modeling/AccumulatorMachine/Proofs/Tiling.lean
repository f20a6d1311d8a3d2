import Mathlib.Data.Nat.Find
import AccumulatorMachine.Proofs.Control
import AccumulatorMachine.Proofs.Partition

/-!
# Blocks tile the program

The blocks of a program are as many as its leaders and come in the same order: the `k`-th block
goes from the `k`-th leader up to the next one, and the last block up to the end
(`getElem?_blocks`).  Everything about the order of blocks is read off that equation.  That every
position lies in a block comes from the other side, the predicate `Program.IsBlock`: the block that
starts at the last leader not behind a position has the position in it
(`exists_isBlock_of_lt_size`), and two blocks with a position in common are one
(`IsBlock.start_eq`).

The look-up of a block by its address goes through an array that is written once for each block.
No two blocks start at one position, so no entry is ever overwritten, and the look-up finds every
block (`blockAt_eq_some_iff`).
-/

namespace AccumulatorMachine

/-! ## Stretches in order -/

lemma getElem?_spans (size : ℕ) (starts : List ℕ) (k : ℕ) :
    (spans size starts)[k]? =
      starts[k]?.map fun start => (start, starts[k + 1]?.getD size) := by
  induction starts generalizing k with
  | nil => rfl
  | cons s rest ih =>
    rcases rest with _ | ⟨t, rest⟩
    · cases k with
      | zero => rfl
      | succ k => rfl
    · cases k with
      | zero => rfl
      | succ k => exact ih k

namespace Program

variable {p : Program} {b b' : Block} {i k : ℕ} {start stop start' stop' : ℕ}

lemma getElem?_blocks (p : Program) (k : ℕ) :
    p.blocks[k]? = p.leaders[k]?.map fun start =>
      p.blockBetween start (p.leaders[k + 1]?.getD p.size) := by
  rw [blocks, List.getElem?_map, getElem?_spans, Option.map_map]
  rfl

/-! ## Leaders -/

lemma isLeader_zero (h : 0 < p.size) : p.IsLeader 0 :=
  ⟨h, Or.inl rfl⟩

lemma leaders_nodup (p : Program) : p.leaders.Nodup :=
  p.leaders_sorted.imp fun h => h.ne

lemma getElem?_leaders_zero (h : 0 < p.size) : p.leaders[0]? = some 0 := by
  have hzero := mem_leaders_iff.2 (isLeader_zero h)
  have hsorted := p.leaders_sorted
  rcases hleaders : p.leaders with _ | ⟨s, rest⟩
  · rw [hleaders] at hzero
    cases hzero
  · rw [hleaders] at hzero hsorted
    rcases List.mem_cons.1 hzero with rfl | hrest
    · rfl
    · exact absurd ((List.pairwise_cons.1 hsorted).1 0 hrest) (Nat.not_lt_zero s)

/-- A jump leads to a position exactly when the position is its own plus its offset. -/
lemma Addressable.exists_jumpTarget_iff (hp : p.Addressable) {q : ℕ} {offset : Int32}
    (hq : q < p.size) (hi : i ≤ p.size) :
    (∃ target, jumpTarget (UInt64.ofNat q) offset = some target ∧ i = target.toNat) ↔
      (q : ℤ) + offset.toInt = i := by
  simp only [hp.jumpTarget_ofNat_eq_some_iff hq]
  constructor
  · rintro ⟨target, h, rfl⟩
    exact h
  · intro h
    refine ⟨UInt64.ofNat i, ?_, (hp.toNat_ofNat hi).symm⟩
    rw [hp.toNat_ofNat hi, h]

/-- The leaders in terms of positions: the first one, those behind a jump, and those that a jump
leads to. -/
lemma Addressable.isLeader_iff (hp : p.Addressable) (hi : i < p.size) :
    p.IsLeader i ↔ i = 0 ∨ (∃ offset, p.code[i - 1]? = some (.jmp offset)) ∨
      ∃ (q : ℕ) (offset : Int32), p.code[q]? = some (.jmp offset) ∧
        (q : ℤ) + offset.toInt = i := by
  constructor
  · rintro ⟨-, rfl | ⟨j, offset, hjmp, rfl | htarget⟩⟩
    · exact Or.inl rfl
    · exact Or.inr (Or.inl ⟨offset, hjmp⟩)
    · have hj : j < p.size := (Array.getElem?_eq_some_iff.1 hjmp).1
      exact Or.inr (Or.inr ⟨j, offset, hjmp, (hp.exists_jumpTarget_iff hj hi.le).1 htarget⟩)
  · rintro (rfl | ⟨offset, hjmp⟩ | ⟨q, offset, hjmp, htarget⟩)
    · exact isLeader_zero hi
    · rcases i with _ | i
      · exact isLeader_zero hi
      · exact ⟨hi, Or.inr ⟨i, offset, hjmp, Or.inl rfl⟩⟩
    · have hq : q < p.size := (Array.getElem?_eq_some_iff.1 hjmp).1
      exact ⟨hi, Or.inr ⟨q, offset, hjmp, Or.inr ((hp.exists_jumpTarget_iff hq hi.le).2 htarget)⟩⟩

/-! ## Blocks by position -/

/-- A leader and the next one, or the end of the program behind the last one, bound a block. -/
lemma isBlock_of_getElem?_leaders (h : p.leaders[k]? = some start) :
    p.IsBlock start (p.leaders[k + 1]?.getD p.size) := by
  refine isBlock_of_mem_spans (List.mem_of_getElem? (i := k) ?_)
  rw [getElem?_spans, h, Option.map_some]

/-- A leader starts a block. -/
lemma exists_isBlock_of_isLeader (h : p.IsLeader start) :
    ∃ stop, p.IsBlock start stop ∧ p.blockBetween start stop ∈ p.blocks := by
  obtain ⟨k, hk⟩ := List.mem_iff_getElem?.1 (mem_leaders_iff.2 h)
  refine ⟨_, isBlock_of_getElem?_leaders hk, List.mem_of_getElem? (i := k) ?_⟩
  rw [getElem?_blocks, hk, Option.map_some]

/-- Two blocks with a position in common start together. -/
lemma IsBlock.start_eq (h : p.IsBlock start stop) (h' : p.IsBlock start' stop')
    (hi : start ≤ i ∧ i < stop) (hi' : start' ≤ i ∧ i < stop') : start = start' := by
  rcases Nat.lt_trichotomy start start' with hlt | heq | hlt
  · have := h.le_of_isLeader start' h'.isLeader hlt
    omega
  · exact heq
  · have := h'.le_of_isLeader start h.isLeader hlt
    omega

/-- Every position of a program lies in a block. -/
lemma exists_isBlock_of_lt_size (hi : i < p.size) :
    ∃ start stop, p.IsBlock start stop ∧ p.blockBetween start stop ∈ p.blocks ∧
      start ≤ i ∧ i < stop := by
  have hleader : p.IsLeader (Nat.findGreatest p.IsLeader i) :=
    Nat.findGreatest_spec (Nat.zero_le i) (isLeader_zero (by omega))
  obtain ⟨stop, hblock, hmem⟩ := exists_isBlock_of_isLeader hleader
  refine ⟨_, stop, hblock, hmem, Nat.findGreatest_le i, ?_⟩
  by_contra hle
  rcases hblock.stop_eq with hstop | hstop
  · omega
  · -- the next leader would be a later one that is not behind the position
    exact Nat.findGreatest_is_greatest hblock.lt (by omega) hstop

/-! ## Addresses of blocks -/

lemma Addressable.toNat_start (hp : p.Addressable) (h : p.IsBlock start stop) :
    (p.blockBetween start stop).start.toNat = start :=
  hp.toNat_ofNat h.isLeader.1.le

lemma Addressable.toNat_stop (hp : p.Addressable) (h : p.IsBlock start stop) :
    (p.blockBetween start stop).stop.toNat = stop :=
  hp.toNat_ofNat h.stop_le

/-- The block number `k` goes from leader number `k` up to the next one. -/
lemma Addressable.of_getElem?_blocks (hp : p.Addressable) (h : p.blocks[k]? = some b) :
    p.leaders[k]? = some b.start.toNat ∧ b.stop.toNat = p.leaders[k + 1]?.getD p.size := by
  rw [getElem?_blocks, Option.map_eq_some_iff] at h
  obtain ⟨start, hstart, rfl⟩ := h
  have hblock := isBlock_of_getElem?_leaders hstart
  exact ⟨by rw [hp.toNat_start hblock, hstart], hp.toNat_stop hblock⟩

/-- No two blocks start at one address. -/
lemma Addressable.eq_of_start_eq (hp : p.Addressable) {k' : ℕ} (h : p.blocks[k]? = some b)
    (h' : p.blocks[k']? = some b') (hstart : b.start = b'.start) : k = k' := by
  have hleader := (hp.of_getElem?_blocks h).1
  have hleader' := (hp.of_getElem?_blocks h').1
  rw [hstart] at hleader
  have hlt : k < p.leaders.length := (List.getElem?_eq_some_iff.1 hleader).1
  exact (List.getElem?_inj hlt p.leaders_nodup).1 (hleader.trans hleader'.symm)

end Program

/-! ## Look-up -/

/-- An entry that no block starts at is left as it was. -/
lemma getElem?_entries_of_forall_ne {es : List (Block × ℕ)} {entries : Array (Option ℕ)} {i : ℕ}
    (h : ∀ e ∈ es, e.1.start.toNat ≠ i) :
    (es.foldl (fun entries e => entries.setIfInBounds e.1.start.toNat (some e.2)) entries)[i]? =
      entries[i]? := by
  induction es generalizing entries with
  | nil => rfl
  | cons e es ih =>
    rw [List.foldl_cons, ih fun e' he' => h e' (List.mem_cons_of_mem _ he'),
      Array.getElem?_setIfInBounds_ne (h e List.mem_cons_self)]

/-- The entry at the start of a block is its index, if no other block starts there. -/
lemma getElem?_entries_of_mem {es : List (Block × ℕ)} {entries : Array (Option ℕ)} {b : Block}
    {k : ℕ} (hdistinct : es.Pairwise fun e e' => e.1.start ≠ e'.1.start) (hmem : (b, k) ∈ es)
    (hlt : b.start.toNat < entries.size) :
    (es.foldl (fun entries e => entries.setIfInBounds e.1.start.toNat (some e.2))
      entries)[b.start.toNat]? = some (some k) := by
  induction es generalizing entries with
  | nil => cases hmem
  | cons e es ih =>
    obtain ⟨hhead, htail⟩ := List.pairwise_cons.1 hdistinct
    rw [List.foldl_cons]
    rcases List.mem_cons.1 hmem with rfl | hrest
    · -- the blocks after it write elsewhere
      rw [getElem?_entries_of_forall_ne, Array.getElem?_setIfInBounds_self_of_lt hlt]
      intro e' he' hstart
      exact hhead e' he' (UInt64.toNat_inj.1 hstart.symm)
    · exact ih htail hrest (by rwa [Array.size_setIfInBounds])

namespace Program

variable {p : Program} {b b' : Block} {i k : ℕ} {start stop start' stop' : ℕ}

lemma Addressable.pairwise_start_ne (hp : p.Addressable) :
    p.blocks.zipIdx.Pairwise fun e e' => e.1.start ≠ e'.1.start := by
  rw [List.pairwise_iff_getElem]
  intro j k hj hk hjk hstart
  have hblock : ∀ n (hn : n < p.blocks.zipIdx.length),
      p.blocks[n]? = some (p.blocks.zipIdx[n]).1 := by
    intro n hn
    simp only [List.length_zipIdx] at hn
    simp [hn]
  exact hjk.ne (hp.eq_of_start_eq (hblock j hj) (hblock k hk) hstart)

/-- Looking up an address finds the block that starts there. -/
lemma Addressable.blockAt_eq_some_iff (hp : p.Addressable) {pc : UInt64} :
    p.blockTable.blockAt pc = some b ↔ b ∈ p.blocks ∧ b.start = pc := by
  refine ⟨mem_blocks_of_blockAt, ?_⟩
  rintro ⟨hmem, rfl⟩
  obtain ⟨k, hk⟩ := List.mem_iff_getElem?.1 hmem
  have hlt : b.start.toNat < p.size :=
    lt_size_of_mem_leaders (List.mem_of_getElem? (hp.of_getElem?_blocks hk).1)
  have hentry : p.blockTable.entries[b.start.toNat]? = some (some k) :=
    getElem?_entries_of_mem hp.pairwise_start_ne (List.mem_zipIdx_iff_getElem?.2 hk)
      (by rwa [Array.size_replicate])
  rw [BlockTable.blockAt, hentry]
  simpa [blockTable, BlockTable.ofBlocks] using hk

lemma Addressable.blockAt_eq_none_iff (hp : p.Addressable) {pc : UInt64} :
    p.blockTable.blockAt pc = none ↔ ∀ b ∈ p.blocks, b.start ≠ pc := by
  simp only [Option.eq_none_iff_forall_ne_some, ne_eq, hp.blockAt_eq_some_iff, not_and]

lemma Addressable.blockAt_of_size_le (hp : p.Addressable) {pc : UInt64} (h : p.size ≤ pc.toNat) :
    p.blockTable.blockAt pc = none := by
  rw [hp.blockAt_eq_none_iff]
  rintro b hb rfl
  obtain ⟨start, stop, hblock, rfl⟩ := exists_isBlock_of_mem_blocks hb
  rw [hp.toNat_start hblock] at h
  exact absurd hblock.isLeader.1 (not_lt.2 h)

/-! ## The tiling -/

lemma Addressable.exists_start_iff (hp : p.Addressable) :
    (∃ b ∈ p.blocks, b.start.toNat = i) ↔ p.IsLeader i := by
  constructor
  · rintro ⟨b, hb, rfl⟩
    obtain ⟨start, stop, hblock, rfl⟩ := exists_isBlock_of_mem_blocks hb
    rw [hp.toNat_start hblock]
    exact hblock.isLeader
  · intro h
    obtain ⟨stop, hblock, hmem⟩ := exists_isBlock_of_isLeader h
    exact ⟨_, hmem, hp.toNat_start hblock⟩

/-- There is a block to be found at an address exactly when a leader stands there. -/
lemma Addressable.exists_blockAt_iff (hp : p.Addressable) {pc : UInt64} :
    (∃ b, p.blockTable.blockAt pc = some b) ↔ p.IsLeader pc.toNat := by
  simp only [hp.blockAt_eq_some_iff, ← hp.exists_start_iff, UInt64.toNat_inj]

lemma Addressable.existsUnique_block (hp : p.Addressable) (hi : i < p.size) :
    ∃! k : ℕ, ∃ b, p.blocks[k]? = some b ∧ b.start.toNat ≤ i ∧ i < b.stop.toNat := by
  obtain ⟨start, stop, hblock, hmem, hle, hlt⟩ := exists_isBlock_of_lt_size hi
  obtain ⟨k, hk⟩ := List.mem_iff_getElem?.1 hmem
  refine ⟨k, ⟨_, hk, by rwa [hp.toNat_start hblock], by rwa [hp.toNat_stop hblock]⟩, ?_⟩
  rintro k' ⟨b, hk', hle', hlt'⟩
  obtain ⟨start', stop', hblock', rfl⟩ := exists_isBlock_of_mem_blocks (List.mem_of_getElem? hk')
  rw [hp.toNat_start hblock'] at hle'
  rw [hp.toNat_stop hblock'] at hlt'
  obtain rfl := hblock.start_eq hblock' ⟨hle, hlt⟩ ⟨hle', hlt'⟩
  exact hp.eq_of_start_eq hk' hk rfl

/-- The block with no block after it ends with the program. -/
lemma Addressable.toNat_stop_of_last (hp : p.Addressable) (h : p.blocks[k]? = some b)
    (hlast : p.blocks[k + 1]? = none) : b.stop.toNat = p.size := by
  rw [getElem?_blocks, Option.map_eq_none_iff] at hlast
  rw [(hp.of_getElem?_blocks h).2, hlast, Option.getD_none]

/-- A block ends where the block after it starts. -/
lemma Addressable.stop_eq_start (hp : p.Addressable) (h : p.blocks[k]? = some b)
    (h' : p.blocks[k + 1]? = some b') : b.stop = b'.start := by
  apply UInt64.toNat_inj.1
  rw [(hp.of_getElem?_blocks h).2, (hp.of_getElem?_blocks h').1, Option.getD_some]

lemma exists_getElem?_blocks_zero (h : 0 < p.size) :
    ∃ b, p.blocks[0]? = some b ∧ b.start = 0 := by
  refine ⟨p.blockBetween 0 (p.leaders[1]?.getD p.size), ?_, rfl⟩
  rw [getElem?_blocks, getElem?_leaders_zero h, Option.map_some]

end Program

/-- **The blocks tile the program.**  In order, the first starts at zero, each ends behind its start
and where the next one starts, and the last ends with the program, so that every position lies in
exactly one of them.  They start at zero, behind the jumps and where the jumps lead, and nowhere
else.  Looking up an address finds the one block that starts there, and nothing at any other
address, inside the program or outside. -/
theorem blocks_tile_program {p : Program} (hp : p.size < 2 ^ 59) :
    (0 < p.size → ∃ b, p.blockTable.blocks[0]? = some b ∧ b.start = 0) ∧
      (∀ b ∈ p.blockTable.blocks, b.start.toNat < b.stop.toNat) ∧
      (∀ (k : ℕ) (b b' : Block), p.blockTable.blocks[k]? = some b →
        p.blockTable.blocks[k + 1]? = some b' → b.stop = b'.start) ∧
      (∀ b, p.blockTable.blocks.back? = some b → b.stop.toNat = p.size) ∧
      (∀ i < p.size, ∃! k : ℕ, ∃ b, p.blockTable.blocks[k]? = some b ∧
        b.start.toNat ≤ i ∧ i < b.stop.toNat) ∧
      (∀ s < p.size, (∃ b ∈ p.blockTable.blocks, b.start.toNat = s) ↔
        s = 0 ∨ (∃ offset, p.code[s - 1]? = some (.jmp offset)) ∨
          ∃ (q : ℕ) (offset : Int32), p.code[q]? = some (.jmp offset) ∧
            (q : ℤ) + offset.toInt = s) ∧
      (∀ pc b, p.blockTable.blockAt pc = some b ↔
        ∃ k : ℕ, p.blockTable.blocks[k]? = some b ∧ b.start = pc ∧
          ∀ (k' : ℕ) (b' : Block), p.blockTable.blocks[k']? = some b' → b'.start = pc → k' = k) ∧
      (∀ pc, p.blockTable.blockAt pc = none ↔ ∀ b ∈ p.blockTable.blocks, b.start ≠ pc) ∧
      ∀ pc, p.size ≤ pc.toNat → p.blockTable.blockAt pc = none := by
  have haddr := Program.addressable_of_size_lt hp
  have htable : p.blockTable.blocks = p.blocks.toArray := rfl
  simp only [htable, List.getElem?_toArray, List.mem_toArray, List.back?_toArray]
  refine ⟨Program.exists_getElem?_blocks_zero, ?_, ?_, ?_, ?_, ?_, ?_, ?_, ?_⟩
  · intro b hb
    obtain ⟨start, stop, hblock, rfl⟩ := Program.exists_isBlock_of_mem_blocks hb
    rw [haddr.toNat_start hblock, haddr.toNat_stop hblock]
    exact hblock.lt
  · intro k b b' hb hb'
    exact haddr.stop_eq_start hb hb'
  · intro b hb
    rw [List.getLast?_eq_getElem?] at hb
    exact haddr.toNat_stop_of_last hb (List.getElem?_eq_none (by omega))
  · intro i hi
    exact haddr.existsUnique_block hi
  · intro s hs
    rw [haddr.exists_start_iff, haddr.isLeader_iff hs]
  · intro pc b
    rw [haddr.blockAt_eq_some_iff]
    constructor
    · rintro ⟨hmem, rfl⟩
      obtain ⟨k, hk⟩ := List.mem_iff_getElem?.1 hmem
      exact ⟨k, hk, rfl, fun k' b' hk' hstart => haddr.eq_of_start_eq hk' hk hstart⟩
    · rintro ⟨k, hk, hstart, -⟩
      exact ⟨List.mem_of_getElem? hk, hstart⟩
  · intro pc
    exact haddr.blockAt_eq_none_iff
  · intro pc hpc
    exact haddr.blockAt_of_size_le hpc

/-- A position in the middle of the last of five blocks. -/
theorem blocks_tile_program_inside_block :
    (∃! k : ℕ, ∃ b,
      (⟨#[.nop, .acc 1, .jmp 4, .acc 3, .jmp (-3), .acc (-99), .acc 1, .nop, .acc 6]⟩ :
        Program).blockTable.blocks[k]? = some b ∧ b.start.toNat ≤ 7 ∧ 7 < b.stop.toNat) ∧
      (⟨#[.nop, .acc 1, .jmp 4, .acc 3, .jmp (-3), .acc (-99), .acc 1, .nop, .acc 6]⟩ :
        Program).blockTable.blockAt 7 = none := by
  obtain ⟨-, -, -, -, hunique, -, -, hnone, -⟩ := blocks_tile_program
    (p := ⟨#[.nop, .acc 1, .jmp 4, .acc 3, .jmp (-3), .acc (-99), .acc 1, .nop, .acc 6]⟩)
    (by decide)
  exact ⟨hunique 7 (by decide), (hnone 7).2 (by decide)⟩

end AccumulatorMachine
