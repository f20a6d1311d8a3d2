import Mathlib.Order.Nat
import Mathlib.Tactic.Common
import AccumulatorMachine.Block.Table

/-!
# Blocks and leaders

A block goes from a leader up to the next leader, or to the end of the program if there is none.
`Program.IsBlock` says so of two positions, and `exists_isBlock_of_mem_blocks` that every block of
the table was cut that way.  Since the position behind a jump is a leader, a jump can only be the
last instruction of its block (`IsBlock.not_jmp`).

The table finds blocks through an array of indices that is filled on its own;
`mem_blocks_of_blockAt` says that what it finds at an address is a block that starts there.
-/

namespace AccumulatorMachine

/-! ## Stretches between ascending positions -/

lemma spans_spec {size : ℕ} {starts : List ℕ} (hsorted : starts.Pairwise (· < ·))
    (hlt : ∀ i ∈ starts, i < size) {start stop : ℕ} (h : (start, stop) ∈ spans size starts) :
    start ∈ starts ∧ start < stop ∧ (stop = size ∨ stop ∈ starts) ∧
      ∀ i ∈ starts, start < i → stop ≤ i := by
  induction starts with
  | nil => cases h
  | cons s rest ih =>
    obtain ⟨hs, hrest⟩ := List.pairwise_cons.1 hsorted
    rcases rest with _ | ⟨t, rest⟩
    · obtain ⟨rfl, rfl⟩ : start = s ∧ stop = size := by simpa [spans] using h
      refine ⟨by simp, hlt _ (by simp), Or.inl rfl, ?_⟩
      intro i hi hsi
      obtain rfl : i = start := by simpa using hi
      omega
    · rcases List.mem_cons.1 h with heq | hmem
      · obtain ⟨rfl, rfl⟩ := Prod.mk.inj heq
        refine ⟨by simp, hs _ (by simp), Or.inr (by simp), ?_⟩
        intro i hi hsi
        rcases List.mem_cons.1 hi with rfl | hi
        · omega
        rcases List.mem_cons.1 hi with rfl | hi
        · exact le_rfl
        · exact ((List.pairwise_cons.1 hrest).1 i hi).le
      · obtain ⟨hstart, hlt', hstop, hgap⟩ :=
          ih hrest (fun i hi => hlt i (List.mem_cons_of_mem _ hi)) hmem
        refine ⟨List.mem_cons_of_mem _ hstart, hlt', hstop.imp_right (List.mem_cons_of_mem _), ?_⟩
        intro i hi hsi
        rcases List.mem_cons.1 hi with rfl | hi
        · have := hs start hstart
          omega
        · exact hgap i hi hsi

namespace Program

variable {p : Program}

lemma leaders_sorted (p : Program) : p.leaders.Pairwise (· < ·) :=
  List.pairwise_lt_range.filter _

lemma lt_size_of_mem_leaders {i : ℕ} (h : i ∈ p.leaders) : i < p.size :=
  (mem_leaders_iff.1 h).1

/-- The positions from `start` up to `stop` are a block: they start at a leader, hold no other, and
end where the next one stands or the program ends. -/
structure IsBlock (p : Program) (start stop : ℕ) : Prop where
  lt : start < stop
  isLeader : p.IsLeader start
  stop_eq : stop = p.size ∨ p.IsLeader stop
  le_of_isLeader : ∀ i, p.IsLeader i → start < i → stop ≤ i

lemma IsBlock.stop_le {start stop : ℕ} (h : p.IsBlock start stop) : stop ≤ p.size := by
  rcases h.stop_eq with hstop | hstop
  · exact hstop.le
  · exact hstop.1.le

/-- No instruction of a block but the last is a jump. -/
lemma IsBlock.not_jmp {start stop : ℕ} (h : p.IsBlock start stop) {i : ℕ} (hi : start ≤ i)
    (hstop : i + 1 < stop) (offset : Int32) : p.code[i]? ≠ some (.jmp offset) := by
  intro hjmp
  have hleader : p.IsLeader (i + 1) :=
    ⟨lt_of_lt_of_le hstop h.stop_le, Or.inr ⟨i, offset, hjmp, Or.inl rfl⟩⟩
  have := h.le_of_isLeader (i + 1) hleader (by omega)
  omega

lemma isBlock_of_mem_spans {start stop : ℕ} (h : (start, stop) ∈ spans p.size p.leaders) :
    p.IsBlock start stop := by
  obtain ⟨hstart, hlt, hstop, hgap⟩ :=
    spans_spec p.leaders_sorted (fun i hi => lt_size_of_mem_leaders hi) h
  refine ⟨hlt, mem_leaders_iff.1 hstart, hstop.imp_right mem_leaders_iff.1, ?_⟩
  intro i hi
  exact hgap i (mem_leaders_iff.2 hi)

lemma exists_isBlock_of_mem_blocks {b : Block} (h : b ∈ p.blocks) :
    ∃ start stop, p.IsBlock start stop ∧ b = p.blockBetween start stop := by
  obtain ⟨⟨start, stop⟩, hspan, rfl⟩ := List.mem_map.1 h
  exact ⟨start, stop, isBlock_of_mem_spans hspan, rfl⟩

end Program

/-! ## Look-up -/

lemma Program.mem_blocks_blockTable_iff {p : Program} {b : Block} :
    b ∈ p.blockTable.blocks ↔ b ∈ p.blocks := by
  simp [blockTable, BlockTable.ofBlocks]

/-- An index found in the filled array was there before or is that of a block that starts there. -/
lemma exists_mem_of_getElem?_entries {es : List (Block × ℕ)} {entries : Array (Option ℕ)} {i k : ℕ}
    (h : (es.foldl (fun entries e => entries.setIfInBounds e.1.start.toNat (some e.2))
      entries)[i]? = some (some k)) :
    entries[i]? = some (some k) ∨ ∃ b, (b, k) ∈ es ∧ b.start.toNat = i := by
  induction es generalizing entries with
  | nil => exact Or.inl h
  | cons e es ih =>
    rcases ih h with hset | ⟨b, hb, hstart⟩
    · rw [Array.getElem?_setIfInBounds] at hset
      split at hset
      · rename_i hi
        split at hset
        · obtain rfl : e.2 = k := by simpa using hset
          exact Or.inr ⟨e.1, List.mem_cons_self, hi⟩
        · cases hset
      · exact Or.inl hset
    · exact Or.inr ⟨b, List.mem_cons_of_mem _ hb, hstart⟩

lemma Program.mem_blocks_of_blockAt {p : Program} {pc : UInt64} {b : Block}
    (h : p.blockTable.blockAt pc = some b) : b ∈ p.blocks ∧ b.start = pc := by
  obtain ⟨k, hk, hb⟩ := Option.bind_eq_some_iff.1 h
  rw [Option.join_eq_some_iff] at hk
  have hmem : p.blocks[k]? = some b := by simpa [blockTable, BlockTable.ofBlocks] using hb
  refine ⟨List.mem_of_getElem? hmem, ?_⟩
  rcases exists_mem_of_getElem?_entries hk with hnone | ⟨b', hb', hstart⟩
  · rw [Array.getElem?_replicate] at hnone
    split at hnone <;> simp at hnone
  · rw [List.mem_zipIdx_iff_getElem?, hmem, Option.some.injEq] at hb'
    rw [hb']
    exact UInt64.toNat_inj.1 hstart

end AccumulatorMachine
