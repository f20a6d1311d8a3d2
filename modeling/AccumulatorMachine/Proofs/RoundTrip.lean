import AccumulatorMachine.Instruction.Printer
import AccumulatorMachine.Proofs.Grammar

/-!
# A program survives being written down

The canonical line of an instruction is one of the lines that are read as it
(`Instruction.ofString_text`): the opcode takes three bytes, the operand is printed with its sign
and read back to the same number, and that number came out of a word of the right width, the most
negative ones included.

A text is put together from lines that each choose their own line end, with or without one after the
last line.  Splitting it gives the lines back (`Text.lines_written`) as long as no line can be
confused with its end.  A canonical line has nothing but printable characters in it and cannot.
-/

namespace AccumulatorMachine

/-! ## Texts made of lines -/

namespace Text

/-- The text of some lines, each with its own line end.  The line end of the last one is written
only if `closed` is set. -/
def written (closed : Bool) : List (List Char × LineEnd) → List Char
  | [] => []
  | [(l, e)] => if closed then l ++ e.chars else l
  | (l, e) :: next :: rest => l ++ e.chars ++ written closed (next :: rest)

/-- A line that can be told from the line end behind it. -/
def Separable (l : List Char) (e : LineEnd) : Prop :=
  '\n' ∉ l ∧ (e = .lf → l.getLast? ≠ some '\r')

lemma Separable.lines_append {l : List Char} {e : LineEnd} (h : Separable l e)
    (rest : List Char) : lines (l ++ e.chars ++ rest) = l :: lines rest := by
  obtain ⟨hlf, hcr⟩ := h
  rw [List.append_assoc]
  cases e with
  | lf => exact lines_append_lf rest hlf (hcr rfl)
  | crlf => exact lines_append_crlf rest hlf

/-- Splitting a written text gives its lines back.  Without its line end the last line must not be
empty, or there would be nothing left of it. -/
lemma lines_written {closed : Bool} {ls : List (List Char × LineEnd)}
    (hsep : ∀ x ∈ ls, Separable x.1 x.2)
    (hlast : closed = false → ∀ x, ls.getLast? = some x → x.1 ≠ []) :
    lines (written closed ls) = ls.map Prod.fst := by
  induction ls with
  | nil => rfl
  | cons x rest ih =>
    obtain ⟨l, e⟩ := x
    have hx := hsep (l, e) List.mem_cons_self
    rcases rest with _ | ⟨next, rest⟩
    · cases closed with
      | true =>
        have hline := hx.lines_append []
        rwa [List.append_nil, lines_nil] at hline
      | false => exact lines_of_not_mem hx.1 (hlast rfl (l, e) rfl)
    · rw [written, hx.lines_append, List.map_cons, ih]
      · intro x hmem
        exact hsep x (List.mem_cons_of_mem _ hmem)
      · intro hclosed x hx'
        exact hlast hclosed x (by rwa [List.getLast?_cons_cons])

end Text

/-! ## One instruction -/

namespace Instruction

lemma instruction?_opcode (i : Instruction) : i.opcode.instruction? i.operand = some i := by
  cases i with
  | nop => rfl
  | acc d => simp [opcode, operand, Opcode.instruction?, int64?_eq_some_iff.2 rfl]
  | jmp o => simp [opcode, operand, Opcode.instruction?, int32?_eq_some_iff.2 rfl]

/-- The canonical line of an instruction is read as that instruction. -/
lemma ofString_text (i : Instruction) : ofString i.text = .ok i := by
  rw [ofString, toList_text]
  refine ofChars_eq_ok_iff.2 ⟨i.opcode, ⟨Sign.ofInt i.operand, Text.decimal i.operand.natAbs⟩, rfl,
    Text.decimal_ne_nil _, Text.all_isDigit_decimal _, ?_⟩
  simp only [Operand.value, Text.value_decimal, Sign.apply_ofInt_natAbs]
  exact instruction?_opcode i

lemma chars_ne_nil (i : Instruction) : i.chars ≠ [] := by
  simp [chars]

/-- A canonical line has no control characters in it. -/
lemma le_toNat_of_mem_chars {i : Instruction} {c : Char} (h : c ∈ i.chars) : 32 ≤ c.toNat := by
  have hopcode : i.opcode.chars.all (fun d => 32 ≤ d.toNat) = true := by
    cases i.opcode <;> decide
  have hsign : 32 ≤ (Sign.ofInt i.operand).char.toNat := by
    cases Sign.ofInt i.operand <;> decide
  simp only [chars, Text.signed, List.mem_append, List.mem_cons] at h
  rcases h with h | rfl | rfl | h
  · exact of_decide_eq_true (List.all_eq_true.1 hopcode c h)
  · decide
  · exact hsign
  · have hdigit := Text.isDigit_of_mem_decimal h
    rw [Char.isDigit, Bool.and_eq_true, decide_eq_true_eq] at hdigit
    exact Nat.le_trans (by decide) (UInt32.le_iff_toNat_le.1 hdigit.1)

lemma separable_chars (i : Instruction) (e : Text.LineEnd) : Text.Separable i.chars e := by
  refine ⟨fun h => absurd (le_toNat_of_mem_chars h) (by decide), ?_⟩
  intro _ hlast
  exact absurd (le_toNat_of_mem_chars (List.mem_of_getLast? hlast)) (by decide)

end Instruction

/-! ## Programs -/

namespace Program

/-- The text of a program: the canonical line of each instruction, ended as `ends` says. -/
def source (p : Program) (ends : ℕ → Text.LineEnd) (closed : Bool) : String :=
  String.ofList (Text.written closed (p.toList.zipIdx.map fun e => (e.1.chars, ends e.2)))

lemma ofLines_text (p : Program) : ofLines (p.toList.map Instruction.text) = .ok p := by
  rw [ofLines_eq_ok_iff, List.forall₂_map_left_iff]
  exact List.forall₂_same.2 fun i _ => i.ofString_text

lemma lines_source (p : Program) (ends : ℕ → Text.LineEnd) (closed : Bool) :
    Text.lines (p.source ends closed).toList = p.toList.map Instruction.chars := by
  rw [source, String.toList_ofList, Text.lines_written]
  · rw [List.map_map]
    change p.toList.zipIdx.map (Instruction.chars ∘ Prod.fst) = _
    rw [← List.map_map, List.zipIdx_map_fst]
  · intro x hx
    obtain ⟨e, -, rfl⟩ := List.mem_map.1 hx
    exact e.1.separable_chars _
  · intro _ x hx
    obtain ⟨e, -, rfl⟩ := List.mem_map.1 (List.mem_of_getLast? hx)
    exact e.1.chars_ne_nil

/-- **A program survives being written down.**  With its instructions on lines of their own, each
line ended by a line feed alone or after a carriage return, whichever the writer likes, and the last
one perhaps not ended at all, the text is read back as the same program.  So are the lines as a
list. -/
theorem ofText_source (p : Program) (ends : ℕ → Text.LineEnd) (closed : Bool) :
    ofText (p.source ends closed) = .ok p ∧ ofLines (p.toList.map Instruction.text) = .ok p := by
  refine ⟨?_, ofLines_text p⟩
  rw [ofText, lines_source, List.map_map]
  exact ofLines_text p

example : (⟨#[.acc Int64.minValue, .nop, .jmp (-3)]⟩ : Program).source
    (fun k => if k = 0 then .crlf else .lf) false =
      "acc -9223372036854775808\r\nnop +0\njmp -3" := by
  decide

end Program
end AccumulatorMachine
