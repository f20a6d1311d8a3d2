import AccumulatorMachine.Proofs.RoundTrip

/-!
# Which line is to blame

Reading a program stops at the first line that is not an instruction and says which one it was.
`Program.ofLines_eq_error_iff` says when that happens for a list of lines: the line with the
reported number is refused for the reported cause and all lines before it are instructions.  Nothing
is asked of the lines after it.  Together with the lines that are a program this leaves no list out,
so a list is either read as a whole or not at all.

A text is read through its lines, and the number of a line is then to be found in the text.
`Text.exists_isLine` cuts a text at any of its lines and counts the line feeds in front of it.  The
converse puts a text together from lines.  A line end must not be confused with the line in front of
it, which only a carriage return before a plain line feed can bring about, and a last line without a
line end asks for nothing but to be there (`Text.lines_written_of_ended`).
-/

namespace AccumulatorMachine

/-! ## Lists of lines -/

namespace Program

variable {lines : List String}

/-- Lines are refused for the first that is not an instruction. -/
lemma instructionsFrom_eq_error_iff {n : ℕ} {e : SourceError} :
    instructionsFrom n lines = .error e ↔
      ∃ k l, lines[k]? = some l ∧ Instruction.ofString l = .error e.cause ∧ e.line = n + k ∧
        ∀ j < k, ∃ l i, lines[j]? = some l ∧ Instruction.ofString l = .ok i := by
  induction lines generalizing n with
  | nil => simp [instructionsFrom]
  | cons line rest ih =>
    constructor
    · intro h
      rcases hline : Instruction.ofString line with cause | i
      · simp only [instructionsFrom, hline, Except.error.injEq] at h
        subst h
        refine ⟨0, line, rfl, hline, rfl, ?_⟩
        intro j hj
        omega
      · have hrest : instructionsFrom (n + 1) rest = .error e := by
          rcases hr : instructionsFrom (n + 1) rest with e' | is
          · simpa [instructionsFrom, hline, hr, Except.map] using h
          · simp [instructionsFrom, hline, hr, Except.map] at h
        obtain ⟨k, l, hk, hcause, hnumber, hbefore⟩ := ih.1 hrest
        refine ⟨k + 1, l, by simpa using hk, hcause, by omega, ?_⟩
        intro j hj
        cases j with
        | zero => exact ⟨line, i, rfl, hline⟩
        | succ j => simpa using hbefore j (by omega)
    · rintro ⟨k, l, hk, hcause, hnumber, hbefore⟩
      cases k with
      | zero =>
        obtain rfl : line = l := by simpa using hk
        obtain ⟨number, cause⟩ := e
        obtain rfl : number = n := hnumber
        simp only [instructionsFrom, hcause]
      | succ k =>
        obtain ⟨l', i, hl', hi⟩ := hbefore 0 k.succ_pos
        obtain rfl : line = l' := by simpa using hl'
        have hrest : instructionsFrom (n + 1) rest = .error e := by
          refine ih.2 ⟨k, l, by simpa using hk, hcause, by omega, ?_⟩
          intro j hj
          simpa using hbefore (j + 1) (by omega)
        simp only [instructionsFrom, hi, hrest, Except.map]

lemma ofLines_eq_error_iff {line : ℕ} {cause : LineError} :
    ofLines lines = .error ⟨line, cause⟩ ↔
      (∃ l, lines[line]? = some l ∧ Instruction.ofString l = .error cause) ∧
        ∀ k < line, ∃ l i, lines[k]? = some l ∧ Instruction.ofString l = .ok i := by
  have hmap : ofLines lines = .error ⟨line, cause⟩ ↔
      instructionsFrom 0 lines = .error ⟨line, cause⟩ := by
    rw [ofLines]
    rcases instructionsFrom 0 lines with e | is
    · simp [Except.map]
    · simp [Except.map]
  rw [hmap, instructionsFrom_eq_error_iff]
  constructor
  · rintro ⟨k, l, hk, hcause, hnumber, hbefore⟩
    obtain rfl : line = k := hnumber.trans k.zero_add
    exact ⟨⟨l, hk, hcause⟩, hbefore⟩
  · rintro ⟨⟨l, hl, hcause⟩, hbefore⟩
    exact ⟨line, l, hl, hcause, line.zero_add.symm, hbefore⟩

/-- A program has its instructions at the positions of their lines. -/
lemma getElem?_code_of_ofLines {p : Program} (h : ofLines lines = .ok p) {k : ℕ} {l : String}
    (hl : lines[k]? = some l) :
    ∃ i, Instruction.ofString l = .ok i ∧ p.code[k]? = some i := by
  have hread := ofLines_eq_ok_iff.1 h
  obtain ⟨hk, rfl⟩ := List.getElem?_eq_some_iff.1 hl
  have hk' : k < p.toList.length := hread.length_eq ▸ hk
  refine ⟨p.toList[k], hread.get hk hk', ?_⟩
  rw [← Array.getElem?_toList]
  exact List.getElem?_eq_getElem hk'

lemma size_of_ofLines {p : Program} (h : ofLines lines = .ok p) : p.size = lines.length := by
  rw [(ofLines_eq_ok_iff.1 h).length_eq, size, toList, Array.length_toList]

/-- Lines are a program exactly when each of them is an instruction. -/
lemma exists_ofLines_eq_ok_iff :
    (∃ p, ofLines lines = .ok p) ↔ ∀ l ∈ lines, ∃ i, Instruction.ofString l = .ok i := by
  constructor
  · intro hread l hl
    obtain ⟨p, hp⟩ := hread
    obtain ⟨k, hk⟩ := List.mem_iff_getElem?.1 hl
    obtain ⟨i, hi, -⟩ := getElem?_code_of_ofLines hp hk
    exact ⟨i, hi⟩
  · intro h
    rcases hread : ofLines lines with ⟨line, cause⟩ | p
    · obtain ⟨⟨l, hl, hcause⟩, -⟩ := ofLines_eq_error_iff.1 hread
      obtain ⟨i, hi⟩ := h l (List.mem_of_getElem? hl)
      rw [hi] at hcause
      cases hcause
    · exact ⟨p, rfl⟩

/-- **Reading is all or nothing, and stops at the first bad line.**  Lines are a program exactly
when each of them is an instruction.  The program is then as long as the list and has the
instruction of each line at the address with the line's number, and no instruction at any other
address.  Lines are refused with a number and a cause exactly when the line of that number is
refused for that cause and all lines before it are instructions, whatever comes after it. -/
theorem ofLines_all_or_nothing (lines : List String) :
    ((∃ p, ofLines lines = .ok p) ↔ ∀ l ∈ lines, ∃ i, Instruction.ofString l = .ok i) ∧
      (∀ p, ofLines lines = .ok p →
        p.size = lines.length ∧
          (∀ (k : ℕ) (l : String), lines[k]? = some l →
            ∃ i, Instruction.ofString l = .ok i ∧ p.code[k]? = some i ∧
              ∀ pc : UInt64, pc.toNat = k → p.get? pc = some i) ∧
          ∀ pc : UInt64, lines.length ≤ pc.toNat → p.get? pc = none) ∧
      ∀ line cause, ofLines lines = .error ⟨line, cause⟩ ↔
        (∃ l, lines[line]? = some l ∧ Instruction.ofString l = .error cause) ∧
          ∀ k < line, ∃ l i, lines[k]? = some l ∧ Instruction.ofString l = .ok i := by
  refine ⟨exists_ofLines_eq_ok_iff, ?_, fun line cause => ofLines_eq_error_iff⟩
  intro p hp
  have hsize := size_of_ofLines hp
  refine ⟨hsize, ?_, ?_⟩
  · intro k l hl
    obtain ⟨i, hi, hcode⟩ := getElem?_code_of_ofLines hp hl
    refine ⟨i, hi, hcode, ?_⟩
    intro pc hpc
    rw [get?, hpc, hcode]
  · intro pc hpc
    rwa [get?_eq_none_iff, hsize]

/-- Two lines that are refused: the first of them is reported.  Without them there is a program. -/
theorem ofLines_all_or_nothing_two_bad_lines :
    ofLines ["nop +0", "acc 5", "mov +1"] = .error ⟨1, .missingSign "5"⟩ ∧
      ∃ p, ofLines ["nop +0", "jmp -1"] = .ok p ∧ p.size = 2 ∧ p.get? 1 = some (.jmp (-1)) ∧
        p.get? 2 = none := by
  refine ⟨?_, ?_⟩
  · refine ((ofLines_all_or_nothing _).2.2 _ _).2 ⟨⟨"acc 5", rfl, by decide⟩, ?_⟩
    intro k hk
    obtain rfl : k = 0 := by omega
    exact ⟨"nop +0", .nop, rfl, by decide⟩
  · have hread : ofLines ["nop +0", "jmp -1"] = .ok ⟨#[.nop, .jmp (-1)]⟩ := by decide
    obtain ⟨hsize, -, houtside⟩ := (ofLines_all_or_nothing _).2.1 _ hread
    exact ⟨_, hread, hsize, by decide, houtside 2 (by decide)⟩

end Program

/-! ## Lines of a text -/

namespace Text

variable {cs l : List Char}

/-- A text with a line feed in it starts with a line and a line end. -/
lemma exists_separable_of_mem (h : '\n' ∈ cs) :
    ∃ l e rest, Separable l e ∧ cs = l ++ LineEnd.chars e ++ rest := by
  obtain ⟨front, rest, rfl, hfront⟩ := List.eq_append_cons_of_mem h
  by_cases hcr : front.getLast? = some '\r'
  · -- the carriage return goes with the line feed
    obtain ⟨l, rfl⟩ := List.getLast?_eq_some_iff.1 hcr
    refine ⟨l, .crlf, rest, ⟨fun hl => hfront (by simp [hl]), nofun⟩, ?_⟩
    simp [LineEnd.chars]
  · refine ⟨front, .lf, rest, ⟨hfront, fun _ => hcr⟩, ?_⟩
    simp [LineEnd.chars]

lemma LineEnd.getLast?_chars (e : LineEnd) : e.chars.getLast? = some '\n' := by
  cases e with
  | lf => rfl
  | crlf => rfl

lemma Separable.count_append {e : LineEnd} (h : Separable l e) (rest : List Char) :
    (l ++ e.chars ++ rest).count '\n' = rest.count '\n' + 1 := by
  have hl := List.count_eq_zero.2 h.1
  cases e with
  | lf => simp [LineEnd.chars, hl]
  | crlf => simp [LineEnd.chars, hl]

/-- `l` stands as a line in a text, with `front` before it and `back` behind it. -/
structure IsLine (front l back : List Char) : Prop where
  /-- It starts with the text or behind a line feed. -/
  starts : front = [] ∨ front.getLast? = some '\n'
  not_mem : '\n' ∉ l
  /-- It ends with the text, and is then not empty, or with a line end that it can be told from. -/
  ends : (back = [] ∧ l ≠ []) ∨ ∃ e rest, back = LineEnd.chars e ++ rest ∧ Separable l e

/-- The line number `k` of a text stands behind `k` line feeds and behind the lines before it. -/
lemma exists_isLine {k : ℕ} (h : (lines cs)[k]? = some l) :
    ∃ front back, cs = front ++ l ++ back ∧ IsLine front l back ∧ front.count '\n' = k ∧
      lines front = (lines cs).take k := by
  induction k generalizing cs with
  | zero =>
    by_cases hlf : '\n' ∈ cs
    · obtain ⟨l', e, rest, hsep, rfl⟩ := exists_separable_of_mem hlf
      rw [hsep.lines_append] at h
      obtain rfl : l' = l := by simpa using h
      exact ⟨[], e.chars ++ rest, by simp,
        ⟨Or.inl rfl, hsep.1, Or.inr ⟨e, rest, rfl, hsep⟩⟩, by simp, by simp⟩
    · -- without a line feed the text is its only line
      have hne : cs ≠ [] := by
        intro hnil
        simp [hnil] at h
      obtain rfl : cs = l := by simpa [lines_of_not_mem hlf hne] using h
      exact ⟨[], [], by simp, ⟨Or.inl rfl, hlf, Or.inl ⟨rfl, hne⟩⟩, by simp, by simp⟩
  | succ k ih =>
    have hlf : '\n' ∈ cs := by
      by_contra hlf
      by_cases hne : cs = []
      · simp [hne] at h
      · simp [lines_of_not_mem hlf hne] at h
    obtain ⟨l', e, rest, hsep, rfl⟩ := exists_separable_of_mem hlf
    have hk : (lines rest)[k]? = some l := by
      rw [hsep.lines_append] at h
      simpa using h
    obtain ⟨front, back, hrest, hline, hcount, hbefore⟩ := ih hk
    have hstarts : (l' ++ e.chars ++ front).getLast? = some '\n' := by
      rcases hline.starts with hfront | hfront
      · rw [hfront, List.append_nil, List.getLast?_append, e.getLast?_chars]
        rfl
      · rw [List.getLast?_append, hfront]
        rfl
    refine ⟨l' ++ e.chars ++ front, back, by simp [hrest],
      ⟨Or.inr hstarts, hline.not_mem, hline.ends⟩, ?_, ?_⟩
    · rw [hsep.count_append, hcount]
    · rw [hsep.lines_append, hsep.lines_append, hbefore, List.take_succ_cons]

/-! ## Texts from lines -/

/-- Without its line end the last line is the end of the text, whatever line end it would have. -/
lemma written_concat (ls : List (List Char × LineEnd)) (l : List Char) (e : LineEnd) :
    written false (ls ++ [(l, e)]) = ls.flatMap (fun x => x.1 ++ x.2.chars) ++ l := by
  induction ls with
  | nil => rfl
  | cons x ls ih =>
    have hne : ls ++ [(l, e)] ≠ [] := by simp
    obtain ⟨next, rest, hrest⟩ := List.exists_cons_of_ne_nil hne
    rw [List.cons_append, hrest, written, ← hrest, ih]
    simp

/-- Splitting a written text gives its lines back, if those with a line end can be told from it and
a last line without one is not empty. -/
lemma lines_written_of_ended {closed : Bool} {ls : List (List Char × LineEnd)}
    (hlf : ∀ x ∈ ls, '\n' ∉ x.1)
    (hcr : ∀ x ∈ if closed then ls else ls.dropLast, x.2 = .lf → x.1.getLast? ≠ some '\r')
    (hlast : closed = false → ∀ x, ls.getLast? = some x → x.1 ≠ []) :
    lines (written closed ls) = ls.map Prod.fst := by
  cases closed with
  | true =>
    refine lines_written ?_ hlast
    intro x hx
    exact ⟨hlf x hx, hcr x hx⟩
  | false =>
    rcases ls.eq_nil_or_concat with rfl | ⟨init, ⟨l, e⟩, rfl⟩
    · rfl
    · rw [List.concat_eq_append] at *
      simp only [Bool.false_eq_true, if_false, List.dropLast_concat] at hcr
      -- a carriage return and a line feed can stand behind any line
      have hcrlf : written false (init ++ [(l, e)]) = written false (init ++ [(l, .crlf)]) := by
        rw [written_concat, written_concat]
      rw [hcrlf, lines_written]
      · simp
      · intro x hx
        rcases List.mem_append.1 hx with hinit | hend
        · exact ⟨hlf x (List.mem_append_left _ hinit), hcr x hinit⟩
        · obtain rfl := List.mem_singleton.1 hend
          exact ⟨hlf (l, e) (by simp), nofun⟩
      · intro _ x hx
        obtain rfl : (l, LineEnd.crlf) = x := by simpa using hx
        exact hlast rfl (l, e) (by simp)

end Text

/-! ## Texts and lists of lines -/

namespace Program

/-- A text is refused for a line that stands behind as many line feeds as the reported number
says. -/
lemma exists_isLine_of_ofText {text : String} {line : ℕ} {cause : LineError}
    (h : ofText text = .error ⟨line, cause⟩) :
    ∃ front l back, text.toList = front ++ l ++ back ∧ Text.IsLine front l back ∧
      Instruction.ofString (String.ofList l) = .error cause ∧ front.count '\n' = line ∧
      ∀ l' ∈ Text.lines front, ∃ i, Instruction.ofString (String.ofList l') = .ok i := by
  obtain ⟨⟨l, hl, hcause⟩, hbefore⟩ := ofLines_eq_error_iff.1 h
  rw [List.getElem?_map, Option.map_eq_some_iff] at hl
  obtain ⟨l, hl, rfl⟩ := hl
  obtain ⟨front, back, htext, hline, hcount, hfront⟩ := Text.exists_isLine hl
  refine ⟨front, l, back, htext, hline, hcause, hcount, ?_⟩
  intro l' hl'
  rw [hfront, List.mem_take_iff_getElem] at hl'
  obtain ⟨k, hk, rfl⟩ := hl'
  obtain ⟨l', i, hl', hi⟩ := hbefore k (by omega)
  rw [List.getElem?_map, List.getElem?_eq_getElem (by omega), Option.map_some,
    Option.some.injEq] at hl'
  exact ⟨i, by rw [hl', hi]⟩

/-- **A text is read like the list of its lines, and its line numbers count line feeds.**  Take
lines without line feeds, each ended by a line feed alone or after a carriage return, with no line
in front of a plain line feed that ends in a carriage return itself.  The last line may go without a
line end if it is not empty.  The text is then read as the same program as the list, or refused with
the same number and the same cause.  And whatever a text looks like, if it is refused, the line at
fault is the first that is not an instruction, and the reported number is that of the line feeds
before it. -/
theorem ofText_agrees_with_ofLines :
    (∀ (closed : Bool) (ls : List (String × Text.LineEnd)),
      (∀ x ∈ ls, '\n' ∉ x.1.toList) →
      (∀ x ∈ if closed then ls else ls.dropLast,
        x.2 = .lf → x.1.toList.getLast? ≠ some '\r') →
      (closed = false → ∀ x, ls.getLast? = some x → x.1 ≠ "") →
      ofText (String.ofList (Text.written closed (ls.map (Prod.map String.toList id)))) =
        ofLines (ls.map Prod.fst)) ∧
      ∀ (text : String) (line : ℕ) (cause : LineError), ofText text = .error ⟨line, cause⟩ →
        ∃ front l back, text.toList = front ++ l ++ back ∧ Text.IsLine front l back ∧
          Instruction.ofString (String.ofList l) = .error cause ∧ front.count '\n' = line ∧
          ∀ l' ∈ Text.lines front, ∃ i, Instruction.ofString (String.ofList l') = .ok i := by
  refine ⟨?_, fun text line cause => exists_isLine_of_ofText⟩
  intro closed ls hlf hcr hlast
  have hlines : Text.lines (Text.written closed (ls.map (Prod.map String.toList id))) =
      (ls.map Prod.fst).map String.toList := by
    rw [Text.lines_written_of_ended, List.map_map, List.map_map]
    · rfl
    · intro y hy
      obtain ⟨x, hx, rfl⟩ := List.mem_map.1 hy
      exact hlf x hx
    · intro y hy
      have hended : y ∈ (if closed then ls else ls.dropLast).map (Prod.map String.toList id) := by
        cases closed with
        | true => exact hy
        | false => simpa [List.map_dropLast] using hy
      obtain ⟨x, hx, rfl⟩ := List.mem_map.1 hended
      exact hcr x hx
    · intro hclosed y hy
      rw [List.getLast?_map, Option.map_eq_some_iff] at hy
      obtain ⟨x, hx, rfl⟩ := hy
      intro hnil
      exact hlast hclosed x hx (String.toList_eq_nil_iff.1 hnil)
  rw [ofText, String.toList_ofList, hlines, List.map_map]
  simp

/-- A last line without a line end keeps its carriage return, and is refused for it. -/
theorem ofText_agrees_with_ofLines_lone_carriage_return :
    ofText "nop +0\r\nacc +1\r" = ofLines ["nop +0", "acc +1\r"] ∧
      ofText "nop +0\r\nacc +1\r" = .error ⟨1, .invalidOperand "+1\r"⟩ ∧
      ∃ front l back, "nop +0\r\nacc +1\r".toList = front ++ l ++ back ∧
        Text.IsLine front l back ∧ front.count '\n' = 1 := by
  have hsame := ofText_agrees_with_ofLines.1 false [("nop +0", .crlf), ("acc +1\r", .lf)]
    (by decide) (by decide) (by decide)
  have hrefused : ofText "nop +0\r\nacc +1\r" = .error ⟨1, .invalidOperand "+1\r"⟩ := by decide
  obtain ⟨front, l, back, htext, hline, -, hcount, -⟩ :=
    ofText_agrees_with_ofLines.2 _ _ _ hrefused
  exact ⟨hsame, hrefused, front, l, back, htext, hline, hcount⟩

end Program
end AccumulatorMachine
