import Mathlib.Data.String.Basic
import AccumulatorMachine.Proofs.Forms

/-!
# Why a line is refused

A line that is no instruction is refused for a cause, together with the part of the line at fault.
`Instruction.Diagnosis` lists what there is to say about a line, its acceptance included, and
`Diagnosis.Applies` says when it is to be said.  The conditions are about the line alone.  The
opcode is counted in bytes, so the first two of them are about the encoding of the line, and the
others about its characters.

Every line has one diagnosis and no second one, and the reader's answer is that of the diagnosis
(`ofString_answers_diagnosis`).  That there is one follows the line from left to right
(`exists_applies`).  That there is no second one needs no such walk: the answers of two diagnoses
differ, unless both blame the opcode, and of those only one can apply.
-/

namespace AccumulatorMachine

/-! ## Bytes -/

namespace Text

lemma byteLength_eq_utf8Len (cs : List Char) : byteLength cs = String.utf8Len cs := by
  induction cs with
  | nil => rfl
  | cons c cs ih => rw [byteLength_cons, String.utf8Len_cons, ih, Nat.add_comm]

/-- The count of bytes is that of the encoding. -/
lemma byteLength_toList (s : String) : byteLength s.toList = s.utf8ByteSize := by
  rw [byteLength_eq_utf8Len, String.utf8Len_toList]

/-- A text can be cut at the byte positions between its characters. -/
lemma splitAtByte?_eq_none_iff {n : ℕ} {s : String} :
    splitAtByte? n s.toList = none ↔ ¬ String.Pos.Raw.IsValid s ⟨n⟩ := by
  rw [String.Pos.Raw.isValid_iff_exists_append, Option.eq_none_iff_forall_ne_some]
  constructor
  · rintro hnone ⟨front, back, rfl, hn⟩
    refine hnone (front.toList, back.toList) (splitAtByte?_eq_some_iff.2 ?_)
    rw [byteLength_toList, String.toList_append]
    exact ⟨rfl, (congrArg String.Pos.Raw.byteIdx hn).symm⟩
  · rintro hnone ⟨front, back⟩ hsome
    obtain ⟨hs, hn⟩ := splitAtByte?_eq_some_iff.1 hsome
    refine hnone ⟨String.ofList front, String.ofList back, ?_, ?_⟩
    · rw [← String.ofList_append, ← hs, String.ofList_toList]
    · rw [← hn, ← String.toList_ofList (l := front), byteLength_toList, String.ofList_toList]
      rfl

end Text

/-! ## Operands -/

namespace Operand

variable {operand : String}

lemma ofChars_of_not_sign {c : Char} {cs : List Char} (hoperand : operand.toList = c :: cs)
    (h : ∀ s : Sign, c ≠ s.char) :
    ofChars operand.toList = .error (.missingSign operand) := by
  have hnone : Sign.ofChar? c = none := by
    rw [Option.eq_none_iff_forall_ne_some]
    intro s hs
    exact h s (Sign.ofChar?_eq_some_iff.1 hs)
  rw [← String.ofList_toList (s := operand), hoperand, String.toList_ofList]
  simp only [ofChars, hnone]

lemma ofChars_of_not_digits {s : Sign} {ds : List Char} (hoperand : operand.toList = s.char :: ds)
    (h : ds = [] ∨ ∃ d ∈ ds, d.isDigit = false) :
    ofChars operand.toList = .error (.invalidOperand operand) := by
  have hnot : ¬ (ds ≠ [] ∧ ds.all Char.isDigit = true) := by
    rintro ⟨hne, hall⟩
    rcases h with rfl | ⟨d, hd, hdigit⟩
    · exact hne rfl
    · rw [List.all_eq_true.1 hall d hd] at hdigit
      cases hdigit
  rw [← String.ofList_toList (s := operand), hoperand, String.toList_ofList]
  simp only [ofChars, Sign.ofChar?_char, if_neg hnot]

end Operand

/-! ## Diagnoses -/

namespace Instruction

/-- What there is to say about a line. -/
inductive Diagnosis where
  /-- The line has no three bytes that could be an opcode. -/
  | noOpcode
  /-- The first three bytes are not an opcode. -/
  | unknownOpcode (front : String)
  | missingOperand
  | invalidOperand (operand : String)
  | missingSign (operand : String)
  | operandOutOfRange (operand : String)
  | accepted (i : Instruction)

namespace Diagnosis

/-- When a diagnosis is to be made of a line. -/
def Applies (line : String) : Diagnosis → Prop
  | noOpcode => line.utf8ByteSize < 3 ∨ ¬ String.Pos.Raw.IsValid line ⟨3⟩
  | unknownOpcode front =>
    front.utf8ByteSize = 3 ∧ (∃ rest, line = front ++ rest) ∧
      ∀ o : Opcode, front.toList ≠ o.chars
  | missingOperand =>
    ∃ o : Opcode, line.toList = o.chars ∨ line.toList = o.chars ++ [' ']
  | invalidOperand operand =>
    ∃ o : Opcode,
      (line.toList = o.chars ++ operand.toList ∧
        ∃ c cs, operand.toList = c :: cs ∧ c ≠ ' ') ∨
      (line.toList = o.chars ++ ' ' :: operand.toList ∧
        ∃ (s : Sign) (ds : List Char), operand.toList = s.char :: ds ∧
          (ds = [] ∨ ∃ d ∈ ds, d.isDigit = false))
  | missingSign operand =>
    ∃ o : Opcode, line.toList = o.chars ++ ' ' :: operand.toList ∧
      ∃ c cs, operand.toList = c :: cs ∧ ∀ s : Sign, c ≠ s.char
  | operandOutOfRange operand =>
    ∃ f : Form, (f.opcode = .acc ∨ f.opcode = .jmp) ∧ f.text = line ∧
      operand.toList = f.operand ∧ ¬ f.opcode.HasRoomFor f.value
  | accepted i => ∃ f : Form, f.text = line ∧ f.Denotes i

/-- What a reader answers who makes a diagnosis. -/
def answer (line : String) : Diagnosis → Except LineError Instruction
  | noOpcode => .error (.unknownOpcode line)
  | unknownOpcode front => .error (.unknownOpcode front)
  | missingOperand => .error .missingOperand
  | invalidOperand operand => .error (.invalidOperand operand)
  | missingSign operand => .error (.missingSign operand)
  | operandOutOfRange operand => .error (.operandOutOfRange operand)
  | accepted i => .ok i

/-- Whether a diagnosis blames the opcode. -/
def blamesOpcode : Diagnosis → Bool
  | noOpcode => true
  | unknownOpcode _ => true
  | _ => false

end Diagnosis

/-! ## The reader, shape by shape -/

variable {line : String} {o : Opcode} {d d' : Diagnosis}

lemma ofString_of_opcode {rest : List Char} (h : line.toList = o.chars ++ rest) :
    ofString line = ofOperand o rest := by
  rw [ofString, h, ofChars_append]

lemma ofOperand_of_error {cs : List Char} {cause : LineError}
    (h : Operand.ofChars cs = .error cause) : ofOperand o (' ' :: cs) = .error cause := by
  simp [ofOperand, h]

lemma Form.ofString_text_of_not_hasRoomFor (f : Form) (h : ¬ f.opcode.HasRoomFor f.value) :
    ofString f.text = .error (.operandOutOfRange (String.ofList f.operand)) := by
  have hoperand : Operand.ofChars f.operand = .ok ⟨f.sign, f.digits⟩ :=
    Operand.ofChars_eq_ok_iff.2 ⟨rfl, f.digits_ne_nil, List.all_eq_true.2 f.isDigit⟩
  have hnone : f.opcode.instruction? (Operand.value ⟨f.sign, f.digits⟩) = none := by
    rw [← Opcode.exists_instruction?_iff, Form.value, ← Text.value_eq_ofDigits] at h
    exact Option.eq_none_iff_forall_ne_some.2 fun i hi => h ⟨i, hi⟩
  rw [text, ofString_of_opcode String.toList_ofList]
  simp [ofOperand, hoperand, hnone]

/-! ## Every line has its diagnosis -/

/-- The reader answers as the diagnosis says. -/
lemma Diagnosis.Applies.ofString_eq (h : d.Applies line) : ofString line = d.answer line := by
  cases d with
  | noOpcode =>
    have hnone : Text.splitAtByte? 3 line.toList = none := by
      rw [Text.splitAtByte?_eq_none_iff]
      rcases h with hshort | hcut
      · exact fun hvalid => absurd hvalid.le_rawEndPos (Nat.not_le.2 hshort)
      · exact hcut
    simp only [ofString, ofChars, hnone, answer, String.ofList_toList]
  | unknownOpcode front =>
    obtain ⟨hbytes, ⟨rest, rfl⟩, hunknown⟩ := h
    have hsplit : Text.splitAtByte? 3 (front ++ rest).toList = some (front.toList, rest.toList) :=
      Text.splitAtByte?_eq_some_iff.2
        ⟨String.toList_append, (Text.byteLength_toList front).trans hbytes⟩
    have hnone : Opcode.ofChars? front.toList = none :=
      Option.eq_none_iff_forall_ne_some.2 fun o ho =>
        hunknown o (Opcode.ofChars?_eq_some_iff.1 ho)
    simp only [ofString, ofChars, hsplit, hnone, answer, String.ofList_toList]
  | missingOperand =>
    obtain ⟨o, hline | hline⟩ := h
    · rw [ofString_of_opcode (hline.trans (List.append_nil _).symm)]
      rfl
    · rw [ofString_of_opcode hline]
      rfl
  | invalidOperand operand =>
    obtain ⟨o, ⟨hline, c, cs, hoperand, hc⟩ | ⟨hline, s, ds, hoperand, hdigits⟩⟩ := h
    · rw [ofString_of_opcode hline, hoperand]
      simp only [ofOperand, if_neg hc, answer, ← hoperand, String.ofList_toList]
    · rw [ofString_of_opcode hline]
      exact ofOperand_of_error (Operand.ofChars_of_not_digits hoperand hdigits)
  | missingSign operand =>
    obtain ⟨o, hline, c, cs, hoperand, hsign⟩ := h
    rw [ofString_of_opcode hline]
    exact ofOperand_of_error (Operand.ofChars_of_not_sign hoperand hsign)
  | operandOutOfRange operand =>
    obtain ⟨f, -, rfl, hoperand, hroom⟩ := h
    rw [f.ofString_text_of_not_hasRoomFor hroom, ← hoperand, String.ofList_toList, answer]
  | accepted i => exact ofString_eq_ok_iff.2 h

/-- A form is accepted or out of range. -/
lemma Form.exists_applies (f : Form) : ∃ d : Diagnosis, d.Applies f.text := by
  by_cases hroom : f.opcode.HasRoomFor f.value
  · obtain ⟨i, hi⟩ := Opcode.exists_instruction?_iff.2 hroom
    exact ⟨.accepted i, f, rfl, Form.instruction?_eq_some_iff.1 hi⟩
  · refine ⟨.operandOutOfRange (String.ofList f.operand), f, ?_, rfl, String.toList_ofList, hroom⟩
    cases hopcode : f.opcode with
    | nop =>
      rw [hopcode] at hroom
      exact absurd trivial hroom
    | acc => exact Or.inl rfl
    | jmp => exact Or.inr rfl

/-- Behind an opcode there is something to say about every operand. -/
lemma exists_applies_of_opcode {rest : List Char} (h : line.toList = o.chars ++ rest) :
    ∃ d : Diagnosis, d.Applies line := by
  rcases rest with _ | ⟨c, cs⟩
  · exact ⟨.missingOperand, o, Or.inl (by rw [h, List.append_nil])⟩
  by_cases hspace : c = ' '
  · subst hspace
    rcases cs with _ | ⟨c, ds⟩
    · exact ⟨.missingOperand, o, Or.inr h⟩
    have hline : line.toList = o.chars ++ ' ' :: (String.ofList (c :: ds)).toList := by
      rw [h, String.toList_ofList]
    by_cases hsign : ∃ s : Sign, c = s.char
    · obtain ⟨s, rfl⟩ := hsign
      by_cases hdigits : ds = [] ∨ ∃ d ∈ ds, d.isDigit = false
      · exact ⟨.invalidOperand _, o, Or.inr ⟨hline, s, ds, String.toList_ofList, hdigits⟩⟩
      · push Not at hdigits
        obtain ⟨hne, hall⟩ := hdigits
        let f : Form := ⟨o, s, ds, hne, fun d hd => Bool.not_eq_false _ ▸ hall d hd⟩
        obtain rfl : f.text = line := String.toList_inj.1 (String.toList_ofList.trans h.symm)
        exact f.exists_applies
    · push Not at hsign
      exact ⟨.missingSign _, o, hline, c, ds, String.toList_ofList, hsign⟩
  · exact ⟨.invalidOperand (String.ofList (c :: cs)), o,
      Or.inl ⟨by rw [h, String.toList_ofList], c, cs, String.toList_ofList, hspace⟩⟩

lemma exists_applies (line : String) : ∃ d : Diagnosis, d.Applies line := by
  rcases hsplit : Text.splitAtByte? 3 line.toList with _ | ⟨front, rest⟩
  · exact ⟨.noOpcode, Or.inr (Text.splitAtByte?_eq_none_iff.1 hsplit)⟩
  obtain ⟨hline, hbytes⟩ := Text.splitAtByte?_eq_some_iff.1 hsplit
  rcases hopcode : Opcode.ofChars? front with _ | o
  · refine ⟨.unknownOpcode (String.ofList front), ?_, ⟨String.ofList rest, ?_⟩, ?_⟩
    · rw [← Text.byteLength_toList, String.toList_ofList, hbytes]
    · rw [← String.ofList_append, ← hline, String.ofList_toList]
    · intro o ho
      rw [String.toList_ofList] at ho
      rw [Opcode.ofChars?_eq_some_iff.2 ho] at hopcode
      cases hopcode
  · obtain rfl := Opcode.ofChars?_eq_some_iff.1 hopcode
    exact exists_applies_of_opcode hline

/-! ## No line has two -/

/-- A diagnosis that does not blame the opcode is known from its answer. -/
lemma Diagnosis.eq_of_answer_eq (hd : d.blamesOpcode = false)
    (h : d'.answer line = d.answer line) : d' = d := by
  cases d with
  | noOpcode => cases hd
  | unknownOpcode front => cases hd
  | missingOperand => cases d' <;> simp_all [answer]
  | invalidOperand operand => cases d' <;> simp_all [answer]
  | missingSign operand => cases d' <;> simp_all [answer]
  | operandOutOfRange operand => cases d' <;> simp_all [answer]
  | accepted i => cases d' <;> simp_all [answer]

/-- A line whose first three bytes can be told has three bytes. -/
lemma Diagnosis.not_applies_noOpcode {front : String}
    (h : (unknownOpcode front).Applies line) : ¬ noOpcode.Applies line := by
  obtain ⟨hbytes, ⟨rest, rfl⟩, -⟩ := h
  rintro (hshort | hcut)
  · rw [String.utf8ByteSize_append] at hshort
    omega
  · refine hcut (String.Pos.Raw.isValid_iff_exists_append.2 ⟨front, rest, rfl, ?_⟩)
    rw [← hbytes]
    rfl

lemma Diagnosis.Applies.unique (h : d.Applies line) (h' : d'.Applies line) : d = d' := by
  have hanswer : d.answer line = d'.answer line := h.ofString_eq.symm.trans h'.ofString_eq
  by_cases hd' : d'.blamesOpcode = false
  · exact Diagnosis.eq_of_answer_eq hd' hanswer
  by_cases hd : d.blamesOpcode = false
  · exact (Diagnosis.eq_of_answer_eq hd hanswer.symm).symm
  cases d with
  | noOpcode =>
    cases d' with
    | noOpcode => rfl
    | unknownOpcode front' => exact absurd h (Diagnosis.not_applies_noOpcode h')
    | _ => exact absurd rfl hd'
  | unknownOpcode front =>
    cases d' with
    | noOpcode => exact absurd h' (Diagnosis.not_applies_noOpcode h)
    | unknownOpcode front' => simpa [Diagnosis.answer] using hanswer
    | _ => exact absurd rfl hd'
  | _ => exact absurd rfl hd

/-- The answer of a diagnosis that does not blame the opcode is given exactly when it applies. -/
lemma ofString_eq_answer_iff (hd : d.blamesOpcode = false) :
    ofString line = d.answer line ↔ d.Applies line := by
  constructor
  · intro h
    obtain ⟨d', hd'⟩ := exists_applies line
    exact Diagnosis.eq_of_answer_eq hd (hd'.ofString_eq.symm.trans h) ▸ hd'
  · exact Diagnosis.Applies.ofString_eq

lemma ofString_eq_unknownOpcode_iff {s : String} :
    ofString line = .error (.unknownOpcode s) ↔
      Diagnosis.noOpcode.Applies line ∧ s = line ∨ (Diagnosis.unknownOpcode s).Applies line := by
  constructor
  · intro h
    obtain ⟨d, hd⟩ := exists_applies line
    have hanswer := hd.ofString_eq.symm.trans h
    cases d with
    | noOpcode => exact Or.inl ⟨hd, by simpa [Diagnosis.answer, eq_comm] using hanswer⟩
    | unknownOpcode front =>
      obtain rfl : front = s := by simpa [Diagnosis.answer] using hanswer
      exact Or.inr hd
    | _ => simp [Diagnosis.answer] at hanswer
  · rintro (⟨hd, rfl⟩ | hd)
    · exact hd.ofString_eq
    · exact hd.ofString_eq

/-- **Every line gets its one diagnosis, and every refusal its cause and the part at fault.**  The
causes are told apart by conditions on the line, of which exactly one holds, acceptance among them.
A line of exactly three bytes is its own first three bytes, so the two conditions that blame the
opcode may show the same text, but no line meets both. -/
theorem ofString_answers_diagnosis (line : String) :
    (∃! d : Diagnosis, d.Applies line) ∧
      (∀ s, ofString line = .error (.unknownOpcode s) ↔
        Diagnosis.noOpcode.Applies line ∧ s = line ∨ (Diagnosis.unknownOpcode s).Applies line) ∧
      (ofString line = .error .missingOperand ↔ Diagnosis.missingOperand.Applies line) ∧
      (∀ operand, ofString line = .error (.invalidOperand operand) ↔
        (Diagnosis.invalidOperand operand).Applies line) ∧
      (∀ operand, ofString line = .error (.missingSign operand) ↔
        (Diagnosis.missingSign operand).Applies line) ∧
      (∀ operand, ofString line = .error (.operandOutOfRange operand) ↔
        (Diagnosis.operandOutOfRange operand).Applies line) ∧
      ∀ i, ofString line = .ok i ↔ (Diagnosis.accepted i).Applies line := by
  refine ⟨?_, ?_, ?_, ?_, ?_, ?_, ?_⟩
  · obtain ⟨d, hd⟩ := exists_applies line
    exact ⟨d, hd, fun d' hd' => hd'.unique hd⟩
  · intro s
    exact ofString_eq_unknownOpcode_iff
  · exact ofString_eq_answer_iff (d := .missingOperand) rfl
  · intro operand
    exact ofString_eq_answer_iff (d := .invalidOperand operand) rfl
  · intro operand
    exact ofString_eq_answer_iff (d := .missingSign operand) rfl
  · intro operand
    exact ofString_eq_answer_iff (d := .operandOutOfRange operand) rfl
  · intro i
    exact ofString_eq_answer_iff (d := .accepted i) rfl

/-- A line whose third byte ends inside a character, and one whose first three bytes are a single
character. -/
theorem ofString_answers_diagnosis_wide_character :
    ofString "ab€ +1" = .error (.unknownOpcode "ab€ +1") ∧
      ofString "€ +1" = .error (.unknownOpcode "€") := by
  refine ⟨?_, ?_⟩
  · refine ((ofString_answers_diagnosis "ab€ +1").2.1 _).2 (Or.inl ⟨Or.inr ?_, rfl⟩)
    exact Text.splitAtByte?_eq_none_iff.1 (by decide)
  · refine ((ofString_answers_diagnosis "€ +1").2.1 _).2 (Or.inr ?_)
    refine ⟨by decide, ⟨" +1", by decide⟩, ?_⟩
    intro o
    cases o <;> decide

/-- A line of exactly three bytes that are no opcode.  It is refused with all of it as the part at
fault, though it is neither too short nor cut inside a character. -/
theorem three_byte_line_is_its_own_front :
    ¬ (ofString "mov" = .error (.unknownOpcode "mov") ↔
      "mov".utf8ByteSize < 3 ∨ ¬ String.Pos.Raw.IsValid "mov" ⟨3⟩) := by
  have hfront : (Diagnosis.unknownOpcode "mov").Applies "mov" := by
    refine ⟨by decide, ⟨"", by decide⟩, ?_⟩
    intro o
    cases o <;> decide
  intro h
  exact Diagnosis.not_applies_noOpcode hfront (h.1 hfront.ofString_eq)

end Instruction
end AccumulatorMachine
