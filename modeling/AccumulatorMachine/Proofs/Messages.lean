import Mathlib.Order.Nat
import Mathlib.Tactic.Common
import AccumulatorMachine.Program.Source

/-!
# Messages identify their errors

What a refusal or a fault says is all that a user gets to see of it, and it has to tell one error
from any other.  The payload of a cause is put into its message as it stands, and it can be any
text, one with backquotes in it or one that reads like the rest of some message.  Nothing can be
read off the middle of a message for that reason.

The two ends of a message are enough.  `LineError.ends` has its first and its last character, which
no payload reaches, and no two kinds of cause have both in common.  Once the kind is known, the
wording around the payload is known and cancels.  Numbers come in front of the payload and end at
the first character that is no digit (`Text.decimal_append_inj`), so they do not run into what
follows.  This is so for every text in front of a separator that it does not have itself
(`Text.append_separator_inj`).  An address is written with leading zeros, and reading it back gives
the number whatever their count (`Text.hexValue_address`).
-/

namespace AccumulatorMachine

/-! ## Numbers -/

namespace Text

variable {c : Char} {n n' : ℕ} {v v' : ℤ} {rest rest' : List Char}

/-- A text ends at the first separator behind it, if it has none of its own. -/
lemma append_separator_inj {cs cs' : List Char} (hcs : c ∉ cs) (hcs' : c ∉ cs')
    (h : cs ++ c :: rest = cs' ++ c :: rest') : cs = cs' ∧ rest = rest' := by
  have htake : ∀ ds tail : List Char, c ∉ ds → (ds ++ c :: tail).takeWhile (· != c) = ds := by
    intro ds tail hds
    have hpos : ∀ d ∈ ds, (d != c) = true := fun d hd => bne_iff_ne.2 fun hdc => hds (hdc ▸ hd)
    rw [List.takeWhile_append_of_pos hpos, List.takeWhile_cons_of_neg (by simp), List.append_nil]
  have hfront : cs = cs' := by rw [← htake cs rest hcs, h, htake cs' rest' hcs']
  rw [hfront, List.append_cancel_left_eq] at h
  exact ⟨hfront, (List.cons.inj h).2⟩

lemma decimal_inj : decimal n = decimal n' ↔ n = n' := by
  constructor
  · intro h
    rw [← value_decimal n, h, value_decimal]
  · rintro rfl
    rfl

lemma notMem_decimal (hc : c.isDigit = false) : c ∉ decimal n := by
  intro hmem
  rw [isDigit_of_mem_decimal hmem] at hc
  cases hc

/-- A number in decimal ends at the first character that is no digit. -/
lemma decimal_append_inj (hc : c.isDigit = false)
    (h : decimal n ++ c :: rest = decimal n' ++ c :: rest') : n = n' ∧ rest = rest' := by
  obtain ⟨hdigits, hrest⟩ := append_separator_inj (notMem_decimal hc) (notMem_decimal hc) h
  exact ⟨decimal_inj.1 hdigits, hrest⟩

lemma signed_append_inj (hc : c.isDigit = false)
    (h : signed v ++ c :: rest = signed v' ++ c :: rest') : v = v' ∧ rest = rest' := by
  obtain ⟨hsign, hdigits⟩ := List.cons.inj h
  obtain ⟨habs, hrest⟩ := decimal_append_inj hc hdigits
  rw [Sign.char_inj] at hsign
  refine ⟨?_, hrest⟩
  rw [← Sign.apply_ofInt_natAbs v, hsign, habs, Sign.apply_ofInt_natAbs]

/-- A number written without its sign unless it is negative is known from what is written. -/
lemma integer_inj : integer v = integer v' ↔ v = v' := by
  refine ⟨?_, fun h => h ▸ rfl⟩
  intro h
  have hminus : ∀ {k k' : ℕ}, '-' :: decimal k ≠ decimal k' :=
    fun heq => notMem_decimal (by decide) (heq ▸ List.mem_cons_self)
  unfold integer at h
  split at h
  · split at h
    · have habs := decimal_inj.1 (List.cons.inj h).2
      omega
    · exact absurd h hminus
  · split at h
    · exact absurd h.symm hminus
    · have habs := decimal_inj.1 h
      omega

lemma notMem_integer (hc : c.isDigit = false) (hminus : c ≠ '-') : c ∉ integer v := by
  unfold integer
  split
  · exact List.not_mem_cons_of_ne_of_not_mem hminus (notMem_decimal hc)
  · exact notMem_decimal hc

lemma integer_append_inj (hc : c.isDigit = false) (hminus : c ≠ '-')
    (h : integer v ++ c :: rest = integer v' ++ c :: rest') : v = v' ∧ rest = rest' := by
  obtain ⟨hvalue, hrest⟩ :=
    append_separator_inj (notMem_integer hc hminus) (notMem_integer hc hminus) h
  exact ⟨integer_inj.1 hvalue, hrest⟩

/-- In front of a text without blanks the blanks of its column can be taken away again. -/
lemma dropWhile_alignRight {width : ℕ} {cs : List Char} (hcs : ' ' ∉ cs) :
    (alignRight width cs).dropWhile (· == ' ') = cs := by
  rw [alignRight, List.leftpad, List.dropWhile_append_of_pos (by simp)]
  cases cs with
  | nil => rfl
  | cons d ds =>
    have hd : d ≠ ' ' := fun hblank => hcs (hblank ▸ List.mem_cons_self)
    rw [List.dropWhile_cons_of_neg (by simpa using hd)]

/-- A number in a column, with a blank behind it, ends at the first character that is neither a
blank nor one of its own. -/
lemma alignRight_append_inj {width : ℕ} (hc : c.isDigit = false) (hminus : c ≠ '-')
    (hblank : c ≠ ' ')
    (h : alignRight width (integer v) ++ [' '] ++ c :: rest =
      alignRight width (integer v') ++ [' '] ++ c :: rest') : v = v' ∧ rest = rest' := by
  have hnot : ∀ u, c ∉ alignRight width (integer u) ++ [' '] := by
    intro u
    simp [alignRight, List.leftpad, notMem_integer hc hminus, hblank]
  have hdrop : ∀ u, (alignRight width (integer u)).dropWhile (· == ' ') = integer u :=
    fun u => dropWhile_alignRight (notMem_integer (by decide) (by decide))
  obtain ⟨hcolumn, hrest⟩ := append_separator_inj (hnot v) (hnot v') h
  rw [List.append_cancel_right_eq] at hcolumn
  refine ⟨integer_inj.1 ?_, hrest⟩
  rw [← hdrop v, hcolumn, hdrop]

/-- The value of a hexadecimal digit in lower case. -/
def hexDigit (c : Char) : ℕ :=
  if c.isDigit then c.toNat - '0'.toNat else c.toNat - 'a'.toNat + 10

/-- The number that a string of hexadecimal digits denotes, leading zeros or not. -/
def hexValue (ds : List Char) : ℕ :=
  ds.foldl (fun n d => 16 * n + hexDigit d) 0

lemma hexDigit_digitChar {d : ℕ} (h : d < 16) : hexDigit (Nat.digitChar d) = d := by
  revert d
  decide

lemma hexValue_toDigits (n : ℕ) : hexValue (Nat.toDigits 16 n) = n := by
  induction n using Nat.strong_induction_on with
  | _ n ih =>
    by_cases hlt : n < 16
    · rw [Nat.toDigits_of_lt_base hlt]
      simp [hexValue, hexDigit_digitChar hlt]
    · have hrec := ih (n / 16) (by omega)
      rw [hexValue] at hrec
      rw [Nat.toDigits_of_base_le (by omega) (by omega), hexValue, List.foldl_append, hrec,
        List.foldl_cons, List.foldl_nil, hexDigit_digitChar (by omega)]
      omega

lemma hexValue_leftpad (k : ℕ) (ds : List Char) : hexValue (ds.leftpad k '0') = hexValue ds := by
  have hzeros : ∀ j, (List.replicate j '0').foldl (fun n d => 16 * n + hexDigit d) 0 = 0 := by
    intro j
    induction j with
    | zero => rfl
    | succ j ih => exact ih
  rw [List.leftpad, hexValue, List.foldl_append, hzeros]
  rfl

/-- Behind its `0x` an address is its number, however many zeros lead. -/
lemma hexValue_address (n : ℕ) : hexValue ((address n).drop 2) = n := by
  show hexValue ((Nat.toDigits 16 n).leftpad 4 '0') = n
  rw [hexValue_leftpad, hexValue_toDigits]

lemma exists_digitChar_of_mem_toDigits (h : c ∈ Nat.toDigits 16 n) :
    ∃ d < 16, c = Nat.digitChar d := by
  induction n using Nat.strong_induction_on with
  | _ n ih =>
    by_cases hlt : n < 16
    · rw [Nat.toDigits_of_lt_base hlt, List.mem_singleton] at h
      exact ⟨n, hlt, h⟩
    · rw [Nat.toDigits_of_base_le (by omega) (by omega), List.mem_append, List.mem_singleton] at h
      rcases h with hfront | hlast
      · exact ih (n / 16) (by omega) hfront
      · exact ⟨n % 16, by omega, hlast⟩

lemma notMem_address (hx : c ≠ 'x') (hc : ∀ d < 16, c ≠ Nat.digitChar d) : c ∉ address n := by
  have hzero : c ≠ '0' := hc 0 (by omega)
  rw [address, List.leftpad]
  simp only [List.mem_cons, List.mem_append, List.mem_replicate, hx, hzero, and_false, false_or]
  intro hmem
  obtain ⟨d, hd, rfl⟩ := exists_digitChar_of_mem_toDigits hmem
  exact hc d hd rfl

lemma address_inj : address n = address n' ↔ n = n' := by
  constructor
  · intro h
    rw [← hexValue_address n, h, hexValue_address]
  · rintro rfl
    rfl

/-- An address ends at the first character that is not one of its own. -/
lemma address_append_inj (hx : c ≠ 'x') (hc : ∀ d < 16, c ≠ Nat.digitChar d)
    (h : address n ++ c :: rest = address n' ++ c :: rest') : n = n' ∧ rest = rest' := by
  obtain ⟨haddress, hrest⟩ := append_separator_inj (notMem_address hx hc) (notMem_address hx hc) h
  exact ⟨address_inj.1 haddress, hrest⟩

end Text

/-! ## Causes -/

namespace LineError

/-- The first and the last character of the wording of a cause. -/
def ends : LineError → Char × Char
  | unknownOpcode _ => ('u', '`')
  | missingOperand => ('m', 'd')
  | missingSign _ => ('o', 'n')
  | invalidOperand _ => ('i', '`')
  | operandOutOfRange _ => ('o', 'e')

lemma head?_message (e : LineError) : e.message.toList.head? = some e.ends.1 := by
  unfold message ends
  cases e with
  | unknownOpcode text => simp
  | missingOperand => simp
  | missingSign operand => simp
  | invalidOperand operand => simp
  | operandOutOfRange operand => simp

lemma getLast?_message (e : LineError) : e.message.toList.getLast? = some e.ends.2 := by
  unfold message ends
  cases e with
  | unknownOpcode text => simp [List.getLast?_cons]
  | missingOperand => simp
  | missingSign operand => simp [List.getLast?_cons]
  | invalidOperand operand => simp [List.getLast?_cons]
  | operandOutOfRange operand => simp [List.getLast?_cons]

lemma ends_eq_of_message_eq {e e' : LineError} (h : e.message = e'.message) : e.ends = e'.ends := by
  apply Prod.ext
  · apply Option.some.inj
    rw [← e.head?_message, h, e'.head?_message]
  · apply Option.some.inj
    rw [← e.getLast?_message, h, e'.getLast?_message]

/-- Around two payloads the same wording cancels. -/
lemma payload_eq {opening closing payload payload' : String}
    (h : opening ++ payload ++ closing = opening ++ payload' ++ closing) : payload = payload' := by
  rwa [String.append_left_inj, String.append_right_inj] at h

lemma message_inj {e e' : LineError} : e.message = e'.message ↔ e = e' := by
  refine ⟨?_, fun h => h ▸ rfl⟩
  intro h
  have hends := ends_eq_of_message_eq h
  -- with another kind of cause the ends are different
  cases e with
  | unknownOpcode text =>
    cases e' with
    | unknownOpcode text' => exact congrArg unknownOpcode (payload_eq h)
    | _ => simp [ends] at hends
  | missingOperand =>
    cases e' with
    | missingOperand => rfl
    | _ => simp [ends] at hends
  | missingSign operand =>
    cases e' with
    | missingSign operand' => exact congrArg missingSign (payload_eq h)
    | _ => simp [ends] at hends
  | invalidOperand operand =>
    cases e' with
    | invalidOperand operand' => exact congrArg invalidOperand (payload_eq h)
    | _ => simp [ends] at hends
  | operandOutOfRange operand =>
    cases e' with
    | operandOutOfRange operand' => exact congrArg operandOutOfRange (payload_eq h)
    | _ => simp [ends] at hends

end LineError

/-! ## Refusals and faults -/

lemma SourceError.toList_message (e : SourceError) :
    e.message.toList =
      "line ".toList ++ (Text.decimal e.line ++ ':' :: (" ".toList ++ e.cause.message.toList)) := by
  simp [message]

lemma JumpFault.toList_message (f : JumpFault) :
    f.message.toList =
      "jump ".toList ++ (Text.signed f.offset.toInt ++ ' ' :: ("at ".toList ++
        (Text.address f.pc.toNat ++ " moves before the start of the program".toList))) := by
  simp [message]

lemma SourceError.message_inj {e e' : SourceError} : e.message = e'.message ↔ e = e' := by
  refine ⟨?_, fun h => h ▸ rfl⟩
  intro h
  have hchars := congrArg String.toList h
  rw [e.toList_message, e'.toList_message, List.append_cancel_left_eq] at hchars
  obtain ⟨hline, hrest⟩ := Text.decimal_append_inj (by decide) hchars
  rw [List.append_cancel_left_eq, String.toList_inj, LineError.message_inj] at hrest
  obtain ⟨line, cause⟩ := e
  obtain ⟨line', cause'⟩ := e'
  rw [mk.injEq]
  exact ⟨hline, hrest⟩

/-- The offset and the address of a fault are known from their wording, if it is closed alike. -/
lemma JumpFault.eq_of_wording_eq {f f' : JumpFault} {closing : List Char}
    (h : Text.signed f.offset.toInt ++ ' ' :: ("at ".toList ++
        (Text.address f.pc.toNat ++ closing)) =
      Text.signed f'.offset.toInt ++ ' ' :: ("at ".toList ++
        (Text.address f'.pc.toNat ++ closing))) : f = f' := by
  obtain ⟨hoffset, hrest⟩ := Text.signed_append_inj (by decide) h
  rw [List.append_cancel_left_eq, List.append_cancel_right_eq, Text.address_inj,
    UInt64.toNat_inj] at hrest
  rw [Int32.toInt_inj] at hoffset
  obtain ⟨pc, offset⟩ := f
  obtain ⟨pc', offset'⟩ := f'
  rw [mk.injEq]
  exact ⟨hrest, hoffset⟩

lemma JumpFault.message_inj {f f' : JumpFault} : f.message = f'.message ↔ f = f' := by
  refine ⟨?_, fun h => h ▸ rfl⟩
  intro h
  have hchars := congrArg String.toList h
  rw [f.toList_message, f'.toList_message, List.append_cancel_left_eq] at hchars
  exact eq_of_wording_eq hchars

/-- **Messages identify their errors.**  Two refusals of a program have the same wording exactly
when they have the same line and the same cause, whatever texts the causes quote.  Two faults have
the same wording exactly when they have the same address and the same offset. -/
theorem messages_identify_errors :
    (∀ e e' : SourceError, e.message = e'.message ↔ e = e') ∧
      ∀ f f' : JumpFault, f.message = f'.message ↔ f = f' :=
  ⟨fun _ _ => SourceError.message_inj, fun _ _ => JumpFault.message_inj⟩

/-- Operands that quote the wording of each other's cause. -/
theorem messages_identify_errors_quoted_wording :
    SourceError.message ⟨3, .missingSign "+1` out of range"⟩ ≠
      SourceError.message ⟨3, .operandOutOfRange "+1` has no explicit sign"⟩ := by
  rw [ne_eq, messages_identify_errors.1]
  decide

end AccumulatorMachine
