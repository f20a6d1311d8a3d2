/-!
# Cutting a text at a byte position

A line is laid out in UTF-8, and the opcode is a number of *bytes*, not of characters.
`splitAtByte?` cuts a text at a byte position when that position lies between two characters.
`splitAtByte?_eq_some_iff` says exactly when it does and what comes back; nothing else about
the encoding is used in this library.
-/

namespace AccumulatorMachine
namespace Text

/-- The number of bytes a text takes in UTF-8. -/
def byteLength : List Char → Nat
  | [] => 0
  | c :: cs => c.utf8Size + byteLength cs

/-- The text before byte position `n` and the text from it on; `none` when the text is shorter
than `n` bytes or the position lies inside a character. -/
def splitAtByte? : Nat → List Char → Option (List Char × List Char)
  | 0, cs => some ([], cs)
  | _ + 1, [] => none
  | n + 1, c :: cs =>
    if c.utf8Size ≤ n + 1 then
      (splitAtByte? (n + 1 - c.utf8Size) cs).map fun parts => (c :: parts.1, parts.2)
    else none

@[simp] theorem byteLength_nil : byteLength [] = 0 := rfl

@[simp] theorem byteLength_cons (c : Char) (cs : List Char) :
    byteLength (c :: cs) = c.utf8Size + byteLength cs := rfl

@[simp] theorem splitAtByte?_zero (cs : List Char) : splitAtByte? 0 cs = some ([], cs) := by
  cases cs <;> rfl

/-- A cut succeeds exactly at the seams between characters: the parts join up to the text, and
the first one takes the asked number of bytes. -/
theorem splitAtByte?_eq_some_iff {n : Nat} {cs front back : List Char} :
    splitAtByte? n cs = some (front, back) ↔ cs = front ++ back ∧ byteLength front = n := by
  induction cs generalizing n front with
  | nil =>
    cases n with
    | zero => cases front <;> simp [eq_comm]
    | succ n =>
      simp only [splitAtByte?, reduceCtorEq, false_iff, not_and]
      intro h
      simp [(List.append_eq_nil_iff.1 h.symm).1]
  | cons c cs ih =>
    cases n with
    | zero =>
      cases front with
      | nil => simp [eq_comm]
      | cons d front =>
        have := d.utf8Size_pos
        simp only [splitAtByte?_zero, Option.some.injEq, Prod.mk.injEq, List.nil_eq, reduceCtorEq,
          false_and, byteLength_cons, false_iff, not_and]
        omega
    | succ n =>
      have hpos := c.utf8Size_pos
      simp only [splitAtByte?]
      split
      · rename_i hc
        cases front with
        | nil => simp
        | cons d front =>
          simp only [Option.map_eq_some_iff, Prod.mk.injEq, List.cons.injEq, Prod.exists,
            List.cons_append, byteLength_cons]
          constructor
          · rintro ⟨a, b, h, ⟨rfl, rfl⟩, rfl⟩
            obtain ⟨rfl, hlen⟩ := ih.1 h
            exact ⟨⟨rfl, rfl⟩, by omega⟩
          · rintro ⟨⟨rfl, rfl⟩, hlen⟩
            exact ⟨front, back, ih.2 ⟨rfl, by omega⟩, ⟨rfl, rfl⟩, rfl⟩
      · rename_i hc
        cases front with
        | nil => simp
        | cons d front =>
          simp only [reduceCtorEq, List.cons_append, List.cons.injEq, byteLength_cons, false_iff,
            not_and, and_imp]
          rintro rfl _
          omega

end Text
end AccumulatorMachine
