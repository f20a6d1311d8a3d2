/-!
# Splitting a text into lines

A line feed ends a line, and one carriage return directly before it belongs to the line end.
A carriage return anywhere else is part of its line.  The last line may go without a line end,
so a text that ends in a line feed has no empty line after it, and the empty text has no lines.

The three lemmas at the end say what `lines` reads off the front of a text: a line and a plain
line feed, a line and a carriage return with its line feed, or a last line with neither.
-/

namespace AccumulatorMachine
namespace Text

/-- The two ways of ending a line. -/
inductive LineEnd where
  /-- A line feed. -/
  | lf
  /-- A carriage return and a line feed. -/
  | crlf
deriving DecidableEq, Repr

/-- The characters of a line end. -/
def LineEnd.chars : LineEnd → List Char
  | .lf => ['\n']
  | .crlf => ['\r', '\n']

/-- Puts a character in front of the first line. -/
def consFirst (c : Char) : List (List Char) → List (List Char)
  | [] => [[c]]
  | l :: ls => (c :: l) :: ls

/-- The lines of a text, without their line ends. -/
def lines : List Char → List (List Char)
  | [] => []
  | c :: cs =>
    if c = '\n' then [] :: lines cs
    -- the carriage return goes with the line feed behind it
    else if c = '\r' ∧ cs.head? = some '\n' then lines cs
    else consFirst c (lines cs)

@[simp] theorem lines_nil : lines [] = [] := rfl

@[simp] theorem lines_lf (cs : List Char) : lines ('\n' :: cs) = [] :: lines cs := by
  simp [lines]

@[simp] theorem lines_crlf (cs : List Char) : lines ('\r' :: '\n' :: cs) = [] :: lines cs := by
  simp [lines]

/-- A character that neither ends the line nor belongs to its end joins the first line. -/
theorem lines_cons {c : Char} {cs : List Char} (h : c ≠ '\n')
    (hcr : c = '\r' → cs.head? ≠ some '\n') : lines (c :: cs) = consFirst c (lines cs) := by
  simp only [lines, if_neg h]
  rw [if_neg fun hc => hcr hc.1 hc.2]

/-- A line ended by a plain line feed is read as it stands, unless it ends in a carriage
return. -/
theorem lines_append_lf {l : List Char} (rest : List Char) (h : '\n' ∉ l)
    (hcr : l.getLast? ≠ some '\r') : lines (l ++ '\n' :: rest) = l :: lines rest := by
  induction l with
  | nil => simp
  | cons c l ih =>
    have hc : c ≠ '\n' := fun hc => h (by simp [hc])
    have hl : '\n' ∉ l := fun hl => h (by simp [hl])
    cases l with
    | nil =>
      have hc' : c ≠ '\r' := by simpa using hcr
      simp [lines_cons hc fun hr => absurd hr hc', consFirst]
    | cons d l =>
      have hd : d ≠ '\n' := fun hd => hl (by simp [hd])
      rw [List.cons_append, lines_cons hc (by simp [hd]),
        ih hl (by simpa [List.getLast?_cons_cons] using hcr), consFirst]

/-- A line ended by a carriage return and a line feed is read as it stands. -/
theorem lines_append_crlf {l : List Char} (rest : List Char) (h : '\n' ∉ l) :
    lines (l ++ '\r' :: '\n' :: rest) = l :: lines rest := by
  induction l with
  | nil => simp
  | cons c l ih =>
    have hc : c ≠ '\n' := fun hc => h (by simp [hc])
    have hl : '\n' ∉ l := fun hl => h (by simp [hl])
    have hnext : (l ++ '\r' :: '\n' :: rest).head? ≠ some '\n' := by
      cases l with
      | nil => simp
      | cons d l => simpa using fun hd : d = '\n' => hl (by simp [hd])
    rw [List.cons_append, lines_cons hc fun _ => hnext, ih hl, consFirst]

/-- A last line without a line end is read as it stands, a carriage return at its end included. -/
theorem lines_of_not_mem {l : List Char} (h : '\n' ∉ l) (hne : l ≠ []) : lines l = [l] := by
  induction l with
  | nil => exact absurd rfl hne
  | cons c l ih =>
    have hc : c ≠ '\n' := fun hc => h (by simp [hc])
    have hl : '\n' ∉ l := fun hl => h (by simp [hl])
    cases l with
    | nil => rw [lines_cons hc (by simp), lines_nil, consFirst]
    | cons d l =>
      have hd : d ≠ '\n' := fun hd => hl (by simp [hd])
      rw [lines_cons hc (by simp [hd]), ih hl (by simp), consFirst]

end Text
end AccumulatorMachine
