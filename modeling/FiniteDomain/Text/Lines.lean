/-!
# Lines of a text

A line ends at a line feed or at the end of the text; a carriage return directly before the line feed
belongs to the ending. A text that ends in a line feed has no empty line after it.
-/

namespace FiniteDomain.Text

/-- The line without the carriage return that it may end in. -/
def dropCarriageReturn (line : List Char) : List Char :=
  if line.getLast? = some '\r' then line.dropLast else line

/-- The lines of a text, `line` being the characters of the current one, the last first. -/
def linesFrom (line : List Char) : List Char → List (List Char)
  | [] => if line.isEmpty then [] else [line.reverse]
  | c :: cs =>
      if c = '\n' then dropCarriageReturn line.reverse :: linesFrom [] cs
      else linesFrom (c :: line) cs

/-- The lines of a text, without their endings. -/
def lines (cs : List Char) : List (List Char) :=
  linesFrom [] cs

/-- Up to its end a line is gathered. -/
theorem linesFrom_append {line : List Char} (h : '\n' ∉ line) (front rest : List Char) :
    linesFrom front (line ++ rest) = linesFrom (line.reverse ++ front) rest := by
  induction line generalizing front with
  | nil => rfl
  | cons c cs ih =>
      have hc : c ≠ '\n' := fun he => h (he ▸ List.mem_cons_self ..)
      have hcs : '\n' ∉ cs := fun hm => h (List.mem_cons_of_mem _ hm)
      rw [List.cons_append, linesFrom, if_neg hc, ih hcs, List.reverse_cons, List.append_assoc]
      rfl

/-- A text without a line feed is one line. -/
theorem lines_of_no_newline {cs : List Char} (hne : cs ≠ []) (h : '\n' ∉ cs) : lines cs = [cs] := by
  have happend := linesFrom_append h [] []
  rw [List.append_nil, List.append_nil] at happend
  rw [lines, happend, linesFrom, List.reverse_reverse, if_neg]
  rwa [List.isEmpty_reverse, List.isEmpty_iff]

/-- The first line feed ends the first line. -/
theorem lines_append {line : List Char} (h : '\n' ∉ line) (rest : List Char) :
    lines (line ++ '\n' :: rest) = dropCarriageReturn line :: lines rest := by
  rw [lines, linesFrom_append h, linesFrom, if_pos rfl, List.append_nil, List.reverse_reverse, lines]

end FiniteDomain.Text
