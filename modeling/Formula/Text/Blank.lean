/-!
# Formula.Text.Blank

Blank characters: those with the Unicode property `White_Space`, 25 code points in ten ranges.
Format controls such as the zero width space and the byte order mark are not among them.

* `trim_blank_append`, `trim_append_blank` — trimming does not see blanks at either end.
-/

namespace Formula.Text

/-! ## The property -/

/-- Code point ranges of the property `White_Space`, both ends included. -/
def blankRanges : List (Nat × Nat) :=
  [(0x09, 0x0d), (0x20, 0x20), (0x85, 0x85), (0xa0, 0xa0), (0x1680, 0x1680), (0x2000, 0x200a),
   (0x2028, 0x2029), (0x202f, 0x202f), (0x205f, 0x205f), (0x3000, 0x3000)]

def isBlank (c : Char) : Bool :=
  blankRanges.any fun (first, last) => first ≤ c.toNat && c.toNat ≤ last

/-! ## Trimming -/

/-- The text without the blanks at its ends. -/
def trim (text : List Char) : List Char :=
  ((text.dropWhile isBlank).reverse.dropWhile isBlank).reverse

theorem trim_blank_append {blanks : List Char} (h : blanks.all isBlank) (text : List Char) :
    trim (blanks ++ text) = trim text := by
  rw [trim, List.dropWhile_append_of_pos (List.all_eq_true.1 h), trim]

theorem trim_append_blank {blanks : List Char} (h : blanks.all isBlank) (text : List Char) :
    trim (text ++ blanks) = trim text := by
  have hdrop : blanks.dropWhile isBlank = [] := by
    rw [← List.append_nil blanks, List.dropWhile_append_of_pos (List.all_eq_true.1 h)]
    rfl
  have hrev : ∀ c ∈ blanks.reverse, isBlank c := fun c hc =>
    List.all_eq_true.1 h c (List.mem_reverse.1 hc)
  simp only [trim, List.dropWhile_append]
  split
  · rename_i hempty
    rw [List.isEmpty_iff.1 hempty, hdrop]
  · rw [List.reverse_append, List.dropWhile_append_of_pos hrev]

end Formula.Text
