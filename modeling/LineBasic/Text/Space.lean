/-!
# Blanks and white space

Two classes of characters count as empty. Blanks stand between the tokens of a line and are four
ASCII characters. White space, which is trimmed from remarks, typed numbers and file names, is the
whole Unicode property. Every blank is white space, so trimming never uncovers a blank.
-/
namespace LineBasic.Text

/-- A blank separates tokens: space, tab, line feed or carriage return. -/
def isBlank (c : Char) : Bool :=
  c == ' ' || c == '\t' || c == '\n' || c == '\r'

/-- The 25 code points that have the Unicode property White_Space. -/
def isSpace (c : Char) : Bool :=
  let n := c.toNat
  (0x09 ≤ n && n ≤ 0x0d) || n == 0x20 || n == 0x85 || n == 0xa0 || n == 0x1680 ||
    (0x2000 ≤ n && n ≤ 0x200a) || n == 0x2028 || n == 0x2029 || n == 0x202f ||
    n == 0x205f || n == 0x3000

theorem isSpace_of_isBlank {c : Char} (h : isBlank c = true) : isSpace c = true := by
  simp only [isBlank, Bool.or_eq_true, beq_iff_eq] at h
  rcases h with ((rfl | rfl) | rfl) | rfl <;> decide

/-- The text without the longest run at its end whose characters all satisfy `p`. -/
def dropEndWhile (p : Char → Bool) (cs : List Char) : List Char :=
  (cs.reverse.dropWhile p).reverse

@[simp]
theorem dropEndWhile_nil (p : Char → Bool) : dropEndWhile p [] = [] := rfl

def trim (cs : List Char) : List Char :=
  dropEndWhile isSpace (cs.dropWhile isSpace)

end LineBasic.Text
