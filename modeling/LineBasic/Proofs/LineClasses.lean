import Mathlib
import LineBasic.Proofs.Editing
import LineBasic.Proofs.Lexemes
import LineBasic.Proofs.Recognition.Line

/-!
# Lines without a statement

A blank line, a bare number and a command are told by their text alone: there is nothing in it but
blanks, or there are blanks around one run of digits or one command. The way from the line back to
its text goes over the tokens: such a line has at most one token before its end, and a text with one
token is that token's lexeme among blanks.
-/
namespace LineBasic

open Grammar

namespace Text

def AmidBlanks (core cs : List Char) : Prop :=
  ∃ before after, Blank before ∧ Blank after ∧ cs = before ++ core ++ after

end Text

namespace Token

open Text

variable {cs core : List Char} {t : Token}

/-! ## Texts of at most one token -/

theorem rest_eq_nil_of_scanChars {p rest : List Token}
    (h : scanChars cs = p ++ .endOfLine :: rest) : rest = [] := by
  obtain ⟨ts, hlexical, hts⟩ := exists_lexical_scanChars cs
  rcases List.eq_nil_or_concat rest with hrest | ⟨rest, last, rfl⟩
  · exact hrest
  · rw [hts, List.concat_eq_append, ← List.cons_append, ← List.append_assoc] at h
    obtain ⟨rfl, _⟩ := List.append_inj' h rfl
    exact absurd (by simp) hlexical.endless

theorem scanChars_eq_nil_iff : scanChars cs = [.endOfLine] ↔ Blank cs := by
  constructor
  · intro h
    obtain ⟨pieces, rest, tail, hparts, hcloses, hscan⟩ := exists_parts cs [] (.nil cs)
    have hnone : pieces.map Piece.token ++ tail = [] := by
      rw [hscan] at h
      exact (List.append_left_inj [.endOfLine]).mp h
    obtain ⟨hpieces, rfl⟩ := List.append_eq_nil_iff.mp hnone
    obtain rfl := List.map_eq_nil_iff.mp hpieces
    cases hparts
    exact (hcloses.blank_of_no_rem (by simp)).1
  · exact scanChars_of_blank

theorem exists_lexes_of_scanChars (h : scanChars cs = [t, .endOfLine]) (hrem : t ≠ .word .REM) :
    ∃ before text behind, AmidBlanks text cs ∧ Lexes before text behind t := by
  obtain ⟨pieces, rest, tail, hparts, hcloses, hscan⟩ := exists_parts cs [] (.nil cs)
  have hone : pieces.map Piece.token ++ tail = [t] := by
    rw [hscan] at h
    exact (List.append_left_inj [.endOfLine]).mp h
  cases hparts with
  | nil =>
    obtain ⟨_, rfl⟩ := hcloses.blank_of_no_rem (by simp)
    cases hone
  | @cons _ gap text behind _ found pieces hgap hlexes hparts =>
    obtain ⟨rfl, hnone⟩ := List.cons.inj hone
    obtain ⟨hpieces, rfl⟩ := List.append_eq_nil_iff.mp hnone
    obtain rfl := List.map_eq_nil_iff.mp hpieces
    cases hparts
    obtain ⟨hbehind, _⟩ := hcloses.blank_of_no_rem (by simpa using hrem.symm)
    exact ⟨_, text, rest, ⟨gap, rest, hgap, hbehind, rfl⟩, hlexes⟩

theorem scanChars_of_amidBlanks (h : AmidBlanks core cs) (hrem : t ≠ .word .REM)
    (hfound : ∀ rest, Blank rest → Found (core ++ rest) t rest) :
    scanChars cs = [t, .endOfLine] := by
  obtain ⟨before, after, hbefore, hafter, rfl⟩ := h
  rw [List.append_assoc, scanChars_blank_append hbefore,
    scanChars_of_found (hfound after hafter) hrem, scanChars_of_blank hafter]

theorem scanChars_eq_integer_iff {n : UInt64} : scanChars cs = [.integer n, .endOfLine] ↔
    ∃ digits, AmidBlanks digits cs ∧ Decimal.Numeral digits n.toNat := by
  constructor
  · intro h
    obtain ⟨_, text, _, hamid, hlexes⟩ := exists_lexes_of_scanChars h (by simp)
    cases hlexes with
    | integer _ hnumeral => exact ⟨text, hamid, hnumeral⟩
  · rintro ⟨digits, hamid, hnumeral⟩
    have htoken : ofDigits digits = .integer n := by
      rw [ofDigits, hnumeral.value_eq, Range.unsigned?_toNat]
    refine scanChars_of_amidBlanks hamid (by simp) fun rest hrest => ?_
    rw [← htoken]
    refine found_of_digits hnumeral.ne_nil hnumeral.isDigit fun d hd => ?_
    exact isDigit_of_isAlphanum (isAlphanum_of_isBlank (hrest d (List.mem_of_mem_head? hd)))

theorem scanChars_eq_command_iff {c : Command} : scanChars cs = [.command c, .endOfLine] ↔
    AmidBlanks c.spelling.toList cs := by
  constructor
  · intro h
    obtain ⟨_, text, _, hamid, hlexes⟩ := exists_lexes_of_scanChars h (by simp)
    cases hlexes with
    | command _ hspelling =>
      rw [← hspelling, String.toList_ofList]
      exact hamid
  · intro hamid
    refine scanChars_of_amidBlanks hamid (by simp) fun rest hrest => ?_
    rw [← ofName_command c]
    refine found_of_isWordLike (isWordLike_command c) fun d hd => ?_
    exact isAlphanum_of_isBlank (hrest d (List.mem_of_mem_head? hd))

end Token

namespace Line

variable {s : String} {line : Line}

/-! ## From lines to tokens -/

/-- The tokens of a line that has no statement and is no error. -/
def bareTokens? : Line → Option (List Token)
  | blank => some []
  | delete n => some [.integer n]
  | command c => some [.command c]
  | numbered _ _ => none
  | invalid _ => none

theorem written_of_ofTokens {ts : List Token} (h : ofTokens ts = line)
    (hvalid : ∀ e, line ≠ .invalid e) : Written ts line := by
  have hknown : ∀ text, .unknown text ∉ ts := by
    intro text htext
    obtain ⟨found, _, hfault⟩ := ofTokens_of_unknown htext
    exact hvalid _ (h.symm.trans hfault)
  rw [ofTokens_of_known hknown] at h
  exact (ofKnownTokens_eq_iff hvalid).mp h

/-- The grammar gives a line without a statement to its own tokens only. -/
theorem eq_of_written {ts p : List Token} (h : Written ts line) (hp : line.bareTokens? = some p) :
    ts = [] ∨ ∃ rest, ts = p ++ .endOfLine :: rest := by
  cases h with
  | empty => exact .inl rfl
  | blank rest | command c rest | delete n rest =>
    cases hp
    exact .inr ⟨rest, rfl⟩
  | numbered n rest _ => cases hp

theorem ofText_eq_iff_of_bareTokens? {p : List Token} (hp : line.bareTokens? = some p) :
    ofText s = line ↔ Token.scanChars s.toList = p ++ [.endOfLine] := by
  rw [ofText, scan_source, Token.scan]
  constructor
  · intro hline
    have hvalid : ∀ e, line ≠ .invalid e := by
      rintro e rfl
      cases hp
    rcases eq_of_written (written_of_ofTokens hline hvalid) hp with hnil | ⟨rest, hrest⟩
    · obtain ⟨ts, _, hscan⟩ := Token.exists_lexical_scanChars s.toList
      rw [hscan] at hnil
      simp at hnil
    · rw [hrest, Token.rest_eq_nil_of_scanChars hrest]
  · intro hscan
    rw [hscan]
    cases line with
    | blank | delete n | command c =>
      cases hp
      rfl
    | numbered _ _ | invalid _ => cases hp

end Line

namespace Program

/-- Entering the text takes the line of the number out of the program. -/
def Loses (p : Program) (s : String) (number : LineNumber) : Prop :=
  p.get? number ≠ none ∧ (p.enter s).2.get? number = none

theorem loses_iff {p : Program} {s : String} {number : LineNumber} :
    p.Loses s number ↔ p.get? number ≠ none ∧ Line.ofText s = .delete number := by
  unfold Loses enter
  cases Line.ofText s with
  | numbered n st =>
    by_cases hn : number = n <;> simp [get?_insert, hn]
  | delete n =>
    by_cases hn : number = n
    · simp [get?_erase, hn]
    · simp [get?_erase, hn, Ne.symm hn]
  | command _ | blank | invalid _ => simp

end Program

/-- A line is blank, a bare number or a command just when its text is: blanks, a numeral among
blanks, the spelling of the command among blanks. Line ends behind a text do not change what it is.
So a line of a program is lost by entering its bare number, and by nothing else. -/
theorem Line.bare_lines_by_text (s : String) :
    (ofText s = .blank ↔ Text.Blank s.toList) ∧
    (∀ n, ofText s = .delete n ↔
      ∃ digits, Text.AmidBlanks digits s.toList ∧ Decimal.Numeral digits n.toNat) ∧
    (∀ c, ofText s = .command c ↔ Text.AmidBlanks c.spelling.toList s.toList) ∧
    Token.scan (source s) = Token.scan s ∧
    (∀ ends : String, (∀ c ∈ ends.toList, Text.isLineEnd c = true) →
      ofText (s ++ ends) = ofText s) ∧
    ∀ (p : Program) number, p.Loses s number ↔ p.get? number ≠ none ∧
      ∃ digits, Text.AmidBlanks digits s.toList ∧ Decimal.Numeral digits number.toNat := by
  have hdelete (n : LineNumber) : ofText s = .delete n ↔
      ∃ digits, Text.AmidBlanks digits s.toList ∧ Decimal.Numeral digits n.toNat := by
    rw [ofText_eq_iff_of_bareTokens? rfl]
    exact Token.scanChars_eq_integer_iff
  refine ⟨?_, hdelete, fun c => ?_, scan_source s, fun ends hends => ?_, fun p number => ?_⟩
  · rw [ofText_eq_iff_of_bareTokens? rfl]
    exact Token.scanChars_eq_nil_iff
  · rw [ofText_eq_iff_of_bareTokens? rfl]
    exact Token.scanChars_eq_command_iff
  · rw [ofText, ofText, source, source, String.toList_append, Text.dropLineEnd, Text.dropLineEnd,
      Text.dropEndWhile_append_of_all hends]
  · rw [Program.loses_iff, hdelete]

/-- The largest number, with leading zeros, behind a tab and before two line ends. -/
theorem Line.bare_lines_by_text_of_largest_number :
    let text := "\t0018446744073709551615 "
    ofText text = .delete 18446744073709551615 ∧
      (∀ c ∈ "\r\n".toList, Text.isLineEnd c = true) ∧ ofText (text ++ "\r\n") = ofText text := by
  intro text
  obtain ⟨_, hdelete, _, _, hends, _⟩ := bare_lines_by_text text
  have hlineEnds : ∀ c ∈ "\r\n".toList, Text.isLineEnd c = true := List.all_eq_true.mp (by decide)
  have hnumeral : Decimal.Numeral "0018446744073709551615".toList 18446744073709551615 :=
    Decimal.natural?_eq_some_iff.mp (by decide)
  exact ⟨(hdelete _).mpr ⟨_, ⟨"\t".toList, " ".toList, by decide, by decide, by decide⟩, hnumeral⟩,
    hlineEnds, hends _ hlineEnds⟩

end LineBasic
