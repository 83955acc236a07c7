import LineBasic.Proofs.Scanning

/-!
# Scanning undoes spelling

Which token sequences come from a text, said without scanning: every token is spelled by a lexeme,
and the word `REM` stands at the end, alone or with a remark behind it. Such a sequence, written
with blanks between its tokens, scans to itself, however many blanks there are; and what is scanned
from any text is such a sequence.
-/
namespace LineBasic.Token

open Text

/-- The text of a remark is not empty and neither begins nor ends with white space. -/
structure IsRemark (s : String) : Prop where
  nonempty : s ≠ ""
  trimmed : trim s.toList = s.toList

/-- The tokens of some text, without the end of the line. -/
structure Lexical (ts : List Token) : Prop where
  endless : .endOfLine ∉ ts
  names : ∀ name, .ident name ∈ ts → IsName name
  unknowns : ∀ text, .unknown text ∈ ts → IsStray text ∨ IsOversized text
  rem : ∀ before after, ts = before ++ .word .REM :: after →
    after = [] ∨ ∃ text, after = [.remark text]
  remarks : ∀ before text after, ts = before ++ .remark text :: after →
    IsRemark text ∧ after = [] ∧ ∃ earlier, before = earlier ++ [.word .REM]

namespace Lexical

variable {t : Token} {ts : List Token}

theorem isLexeme_head (h : Lexical (t :: ts)) : t.IsLexeme := by
  cases t with
  | unknown text => exact h.unknowns text List.mem_cons_self
  | ident name => exact h.names name List.mem_cons_self
  | remark text =>
    obtain ⟨_, _, earlier, hearlier⟩ := h.remarks [] text ts rfl
    simp at hearlier
  | endOfLine => exact absurd List.mem_cons_self h.endless
  | integer _ | word _ | command _ | operator _ | leftParen | rightParen => trivial

theorem tail (h : Lexical (t :: ts)) (hrem : t ≠ .word .REM) : Lexical ts where
  endless hmem := h.endless (List.mem_cons_of_mem t hmem)
  names name hmem := h.names name (List.mem_cons_of_mem t hmem)
  unknowns text hmem := h.unknowns text (List.mem_cons_of_mem t hmem)
  rem before after hts := h.rem (t :: before) after (by rw [hts]; rfl)
  remarks before text after hts := by
    obtain ⟨htext, hafter, earlier, hearlier⟩ :=
      h.remarks (t :: before) text after (by rw [hts]; rfl)
    refine ⟨htext, hafter, ?_⟩
    cases earlier with
    | nil => exact absurd (List.cons.inj hearlier).1 hrem
    | cons first earlier => exact ⟨earlier, (List.cons.inj hearlier).2⟩

theorem after_rem (h : Lexical (.word .REM :: ts)) :
    ts = [] ∨ ∃ text, ts = [.remark text] ∧ IsRemark text := by
  rcases h.rem [] ts rfl with hnil | ⟨text, htext⟩
  · exact .inl hnil
  · obtain ⟨hremark, _, _⟩ := h.remarks [.word .REM] text [] (by rw [htext]; rfl)
    exact .inr ⟨text, htext, hremark⟩

theorem nil : Lexical [] where
  endless := by simp
  names := by simp
  unknowns := by simp
  rem before after hts := by simp at hts
  remarks before text after hts := by simp at hts

theorem cons (ht : t.IsLexeme) (hrem : t ≠ .word .REM) (h : Lexical ts) : Lexical (t :: ts) where
  endless hmem := by
    rcases List.mem_cons.mp hmem with rfl | hmem
    · exact ht
    · exact h.endless hmem
  names name hmem := by
    rcases List.mem_cons.mp hmem with rfl | hmem
    · exact ht
    · exact h.names name hmem
  unknowns text hmem := by
    rcases List.mem_cons.mp hmem with rfl | hmem
    · exact ht
    · exact h.unknowns text hmem
  rem before after hts := by
    cases before with
    | nil => exact absurd (List.cons.inj hts).1 hrem
    | cons first before => exact h.rem before after (List.cons.inj hts).2
  remarks before text after hts := by
    cases before with
    | nil =>
      rw [(List.cons.inj hts).1] at ht
      cases ht
    | cons first before =>
      obtain ⟨htext, hafter, earlier, rfl⟩ := h.remarks before text after (List.cons.inj hts).2
      exact ⟨htext, hafter, first :: earlier, rfl⟩

theorem rem_alone : Lexical [.word .REM] where
  endless := by simp
  names := by simp
  unknowns := by simp
  rem before after hts := by
    cases before with
    | nil => exact .inl (List.cons.inj hts).2.symm
    | cons first before => simp at hts
  remarks before text after hts := by
    cases before with
    | nil => cases hts
    | cons first before => simp at hts

theorem rem_remark {text : String} (h : IsRemark text) :
    Lexical [.word .REM, .remark text] where
  endless := by simp
  names := by simp
  unknowns := by simp
  rem before after hts := by
    cases before with
    | nil => exact .inr ⟨text, (List.cons.inj hts).2.symm⟩
    | cons first before =>
      have hrest := (List.cons.inj hts).2
      cases before with
      | nil => cases hrest
      | cons second before => simp at hrest
  remarks before found after hts := by
    cases before with
    | nil => cases hts
    | cons first before =>
      obtain ⟨rfl, hrest⟩ := List.cons.inj hts
      cases before with
      | nil =>
        cases hrest
        exact ⟨h, rfl, [], rfl⟩
      | cons second before => simp at hrest

end Lexical

/-! ## From tokens to text and back -/

theorem takes_of_isBlank (t : Token) {c : Char} (h : isBlank c = true) : t.takes c = false := by
  refine t.takes_eq_false (isAlphanum_of_isBlank h) ?_
  rintro rfl
  cases h

theorem endsBefore_blank_append (t : Token) {ws rest : List Char} (h : Blank ws)
    (hrest : ws = [] → rest = []) : t.EndsBefore (ws ++ rest) := by
  intro c hc
  cases ws with
  | nil =>
    rw [hrest rfl] at hc
    cases hc
  | cons d ws =>
    cases hc
    exact t.takes_of_isBlank (blank_cons_iff.mp h).1

theorem ofRemark_of_blank {ws : List Char} (h : Blank ws) : ofRemark ws = [] := by
  rw [ofRemark, trim_eq_nil_of_space h.isSpace]

theorem ofRemark_of_isRemark {text : String} (h : IsRemark text) {ws vs : List Char}
    (hws : Blank ws) (hvs : Blank vs) : ofRemark (ws ++ (text.toList ++ vs)) = [.remark text] := by
  rw [ofRemark, trim_space_append hws.isSpace, trim_append_of_space hvs.isSpace, h.trimmed]
  split
  · rename_i hnil
    exact absurd (String.toList_eq_nil_iff.mp hnil) h.nonempty
  · rw [String.ofList_toList]

abbrev Spaced := Token × String

def Spaced.text (items : List Spaced) : String :=
  String.join (items.map fun item => item.1.spelling ++ item.2)

/-- All blanks but those at the end of the text keep two tokens apart. -/
structure Spaced.Apart (items : List Spaced) : Prop where
  blank : ∀ item ∈ items, Blank item.2.toList
  gaps : ∀ item ∈ items.dropLast, item.2 ≠ ""

namespace Spaced

theorem toList_text_cons (item : Spaced) (items : List Spaced) :
    (text (item :: items)).toList =
      item.1.spelling.toList ++ (item.2.toList ++ (text items).toList) := by
  simp [text]

theorem apart_single (ts : List Token) : Apart (ts.map fun t => (t, " ")) where
  blank item hitem := by
    obtain ⟨t, _, rfl⟩ := List.mem_map.mp hitem
    simp [Blank, isBlank]
  gaps item hitem := by
    obtain ⟨t, _, rfl⟩ := List.mem_map.mp ((List.dropLast_sublist _).subset hitem)
    simp

theorem Apart.tail {item : Spaced} {items : List Spaced} (h : Apart (item :: items)) :
    Apart items where
  blank other hother := h.blank other (List.mem_cons_of_mem item hother)
  gaps other hother := by
    apply h.gaps other
    cases items with
    | nil => simp at hother
    | cons next items => exact List.mem_cons_of_mem item hother

theorem Apart.gap {item : Spaced} {items : List Spaced} (h : Apart (item :: items))
    (hgap : item.2.toList = []) : (text items).toList = [] := by
  cases items with
  | nil => rfl
  | cons next items =>
    have hne := h.gaps item (by simp)
    exact absurd (String.toList_eq_nil_iff.mp hgap) hne

end Spaced

theorem scanChars_spaced {lead : List Char} (hlead : Blank lead) {items : List Spaced}
    (hlexical : Lexical (items.map Prod.fst)) (hapart : Spaced.Apart items) :
    scanChars (lead ++ (Spaced.text items).toList) = items.map Prod.fst ++ [.endOfLine] := by
  rw [scanChars_blank_append hlead]
  induction items with
  | nil => exact scanChars_of_blank blank_nil
  | cons item items ih =>
    obtain ⟨t, gap⟩ := item
    have hgap : Blank gap.toList := hapart.blank (t, gap) List.mem_cons_self
    have hends := t.endsBefore_blank_append hgap hapart.gap
    have hfound := found_spelling hlexical.isLexeme_head hends
    rw [Spaced.toList_text_cons]
    by_cases hrem : t = .word .REM
    · subst hrem
      rw [scanChars_of_found_rem hfound]
      rcases hlexical.after_rem with hnil | ⟨text, htext, hremark⟩
      · obtain rfl := List.map_eq_nil_iff.mp hnil
        simp [Spaced.text, ofRemark_of_blank hgap]
      · obtain ⟨⟨_, last⟩, rfl, rfl⟩ := List.map_eq_singleton_iff.mp htext
        have hlast : Blank last.toList := hapart.tail.blank (_, last) List.mem_cons_self
        have hbehind :
            (Spaced.text [(.remark text, last)]).toList = text.toList ++ last.toList := by
          simp [Spaced.text, spelling]
        rw [hbehind, ofRemark_of_isRemark hremark hgap hlast]
        rfl
    · rw [scanChars_of_found hfound hrem, scanChars_blank_append hgap,
        ih (hlexical.tail hrem) hapart.tail]
      rfl

/-! ## From text to tokens and back -/

theorem isLexeme_ofDigits {digits : List Char} (h : ∀ d ∈ digits, d.isDigit = true) :
    (ofDigits digits).IsLexeme := by
  unfold ofDigits
  split
  · trivial
  · rename_i hnone
    refine .inr ⟨by simpa using h, ?_⟩
    unfold Range.unsigned? at hnone
    split at hnone
    · cases hnone
    · simp only [String.toList_ofList]
      omega

theorem isLexeme_ofName {c : Char} {letters : List Char} (hc : c.isAlpha = true)
    (h : ∀ d ∈ letters, d.isAlphanum = true) : (ofName (c :: letters)).IsLexeme := by
  unfold ofName
  cases hkeyword : keyword? (String.ofList (c :: letters)) with
  | none => exact ⟨⟨c, letters, by simp, hc, h⟩, keyword?_eq_none_iff.mp hkeyword⟩
  | some t =>
    unfold keyword? at hkeyword
    split at hkeyword
    · cases hkeyword
      trivial
    · obtain ⟨command, _, rfl⟩ := Option.map_eq_some_iff.mp hkeyword
      trivial

theorem isLexeme_ofSymbol {c : Char} (hblank : isBlank c = false) (hdigit : c.isDigit = false)
    (halpha : c.isAlpha = false) : (ofSymbol c).IsLexeme := by
  by_cases hleft : c = '('
  · subst hleft
    trivial
  · by_cases hright : c = ')'
    · subst hright
      trivial
    · rw [ofSymbol_of_ofChar? hleft hright]
      cases hoperator : Operator.ofChar? c with
      | some o => trivial
      | none => exact .inl ⟨c, rfl, hblank, halpha, hdigit, hoperator, hleft, hright⟩

theorem isLexeme_lexeme {c : Char} (hblank : isBlank c = false) (cs : List Char) :
    (lexeme c cs).1.IsLexeme := by
  have hcut := cut_lexeme c cs
  generalize (lexeme c cs).1 = t at hcut ⊢
  generalize (lexeme c cs).2 = rest at hcut
  cases hcut with
  | digits hc hdigits _ _ =>
    apply isLexeme_ofDigits
    intro d hd
    rcases List.mem_cons.mp hd with rfl | hd
    · exact hc
    · exact hdigits d hd
  | name hc hletters _ _ => exact isLexeme_ofName hc hletters
  | power _ _ => trivial
  | symbol hdigit halpha _ => exact isLexeme_ofSymbol hblank hdigit halpha

theorem lexical_rem_ofRemark (cs : List Char) : Lexical (.word .REM :: ofRemark cs) := by
  unfold ofRemark
  split
  · exact .rem_alone
  · rename_i hne
    refine .rem_remark ⟨?_, ?_⟩
    · intro hempty
      exact hne (String.ofList_eq_empty_iff.mp hempty)
    · rw [String.toList_ofList, trim_trim]

/-- Scanning ends with one end of line and gives a lexical sequence before it. -/
theorem exists_lexical_scanChars (cs : List Char) :
    ∃ ts, Lexical ts ∧ scanChars cs = ts ++ [.endOfLine] := by
  fun_induction scanChars cs with
  | case1 => exact ⟨[], .nil, rfl⟩
  | case2 c cs hc ih => exact ih
  | case3 c cs hc found hrem => exact ⟨_, lexical_rem_ofRemark found.2, rfl⟩
  | case4 c cs hc found hrem ih =>
    obtain ⟨ts, hlexical, hts⟩ := ih
    have hlexeme : found.1.IsLexeme := isLexeme_lexeme (by simpa using hc) cs
    exact ⟨found.1 :: ts, hlexical.cons hlexeme hrem, by rw [hts]; rfl⟩

/-- Joined by blanks, up to the empty spelling of the end of the line, every token has a blank
behind it. -/
theorem intercalate_spelling (ts : List Token) :
    " ".intercalate (List.map spelling (ts ++ [.endOfLine])) =
      Spaced.text (ts.map fun t => (t, " ")) := by
  induction ts with
  | nil => rfl
  | cons t ts ih =>
    rw [List.cons_append, List.map_cons, String.intercalate_cons_of_ne_nil (by simp), ih,
      ← String.toList_inj, List.map_cons, Spaced.toList_text_cons]
    simp

theorem scan_intercalate_spelling {ts : List Token} (h : Lexical ts) :
    scan (" ".intercalate (List.map spelling (ts ++ [.endOfLine]))) = ts ++ [.endOfLine] := by
  have hfst : (ts.map fun t => ((t, " ") : Spaced)).map Prod.fst = ts := by
    simp [Function.comp_def]
  have hscan := scanChars_spaced blank_nil (hfst.symm ▸ h) (Spaced.apart_single ts)
  rw [hfst, List.nil_append] at hscan
  rw [scan, intercalate_spelling, hscan]

/-- Scanning gives back every lexical sequence from its spellings, whatever blanks stand before,
between and behind them, and what it gives for any text is such a sequence. So the spellings of what
was scanned, joined by single blanks, scan to the same tokens. -/
theorem scan_undoes_spelling :
    (∀ (lead : String) (items : List Spaced), Lexical (items.map Prod.fst) → Blank lead.toList →
      (∀ item ∈ items, Blank item.2.toList) → (∀ item ∈ items.dropLast, item.2 ≠ "") →
      scan (lead ++ String.join (items.map fun item => item.1.spelling ++ item.2)) =
        items.map Prod.fst ++ [.endOfLine]) ∧
    (∀ s, ∃ ts, Lexical ts ∧ scan s = ts ++ [.endOfLine]) ∧
    ∀ s, scan (" ".intercalate ((scan s).map spelling)) = scan s := by
  refine ⟨fun lead items hlexical hlead hblank hgaps => ?_,
    fun s => exists_lexical_scanChars s.toList, fun s => ?_⟩
  · rw [scan, String.toList_append]
    exact scanChars_spaced hlead hlexical ⟨hblank, hgaps⟩
  · obtain ⟨ts, hlexical, hts⟩ := exists_lexical_scanChars s.toList
    rw [scan, scan, hts]
    exact scan_intercalate_spelling hlexical

/-- Two stars apart, unknown tokens of both kinds, and a remark that holds a blank line. -/
theorem scan_undoes_spelling_of_line :
    scan "\t10 é\t\n*\r* 18446744073709551616 REM  a ** (b\n\n#\n" =
      [.integer 10, .unknown "é", .operator .multiply, .operator .multiply,
        .unknown "18446744073709551616", .word .REM, .remark "a ** (b\n\n#", .endOfLine] := by
  let items : List Spaced := [(.integer 10, " "), (.unknown "é", "\t\n"),
    (.operator .multiply, "\r"), (.operator .multiply, " "), (.unknown "18446744073709551616", " "),
    (.word .REM, "  "), (.remark "a ** (b\n\n#", "\n")]
  have hstray : IsStray "é" := ⟨'é', by decide⟩
  have hoversized : IsOversized "18446744073709551616" :=
    ⟨List.all_eq_true.mp (by decide), by decide⟩
  have hremark : IsRemark "a ** (b\n\n#" := ⟨by decide, by decide⟩
  have hlexical : Lexical (items.map Prod.fst) :=
    .cons trivial (by decide) (.cons (.inl hstray) (by decide) (.cons trivial (by decide)
      (.cons trivial (by decide) (.cons (.inr hoversized) (by decide) (.rem_remark hremark)))))
  exact scan_undoes_spelling.1 "\t" items hlexical (by decide) (by decide) (by decide)

end LineBasic.Token
