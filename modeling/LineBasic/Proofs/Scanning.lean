import Mathlib
import LineBasic.Line
import LineBasic.Proofs.Trimming

/-!
# Scanning

What scanning does to the front of a text. The spelling of a token gives the token back, unless the
text behind it begins with a character that the token would take as well; which characters these are
depends on the kind of the token only. Blanks give nothing, in front of a text or behind it.
-/
namespace LineBasic

namespace Text

theorem isAlphanum_of_isBlank {c : Char} (h : isBlank c = true) : c.isAlphanum = false := by
  simp only [isBlank, Bool.or_eq_true, beq_iff_eq] at h
  rcases h with ((rfl | rfl) | rfl) | rfl <;> decide

theorem isBlank_of_isAlphanum {c : Char} (h : c.isAlphanum = true) : isBlank c = false := by
  by_contra hblank
  rw [isAlphanum_of_isBlank (Bool.not_eq_false _ ▸ hblank)] at h
  cases h

theorem isDigit_of_isAlpha {c : Char} (h : c.isAlpha = true) : c.isDigit = false := by
  simp only [Char.isAlpha, Char.isUpper, Char.isLower, Bool.or_eq_true, Bool.and_eq_true,
    decide_eq_true_eq, UInt32.le_iff_toNat_le, ge_iff_le] at h
  simp only [Char.isDigit, Bool.and_eq_false_iff, decide_eq_false_iff_not, UInt32.le_iff_toNat_le,
    ge_iff_le]
  have hz : '9'.val.toNat = 57 := rfl
  have hA : 'A'.val.toNat = 65 := rfl
  have ha : 'a'.val.toNat = 97 := rfl
  omega

theorem span_append {p : Char → Bool} {cs rest : List Char} (hcs : ∀ c ∈ cs, p c = true)
    (hrest : ∀ c, rest.head? = some c → p c = false) :
    (cs ++ rest).takeWhile p = cs ∧ (cs ++ rest).dropWhile p = rest := by
  rw [List.takeWhile_append_of_pos hcs, List.dropWhile_append_of_pos hcs]
  cases rest with
  | nil => simp
  | cons c rest =>
    have hc := hrest c rfl
    simp [hc]

theorem dropWhile_head (p : Char → Bool) (cs : List Char) :
    ∀ c, (cs.dropWhile p).head? = some c → p c = false := by
  intro c hc
  have hhead := List.head?_dropWhile_not p cs
  rw [hc] at hhead
  exact hhead

theorem head_append {p : Char → Bool} {cs ws : List Char}
    (hcs : ∀ c, cs.head? = some c → p c = false) (hws : ∀ c ∈ ws, p c = false) :
    ∀ c, (cs ++ ws).head? = some c → p c = false := by
  intro c hc
  cases cs with
  | nil => exact hws c (List.mem_of_mem_head? hc)
  | cons d cs => exact hcs c hc

end Text

open Text

def keywords : List String :=
  Word.all.map Word.spelling ++ Command.all.map Command.spelling

/-- A letter, then letters and digits. -/
def IsWordLike (s : String) : Prop :=
  ∃ c cs, s.toList = c :: cs ∧ c.isAlpha = true ∧ ∀ d ∈ cs, d.isAlphanum = true

structure IsName (s : String) : Prop where
  shape : IsWordLike s
  free : s ∉ keywords

/-- A single character that begins no token. -/
def IsStray (s : String) : Prop :=
  ∃ c, s = String.singleton c ∧ isBlank c = false ∧ c.isAlpha = false ∧ c.isDigit = false ∧
    Operator.ofChar? c = none ∧ c ≠ '(' ∧ c ≠ ')'

/-- A run of digits whose value is beyond every number. -/
structure IsOversized (s : String) : Prop where
  digits : ∀ c ∈ s.toList, c.isDigit = true
  beyond : 18446744073709551615 < Decimal.value s.toList

namespace Token

/-- The token has a lexeme of its own, which is its spelling. -/
def IsLexeme : Token → Prop
  | unknown text => IsStray text ∨ IsOversized text
  | ident name => IsName name
  | remark _ => False
  | endOfLine => False
  | _ => True

/-- The character belongs to the token if it stands directly behind it. -/
def takes (t : Token) (c : Char) : Bool :=
  match t with
  | unknown _ | integer _ => c.isDigit
  | ident _ | word _ | command _ => c.isAlphanum
  | operator .multiply => c == '*'
  | _ => false

theorem takes_eq_false (t : Token) {c : Char} (halphanum : c.isAlphanum = false) (hstar : c ≠ '*') :
    t.takes c = false := by
  cases t with
  | unknown _ | integer _ => exact (Bool.or_eq_false_iff.mp halphanum).2
  | ident _ | word _ | command _ => exact halphanum
  | operator o =>
    cases o with
    | multiply => exact beq_eq_false_iff_ne.mpr hstar
    | _ => rfl
  | leftParen | rightParen | remark _ | endOfLine => rfl

/-- The token does not go on into the text behind it. -/
def EndsBefore (t : Token) (rest : List Char) : Prop :=
  ∀ c, rest.head? = some c → t.takes c = false

theorem keyword?_eq_none_iff {s : String} : keyword? s = none ↔ s ∉ keywords := by
  have hword : Word.ofSpelling? s = none ↔ s ∉ Word.all.map Word.spelling := by
    simp [Word.ofSpelling?, List.find?_eq_none]
  have hcommand : Command.ofSpelling? s = none ↔ s ∉ Command.all.map Command.spelling := by
    simp [Command.ofSpelling?, List.find?_eq_none]
  unfold keyword? keywords
  rw [List.mem_append, not_or, ← hword, ← hcommand]
  cases Word.ofSpelling? s <;> simp

/-! ## Runs of digits, names and symbols -/

/-- All that the lexeme at the front of `c :: cs` can be, one rule for each way to cut it off. -/
inductive Cut (c : Char) (cs : List Char) : Token → List Char → Prop
  | digits {digits rest} : c.isDigit = true → (∀ d ∈ digits, d.isDigit = true) →
      (∀ d, rest.head? = some d → d.isDigit = false) → cs = digits ++ rest →
      Cut c cs (ofDigits (c :: digits)) rest
  | name {letters rest} : c.isAlpha = true → (∀ d ∈ letters, d.isAlphanum = true) →
      (∀ d, rest.head? = some d → d.isAlphanum = false) → cs = letters ++ rest →
      Cut c cs (ofName (c :: letters)) rest
  | power {rest} : c = '*' → cs = '*' :: rest → Cut c cs (.operator .power) rest
  | symbol : c.isDigit = false → c.isAlpha = false → (c = '*' → cs.head? ≠ some '*') →
      Cut c cs (ofSymbol c) cs

theorem cut_lexeme (c : Char) (cs : List Char) : Cut c cs (lexeme c cs).1 (lexeme c cs).2 := by
  unfold lexeme
  split
  · rename_i hdigit
    exact .digits hdigit (fun d hd => List.mem_takeWhile_imp hd) (dropWhile_head _ cs)
      List.takeWhile_append_dropWhile.symm
  · rename_i hdigit
    split
    · rename_i halpha
      exact .name halpha (fun d hd => List.mem_takeWhile_imp hd) (dropWhile_head _ cs)
        List.takeWhile_append_dropWhile.symm
    · rename_i halpha
      split
      · exact .power rfl rfl
      · rename_i hnot
        refine .symbol (by simpa using hdigit) (by simpa using halpha) fun hc hhead => ?_
        obtain ⟨rest, hrest⟩ := List.head?_eq_some_iff.mp hhead
        exact hnot rest hc hrest

section Lexemes

variable {c : Char} {cs rest : List Char} {s : String}

theorem lexeme_digits (hc : c.isDigit = true) (hcs : ∀ d ∈ cs, d.isDigit = true)
    (hrest : ∀ d, rest.head? = some d → d.isDigit = false) :
    lexeme c (cs ++ rest) = (ofDigits (c :: cs), rest) := by
  obtain ⟨htake, hdrop⟩ := span_append hcs hrest
  unfold lexeme
  rw [if_pos hc, htake, hdrop]

theorem lexeme_name (hc : c.isAlpha = true) (hcs : ∀ d ∈ cs, d.isAlphanum = true)
    (hrest : ∀ d, rest.head? = some d → d.isAlphanum = false) :
    lexeme c (cs ++ rest) = (ofName (c :: cs), rest) := by
  obtain ⟨htake, hdrop⟩ := span_append hcs hrest
  have hdigit := isDigit_of_isAlpha hc
  unfold lexeme
  rw [if_neg (by simp [hdigit]), if_pos hc, htake, hdrop]

theorem lexeme_symbol (hdigit : c.isDigit = false) (halpha : c.isAlpha = false)
    (hstar : c = '*' → cs.head? ≠ some '*') : lexeme c cs = (ofSymbol c, cs) := by
  unfold lexeme
  rw [if_neg (by simp [hdigit]), if_neg (by simp [halpha])]
  split
  · exact absurd rfl (hstar rfl)
  · rfl

theorem ofDigits_toDigits (n : UInt64) : ofDigits (Nat.toDigits 10 n.toNat) = .integer n := by
  rw [ofDigits, Decimal.value_toDigits, Range.unsigned?_toNat]

theorem ofDigits_of_isOversized (h : IsOversized s) : ofDigits s.toList = .unknown s := by
  have hnone : Range.unsigned? (Decimal.value s.toList) = none := by
    rw [Range.unsigned?, if_neg (Nat.not_le.mpr h.beyond)]
  rw [ofDigits, hnone, String.ofList_toList]

theorem ofName_of_isName (h : IsName s) : ofName s.toList = .ident s := by
  rw [ofName, String.ofList_toList, keyword?_eq_none_iff.mpr h.free]
  rfl

theorem ofName_word (w : Word) : ofName w.spelling.toList = .word w := by
  rw [ofName, String.ofList_toList, keyword?, Word.ofSpelling?_eq_some_iff.mpr rfl]
  rfl

theorem ofName_command (c : Command) : ofName c.spelling.toList = .command c := by
  have hword : Word.ofSpelling? c.spelling = none := by cases c <;> decide
  rw [ofName, String.ofList_toList, keyword?, hword, Command.ofSpelling?_eq_some_iff.mpr rfl]
  rfl

theorem ofSymbol_of_ofChar? (hleft : c ≠ '(') (hright : c ≠ ')') :
    ofSymbol c = match Operator.ofChar? c with
      | some o => .operator o
      | none => .unknown (String.singleton c) := by
  unfold ofSymbol
  split
  · exact absurd rfl hleft
  · exact absurd rfl hright
  · rfl

theorem isWordLike_word (w : Word) : IsWordLike w.spelling := by
  cases w <;> exact ⟨_, _, rfl, by decide, List.all_eq_true.mp (by decide)⟩

theorem isWordLike_command (c : Command) : IsWordLike c.spelling := by
  cases c <;> exact ⟨_, _, rfl, by decide, List.all_eq_true.mp (by decide)⟩

end Lexemes

/-! ## One token in front of a text -/

/-- The text begins with a lexeme, which gives the token and leaves the rest. -/
def Found (cs : List Char) (t : Token) (rest : List Char) : Prop :=
  ∃ c after, cs = c :: after ∧ isBlank c = false ∧ lexeme c after = (t, rest)

theorem found_of_digits {digits rest : List Char} (hne : digits ≠ [])
    (hdigits : ∀ d ∈ digits, d.isDigit = true)
    (hrest : ∀ d, rest.head? = some d → d.isDigit = false) :
    Found (digits ++ rest) (ofDigits digits) rest := by
  obtain ⟨c, cs, rfl⟩ := List.exists_cons_of_ne_nil hne
  have hc := hdigits c List.mem_cons_self
  have hcs : ∀ d ∈ cs, d.isDigit = true := fun d hd => hdigits d (List.mem_cons_of_mem c hd)
  exact ⟨c, cs ++ rest, rfl, isBlank_of_isAlphanum (by simp [Char.isAlphanum, hc]),
    lexeme_digits hc hcs hrest⟩

theorem found_of_isWordLike {s : String} {rest : List Char} (h : IsWordLike s)
    (hrest : ∀ d, rest.head? = some d → d.isAlphanum = false) :
    Found (s.toList ++ rest) (ofName s.toList) rest := by
  obtain ⟨c, cs, hs, hc, hcs⟩ := h
  rw [hs]
  exact ⟨c, cs ++ rest, rfl, isBlank_of_isAlphanum (by simp [Char.isAlphanum, hc]),
    lexeme_name hc hcs hrest⟩

theorem found_operator {o : Operator} {rest : List Char} (h : (operator o).EndsBefore rest) :
    Found (o.symbol.toList ++ rest) (.operator o) rest := by
  cases o with
  | power => exact ⟨'*', '*' :: rest, rfl, by decide, rfl⟩
  | multiply =>
    refine ⟨'*', rest, rfl, by decide, lexeme_symbol (by decide) (by decide) fun _ hstar => ?_⟩
    cases h '*' hstar
  | divide => exact ⟨'/', rest, rfl, by decide, lexeme_symbol (by decide) (by decide) (by simp)⟩
  | add => exact ⟨'+', rest, rfl, by decide, lexeme_symbol (by decide) (by decide) (by simp)⟩
  | subtract => exact ⟨'-', rest, rfl, by decide, lexeme_symbol (by decide) (by decide) (by simp)⟩
  | equal => exact ⟨'=', rest, rfl, by decide, lexeme_symbol (by decide) (by decide) (by simp)⟩
  | less => exact ⟨'<', rest, rfl, by decide, lexeme_symbol (by decide) (by decide) (by simp)⟩
  | greater => exact ⟨'>', rest, rfl, by decide, lexeme_symbol (by decide) (by decide) (by simp)⟩

theorem found_of_isStray {s : String} (h : IsStray s) (rest : List Char) :
    Found (s.toList ++ rest) (.unknown s) rest := by
  obtain ⟨c, rfl, hblank, halpha, hdigit, hoperator, hleft, hright⟩ := h
  refine ⟨c, rest, by simp, hblank, ?_⟩
  rw [lexeme_symbol hdigit halpha, ofSymbol_of_ofChar? hleft hright, hoperator]
  rintro rfl
  cases hoperator

theorem found_spelling {t : Token} (h : t.IsLexeme) {rest : List Char} (hrest : t.EndsBefore rest) :
    Found (t.spelling.toList ++ rest) t rest := by
  cases t with
  | unknown text =>
    rcases h with hstray | hoversized
    · exact found_of_isStray hstray rest
    · have hne : text.toList ≠ [] := by
        intro hnil
        have hbeyond := hoversized.beyond
        rw [hnil] at hbeyond
        cases hbeyond
      have hfound := found_of_digits hne hoversized.digits hrest
      rwa [ofDigits_of_isOversized hoversized] at hfound
  | integer n =>
    have hdigits : ∀ d ∈ Nat.toDigits 10 n.toNat, d.isDigit = true := fun d hd =>
      Nat.isDigit_of_mem_toDigits (by decide) (by decide) hd
    have hfound := found_of_digits Nat.toDigits_ne_nil hdigits hrest
    rw [ofDigits_toDigits] at hfound
    simpa [spelling, Decimal.ofNat] using hfound
  | ident name =>
    have hfound := found_of_isWordLike h.shape hrest
    rwa [ofName_of_isName h] at hfound
  | word w =>
    have hfound := found_of_isWordLike (isWordLike_word w) hrest
    rwa [ofName_word] at hfound
  | command c =>
    have hfound := found_of_isWordLike (isWordLike_command c) hrest
    rwa [ofName_command] at hfound
  | operator o => exact found_operator hrest
  | leftParen => exact ⟨'(', rest, rfl, by decide, rfl⟩
  | rightParen => exact ⟨')', rest, rfl, by decide, rfl⟩
  | remark _ | endOfLine => cases h

theorem scanChars_of_found {cs rest : List Char} {t : Token} (h : Found cs t rest)
    (hrem : t ≠ .word .REM) : scanChars cs = t :: scanChars rest := by
  obtain ⟨c, after, rfl, hblank, hlexeme⟩ := h
  rw [scanChars, if_neg (by simp [hblank]), hlexeme]
  simp [hrem]

theorem scanChars_of_found_rem {cs rest : List Char} (h : Found cs (.word .REM) rest) :
    scanChars cs = .word .REM :: (ofRemark rest ++ [.endOfLine]) := by
  obtain ⟨c, after, rfl, hblank, hlexeme⟩ := h
  rw [scanChars, if_neg (by simp [hblank]), hlexeme]
  simp

/-! ## Blanks -/

theorem scanChars_blank_append {ws : List Char} (h : Blank ws) (cs : List Char) :
    scanChars (ws ++ cs) = scanChars cs := by
  induction ws with
  | nil => rfl
  | cons c ws ih =>
    obtain ⟨hc, hws⟩ := blank_cons_iff.mp h
    rw [List.cons_append, scanChars, if_pos hc, ih hws]

theorem scanChars_of_blank {ws : List Char} (h : Blank ws) : scanChars ws = [.endOfLine] := by
  have hscan := scanChars_blank_append h []
  rwa [List.append_nil, scanChars] at hscan

theorem lexeme_append_blank {ws : List Char} (h : Blank ws) (c : Char) (cs : List Char) :
    lexeme c (cs ++ ws) = ((lexeme c cs).1, (lexeme c cs).2 ++ ws) := by
  have halphanum : ∀ d ∈ ws, d.isAlphanum = false := fun d hd => isAlphanum_of_isBlank (h d hd)
  have hdigit : ∀ d ∈ ws, d.isDigit = false := fun d hd =>
    (Bool.or_eq_false_iff.mp (halphanum d hd)).2
  have hcut := cut_lexeme c cs
  generalize (lexeme c cs).1 = t at hcut
  generalize (lexeme c cs).2 = rest at hcut
  cases hcut with
  | digits hc hdigits hrest hcs =>
    rw [hcs, List.append_assoc]
    exact lexeme_digits hc hdigits (head_append hrest hdigit)
  | name hc hletters hrest hcs =>
    rw [hcs, List.append_assoc]
    exact lexeme_name hc hletters (head_append hrest halphanum)
  | power hc hcs =>
    subst hc hcs
    rfl
  | symbol hnodigit hnoalpha hstar =>
    apply lexeme_symbol hnodigit hnoalpha
    intro hc hhead
    cases cs with
    | nil => cases h '*' (List.mem_of_mem_head? hhead)
    | cons d cs => exact hstar hc hhead

theorem ofRemark_append_blank {ws : List Char} (h : Blank ws) (cs : List Char) :
    ofRemark (cs ++ ws) = ofRemark cs := by
  rw [ofRemark, trim_append_of_space h.isSpace, ofRemark]

theorem scanChars_append_blank {ws : List Char} (h : Blank ws) (cs : List Char) :
    scanChars (cs ++ ws) = scanChars cs := by
  have hfound (c : Char) (cs : List Char) (hc : ¬ isBlank c = true) :
      Found (c :: cs ++ ws) (lexeme c cs).1 ((lexeme c cs).2 ++ ws) :=
    ⟨c, cs ++ ws, rfl, by simpa using hc, lexeme_append_blank h c cs⟩
  fun_induction scanChars cs with
  | case1 => exact scanChars_of_blank h
  | case2 c cs hc ih => rw [List.cons_append, scanChars, if_pos hc, ih]
  | case3 c cs hc found hrem =>
    have hrest := hfound c cs hc
    rw [hrem] at hrest
    rw [scanChars_of_found_rem hrest, ofRemark_append_blank h]
  | case4 c cs hc found hrem ih => rw [scanChars_of_found (hfound c cs hc) hrem, ih]

end Token

theorem Line.scan_source (s : String) : Token.scan (source s) = Token.scan s := by
  obtain ⟨ws, hs, hws⟩ := exists_eq_dropEndWhile_append isLineEnd s.toList
  have hblank : Blank ws := fun c hc => isBlank_of_isLineEnd (hws c hc)
  unfold Token.scan source
  rw [String.toList_ofList]
  conv_rhs => rw [hs]
  exact (Token.scanChars_append_blank hblank _).symm

end LineBasic
