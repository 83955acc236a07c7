import Mathlib
import LineBasic.Proofs.Lexical
import LineBasic.Proofs.Numerals

/-!
# The lexemes of a text

Every character of a text is accounted for: the text falls into lexemes, blanks between them, and
what is left behind the last one. A run of digits and a word are taken as long as they can be, on
both sides, so that no token is made of less than it could be. What is left are blanks, or the text
of a remark.
-/
namespace LineBasic

namespace Text

/-! ## Runs that cannot be lengthened -/

structure IsDigits (cs : List Char) : Prop where
  ne_nil : cs ≠ []
  digits : ∀ c ∈ cs, c.isDigit = true

/-- Letters and digits, of which the first is a letter. -/
structure IsWord (cs : List Char) : Prop where
  first : ∃ c, cs.head? = some c ∧ c.isAlpha = true
  letters : ∀ c ∈ cs, c.isAlphanum = true

/-- The text between `before` and `behind` is of the kind `P`, and no longer one around it is. -/
structure Longest (P : List Char → Prop) (before text behind : List Char) : Prop where
  kind : P text
  longest : ∀ u v, u <:+ before → v <+: behind → P (u ++ text ++ v) → u = [] ∧ v = []

/-- Texts of the kind `P` are not empty, consist of characters with the property `p`, and begin with
texts of the same kind. -/
structure IsKind (P : List Char → Prop) (p : Char → Bool) : Prop where
  ne_nil : ∀ {cs}, P cs → cs ≠ []
  all : ∀ {cs}, P cs → ∀ c ∈ cs, p c = true
  left : ∀ {u w}, u ≠ [] → P (u ++ w) → P u

theorem isKind_digits : IsKind IsDigits Char.isDigit where
  ne_nil h := h.ne_nil
  all h := h.digits
  left hne h := ⟨hne, fun c hc => h.digits c (List.mem_append_left _ hc)⟩

theorem isKind_word : IsKind IsWord Char.isAlphanum where
  ne_nil := by
    rintro _ ⟨⟨c, hc, _⟩, _⟩ rfl
    cases hc
  all h := h.letters
  left := by
    intro u w hne h
    obtain ⟨c, u, rfl⟩ := List.exists_cons_of_ne_nil hne
    exact ⟨h.first, fun d hd => h.letters d (List.mem_append_left _ hd)⟩

/-- A text of the kind at the end of `before` does not go on into `behind`. -/
def Ended (P : List Char → Prop) (p : Char → Bool) (before behind : List Char) : Prop :=
  ∀ u, u <:+ before → P u → ∀ c, behind.head? = some c → p c = false

namespace IsKind

variable {P : List Char → Prop} {p : Char → Bool} {before text behind : List Char} {c : Char}

theorem ended_nil (h : IsKind P p) (behind : List Char) : Ended P p [] behind := by
  intro u hu hP
  exact absurd (List.suffix_nil.mp hu) (h.ne_nil hP)

theorem ended_concat (h : IsKind P p) (hc : p c = false) (before behind : List Char) :
    Ended P p (before ++ [c]) behind := by
  intro u hu hP
  rcases List.suffix_concat_iff.mp hu with rfl | ⟨t, rfl, _⟩
  · exact absurd rfl (h.ne_nil hP)
  · have hin := h.all hP c (by simp)
    rw [hc] at hin
    cases hin

theorem longest (h : IsKind P p) (htext : P text) (hended : Ended P p before (text ++ behind))
    (hbehind : ∀ c, behind.head? = some c → p c = false) : Longest P before text behind := by
  refine ⟨htext, ?_⟩
  intro u v hu hv hP
  constructor
  · by_contra hne
    obtain ⟨c, rest, rfl⟩ := List.exists_cons_of_ne_nil (h.ne_nil htext)
    have hpu : P u := h.left hne (by simpa using hP)
    have hout := hended u hu hpu c rfl
    rw [h.all htext c (by simp)] at hout
    cases hout
  · cases v with
    | nil => rfl
    | cons d v =>
      obtain ⟨rest, rfl⟩ := hv
      have hout := hbehind d rfl
      rw [h.all hP d (by simp)] at hout
      cases hout

end IsKind

/-- Neither a run of digits nor a word goes on over the cut between the two texts. -/
structure Cutoff (before behind : List Char) : Prop where
  digits : Ended IsDigits Char.isDigit before behind
  words : Ended IsWord Char.isAlphanum before behind

theorem Blank.filter_eq_nil {cs : List Char} (h : Blank cs) :
    cs.filter (fun c => !isBlank c) = [] :=
  List.filter_eq_nil_iff.mpr fun c hc => by simp [h c hc]

theorem isDigit_of_isAlphanum {c : Char} (h : c.isAlphanum = false) : c.isDigit = false :=
  (Bool.or_eq_false_iff.mp h).2

namespace Cutoff

variable {before text behind gap : List Char} {c : Char}

theorem nil (behind : List Char) : Cutoff [] behind :=
  ⟨isKind_digits.ended_nil behind, isKind_word.ended_nil behind⟩

theorem concat (hc : c.isAlphanum = false) (before behind : List Char) :
    Cutoff (before ++ [c]) behind :=
  ⟨isKind_digits.ended_concat (isDigit_of_isAlphanum hc) before behind,
    isKind_word.ended_concat hc before behind⟩

theorem blank (h : Cutoff before (gap ++ behind)) (hgap : Blank gap) :
    Cutoff (before ++ gap) behind := by
  rcases List.eq_nil_or_concat gap with rfl | ⟨gap, c, rfl⟩
  · simpa using h
  · rw [List.concat_eq_append] at hgap ⊢
    rw [← List.append_assoc]
    exact concat (isAlphanum_of_isBlank (hgap c (by simp))) _ _

theorem of_word (hbehind : ∀ c, behind.head? = some c → c.isAlphanum = false)
    (before : List Char) : Cutoff before behind where
  digits _ _ _ c hc := isDigit_of_isAlphanum (hbehind c hc)
  words _ _ _ := hbehind

/-- A word in front of digits would have taken them. -/
theorem of_digits (h : Cutoff before (text ++ behind)) (htext : IsDigits text)
    (hbehind : ∀ c, behind.head? = some c → c.isDigit = false) :
    Cutoff (before ++ text) behind where
  digits _ _ _ := hbehind
  words := by
    intro u hu hword
    exfalso
    obtain ⟨d, ds, rfl⟩ := List.exists_cons_of_ne_nil htext.ne_nil
    have hd : d.isDigit = true := htext.digits d List.mem_cons_self
    obtain ⟨c, hc, halpha⟩ := hword.first
    obtain ⟨t, ht⟩ := hu
    rcases List.append_eq_append_iff.mp ht with ⟨u', hbefore, rfl⟩ | ⟨short, _, hshort⟩
    · by_cases hne : u' = []
      · subst hne
        cases hc
        rw [isDigit_of_isAlpha halpha] at hd
        cases hd
      · have hout := h.words u' ⟨t, hbefore.symm⟩ (isKind_word.left hne hword) d rfl
        rw [isDigit_of_isAlphanum hout] at hd
        cases hd
    · have hmem : c ∈ d :: ds := by
        rw [hshort]
        exact List.mem_append_right short (List.mem_of_mem_head? hc)
      have hdigit := htext.digits c hmem
      rw [isDigit_of_isAlpha halpha] at hdigit
      cases hdigit

end Cutoff

end Text

namespace Token

open Text

/-! ## What a lexeme stands for -/

/-- The token that `text` stands for where it is found between `before` and `behind`. -/
inductive Lexes (before text behind : List Char) : Token → Prop
  | integer {n : UInt64} : Longest IsDigits before text behind → Decimal.Numeral text n.toNat →
      Lexes before text behind (.integer n)
  | oversized {n : Nat} : Longest IsDigits before text behind → Decimal.Numeral text n →
      18446744073709551615 < n → Lexes before text behind (.unknown (String.ofList text))
  | word {w : Word} : Longest IsWord before text behind → String.ofList text = w.spelling →
      Lexes before text behind (.word w)
  | command {c : Command} : Longest IsWord before text behind → String.ofList text = c.spelling →
      Lexes before text behind (.command c)
  | ident : Longest IsWord before text behind → String.ofList text ∉ keywords →
      Lexes before text behind (.ident (String.ofList text))
  | operator {o : Operator} : text = o.symbol.toList →
      (o = .multiply → behind.head? ≠ some '*') → Lexes before text behind (.operator o)
  | leftParen : text = ['('] → Lexes before text behind .leftParen
  | rightParen : text = [')'] → Lexes before text behind .rightParen
  | stray : IsStray (String.ofList text) →
      Lexes before text behind (.unknown (String.ofList text))

section Lexes

variable {before text behind : List Char} {t : Token}

theorem lexes_ofDigits (h : Longest IsDigits before text behind) :
    Lexes before text behind (ofDigits text) := by
  have hnumeral := Decimal.numeral_value h.kind.ne_nil h.kind.digits
  unfold ofDigits
  cases hvalue : Range.unsigned? (Decimal.value text) with
  | some n =>
    rw [Range.unsigned?_eq_some_iff] at hvalue
    exact .integer h (hvalue ▸ hnumeral)
  | none =>
    unfold Range.unsigned? at hvalue
    split at hvalue
    · cases hvalue
    · rename_i hbeyond
      exact .oversized h hnumeral (by omega)

theorem lexes_ofName (h : Longest IsWord before text behind) :
    Lexes before text behind (ofName text) := by
  unfold ofName
  cases hkeyword : keyword? (String.ofList text) with
  | none => exact .ident h (keyword?_eq_none_iff.mp hkeyword)
  | some t =>
    unfold keyword? at hkeyword
    split at hkeyword
    · rename_i w hw
      cases hkeyword
      exact .word h (Word.ofSpelling?_eq_some_iff.mp hw).symm
    · obtain ⟨c, hc, rfl⟩ := Option.map_eq_some_iff.mp hkeyword
      exact .command h (Command.ofSpelling?_eq_some_iff.mp hc).symm

theorem lexes_ofSymbol {c : Char} (hblank : isBlank c = false) (hdigit : c.isDigit = false)
    (halpha : c.isAlpha = false) (hstar : c = '*' → behind.head? ≠ some '*') :
    Lexes before [c] behind (ofSymbol c) := by
  by_cases hleft : c = '('
  · subst hleft
    exact .leftParen rfl
  by_cases hright : c = ')'
  · subst hright
    exact .rightParen rfl
  rw [ofSymbol_of_ofChar? hleft hright]
  cases hoperator : Operator.ofChar? c with
  | some o =>
    have hsymbol : [c] = o.symbol.toList := by
      rw [Operator.ofChar?_eq_some_iff.mp hoperator, String.toList_singleton]
    refine .operator hsymbol ?_
    rintro rfl
    exact hstar (List.cons.inj hsymbol).1
  | none =>
    have hstray : IsStray (String.ofList [c]) :=
      ⟨c, rfl, hblank, halpha, hdigit, hoperator, hleft, hright⟩
    exact .stray hstray

/-- What is taken from the front of a text stands for its token, and the cut behind it goes through
no run of digits and no word. -/
theorem exists_lexes {c : Char} {more : List Char} (hblank : isBlank c = false)
    (hcut : Cutoff before (c :: more)) :
    ∃ text, c :: more = text ++ (lexeme c more).2 ∧
      Lexes before text (lexeme c more).2 (lexeme c more).1 ∧
      Cutoff (before ++ text) (lexeme c more).2 := by
  have hlexeme := cut_lexeme c more
  generalize (lexeme c more).1 = t at hlexeme ⊢
  generalize (lexeme c more).2 = behind at hlexeme ⊢
  cases hlexeme with
  | digits hc hdigits hbehind hmore =>
    rename_i digits
    subst hmore
    have htext : IsDigits (c :: digits) := ⟨by simp, by simpa using ⟨hc, hdigits⟩⟩
    exact ⟨c :: digits, rfl,
      lexes_ofDigits (isKind_digits.longest htext hcut.digits hbehind),
      hcut.of_digits htext hbehind⟩
  | name hc hletters hbehind hmore =>
    rename_i letters
    subst hmore
    have halphanum : c.isAlphanum = true := by simp [Char.isAlphanum, hc]
    have htext : IsWord (c :: letters) := ⟨⟨c, rfl, hc⟩, by simpa using ⟨halphanum, hletters⟩⟩
    exact ⟨c :: letters, rfl, lexes_ofName (isKind_word.longest htext hcut.words hbehind),
      .of_word hbehind _⟩
  | power hc hmore =>
    subst hc hmore
    refine ⟨['*', '*'], rfl, .operator rfl (by simp), ?_⟩
    rw [show before ++ ['*', '*'] = before ++ ['*'] ++ ['*'] by simp]
    exact .concat (by decide) _ _
  | symbol hdigit halpha hstar =>
    exact ⟨[c], rfl, lexes_ofSymbol hblank hdigit halpha hstar,
      .concat (by simp [Char.isAlphanum, hdigit, halpha]) _ _⟩

theorem Lexes.solid (h : Lexes before text behind t) :
    text ≠ [] ∧ ∀ c ∈ text, isBlank c = false := by
  have hdigits (h : Longest IsDigits before text behind) :
      text ≠ [] ∧ ∀ c ∈ text, isBlank c = false :=
    ⟨h.kind.ne_nil, fun c hc =>
      isBlank_of_isAlphanum (by simp [Char.isAlphanum, h.kind.digits c hc])⟩
  have hword (h : Longest IsWord before text behind) :
      text ≠ [] ∧ ∀ c ∈ text, isBlank c = false :=
    ⟨isKind_word.ne_nil h.kind, fun c hc => isBlank_of_isAlphanum (h.kind.letters c hc)⟩
  cases h with
  | integer h _ | oversized h _ _ => exact hdigits h
  | word h _ | command h _ | ident h _ => exact hword h
  | @operator o htext _ =>
    rw [htext]
    cases o <;> simp [Operator.symbol, isBlank]
  | leftParen htext | rightParen htext =>
    rw [htext]
    simp [isBlank]
  | stray hstray =>
    obtain ⟨c, hc, hblank, _⟩ := hstray
    have htext : text = [c] := by
      rw [← String.toList_ofList (l := text), hc, String.toList_singleton]
    subst htext
    simpa using hblank

end Lexes

/-! ## The spelling of a lexeme -/

/-- A run of digits whose first digit is a superfluous zero. -/
def Padded (cs : List Char) : Prop :=
  IsDigits cs ∧ ∃ d ds, cs = '0' :: d :: ds

theorem digitChar_sub {d : Char} (h : d.isDigit = true) :
    d.toNat - '0'.toNat < 10 ∧ (d.toNat - '0'.toNat).digitChar = d := by
  have hrange : 48 ≤ d.toNat ∧ d.toNat ≤ 57 := by
    simpa [Char.isDigit, UInt32.le_iff_toNat_le] using h
  have hlt : d.toNat - '0'.toNat < 10 := by
    have hzero : '0'.toNat = 48 := rfl
    omega
  refine ⟨hlt, ?_⟩
  apply Char.toNat_inj.mp
  rw [Nat.toNat_digitChar_of_lt_ten hlt]
  have hzero : '0'.toNat = 48 := rfl
  omega

theorem toDigits_of_numeral {cs : List Char} {n : Nat} (h : Decimal.Numeral cs n)
    (hpadded : ¬ Padded cs) : Nat.toDigits 10 n = cs := by
  induction h with
  | digit hd =>
    obtain ⟨hlt, hchar⟩ := digitChar_sub hd
    rw [Nat.toDigits_of_lt_base hlt, hchar]
  | @concat ds n d hds hd ih =>
    obtain ⟨hlt, hchar⟩ := digitChar_sub hd
    have hall := Decimal.Numeral.isDigit (.concat hds hd)
    have hdigits : Nat.toDigits 10 n = ds := by
      apply ih
      rintro ⟨_, e, es, rfl⟩
      exact hpadded ⟨⟨by simp, hall⟩, e, es ++ [d], rfl⟩
    have hpos : 0 < n := by
      apply Nat.pos_of_ne_zero
      rintro rfl
      rw [Nat.toDigits_zero] at hdigits
      subst hdigits
      exact hpadded ⟨⟨by simp, hall⟩, d, [], rfl⟩
    rw [← Nat.toDigits_append_toDigits (by decide) hpos hlt, hdigits,
      Nat.toDigits_of_lt_base hlt, hchar]

theorem Lexes.spelling_eq {before text behind : List Char} {t : Token}
    (h : Lexes before text behind t) (hpadded : ¬ Padded text) :
    t.spelling = String.ofList text := by
  cases h with
  | integer _ hnumeral =>
    rw [spelling, Decimal.ofNat, toDigits_of_numeral hnumeral hpadded]
  | oversized _ _ _ | ident _ _ | stray _ => rfl
  | word _ htext | command _ htext => exact htext.symm
  | operator htext _ => rw [htext, String.ofList_toList, spelling]
  | leftParen htext | rightParen htext =>
    rw [htext]
    rfl

/-! ## All lexemes of a text -/

/-- A lexeme with the blanks in front of it and the token it stands for. -/
structure Piece where
  gap : List Char
  text : List Char
  token : Token

/-- Behind `before`, the text falls into the pieces and the rest. -/
inductive Parts : List Char → List Char → List Piece → List Char → Prop
  | nil {before rest : List Char} : Parts before rest [] rest
  | cons {before gap text behind rest : List Char} {t : Token} {pieces : List Piece} :
      Blank gap → Lexes (before ++ gap) text behind t →
      Parts (before ++ gap ++ text) behind pieces rest →
      Parts before (gap ++ text ++ behind) (⟨gap, text, t⟩ :: pieces) rest

/-- What the rest of a text is, and what tokens it gives, behind the lexemes of the tokens: blanks,
or the text of a remark behind the first and only word `REM`. -/
inductive Closes (rest : List Char) : List Token → List Token → Prop
  | blank {ts : List Token} : .word .REM ∉ ts → Blank rest → Closes rest ts []
  | bare {ts : List Token} : .word .REM ∉ ts → trim rest = [] →
      Closes rest (ts ++ [.word .REM]) []
  | remark {ts : List Token} : .word .REM ∉ ts → trim rest ≠ [] →
      Closes rest (ts ++ [.word .REM]) [.remark (String.ofList (trim rest))]

theorem closes_ofRemark (rest : List Char) : Closes rest [.word .REM] (ofRemark rest) := by
  have hts : Token.word .REM ∉ ([] : List Token) := List.not_mem_nil
  unfold ofRemark
  split
  · rename_i htrim
    exact .bare hts htrim
  · rename_i htrim
    exact .remark hts htrim

namespace Closes

variable {rest : List Char} {t : Token} {ts tail : List Token}

theorem cons (h : Closes rest ts tail) (ht : t ≠ .word .REM) : Closes rest (t :: ts) tail := by
  have hnot {ts : List Token} (hts : .word .REM ∉ ts) : .word .REM ∉ t :: ts := by
    simpa [hts] using ht.symm
  cases h with
  | blank hts hrest => exact .blank (hnot hts) hrest
  | bare hts htrim => exact .bare (hnot hts) htrim
  | remark hts htrim => exact .remark (hnot hts) htrim

theorem blank_of_no_rem (h : Closes rest ts tail) (hrem : .word .REM ∉ ts) :
    Blank rest ∧ tail = [] := by
  cases h with
  | blank _ hrest => exact ⟨hrest, rfl⟩
  | bare _ _ | remark _ _ => simp at hrem

end Closes

/-- A blank in front of a text belongs to the first lexeme, or to the rest if there is none. -/
theorem Parts.blank_cons {before cs rest : List Char} {pieces : List Piece} {tail : List Token}
    {c : Char} (hc : isBlank c = true) (h : Parts (before ++ [c]) cs pieces rest)
    (hcloses : Closes rest (pieces.map Piece.token) tail) :
    ∃ pieces' rest', Parts before (c :: cs) pieces' rest' ∧
      Closes rest' (pieces'.map Piece.token) tail ∧
      pieces'.map Piece.token = pieces.map Piece.token := by
  cases h with
  | nil =>
    obtain ⟨hrest, rfl⟩ := hcloses.blank_of_no_rem (by simp)
    exact ⟨[], c :: cs, .nil, .blank (by simp) (blank_cons_iff.mpr ⟨hc, hrest⟩), rfl⟩
  | @cons _ gap text behind _ t pieces hgap hlexes hparts =>
    have hassoc : before ++ [c] ++ gap = before ++ c :: gap := by simp
    rw [hassoc] at hlexes hparts
    exact ⟨⟨c :: gap, text, t⟩ :: pieces, rest,
      .cons (blank_cons_iff.mpr ⟨hc, hgap⟩) hlexes hparts, hcloses, rfl⟩

theorem Parts.lexeme_cons {before text behind rest : List Char} {t : Token} {pieces : List Piece}
    (hlexes : Lexes before text behind t) (h : Parts (before ++ text) behind pieces rest) :
    Parts before (text ++ behind) (⟨[], text, t⟩ :: pieces) rest := by
  have hbefore : before = before ++ [] := (List.append_nil before).symm
  rw [hbefore] at hlexes h
  exact .cons blank_nil hlexes h

theorem exists_parts (cs : List Char) : ∀ before, Cutoff before cs →
    ∃ pieces rest tail, Parts before cs pieces rest ∧
      Closes rest (pieces.map Piece.token) tail ∧
      scanChars cs = pieces.map Piece.token ++ tail ++ [.endOfLine] := by
  fun_induction scanChars cs with
  | case1 =>
    intro before _
    exact ⟨[], [], [], .nil, .blank (by simp) blank_nil, rfl⟩
  | case2 c cs hc ih =>
    intro before hcut
    have hgap : Blank [c] := blank_cons_iff.mpr ⟨hc, blank_nil⟩
    obtain ⟨pieces, rest, tail, hparts, hcloses, hscan⟩ := ih _ (Cutoff.blank hcut hgap)
    obtain ⟨pieces', rest', hparts', hcloses', htokens⟩ := hparts.blank_cons hc hcloses
    exact ⟨pieces', rest', tail, hparts', hcloses', htokens.symm ▸ hscan⟩
  | case3 c cs hc found hrem =>
    intro before hcut
    obtain ⟨text, htext, hlexes, _⟩ := exists_lexes (by simpa using hc) hcut
    rw [htext]
    exact ⟨[⟨[], text, found.1⟩], found.2, ofRemark found.2, .lexeme_cons hlexes .nil,
      hrem ▸ closes_ofRemark found.2, hrem ▸ rfl⟩
  | case4 c cs hc found hrem ih =>
    intro before hcut
    obtain ⟨text, htext, hlexes, hcut'⟩ := exists_lexes (by simpa using hc) hcut
    obtain ⟨pieces, rest, tail, hparts, hcloses, hscan⟩ := ih _ hcut'
    rw [htext, hscan]
    exact ⟨⟨[], text, found.1⟩ :: pieces, rest, tail, .lexeme_cons hlexes hparts,
      hcloses.cons hrem, rfl⟩

namespace Parts

variable {before cs rest : List Char} {pieces : List Piece}

theorem text_eq (h : Parts before cs pieces rest) :
    cs = pieces.flatMap (fun piece => piece.gap ++ piece.text) ++ rest := by
  induction h with
  | nil => rfl
  | cons _ _ _ ih => simp [← ih]

theorem text_ne_nil (h : Parts before cs pieces rest) : ∀ piece ∈ pieces, piece.text ≠ [] := by
  induction h with
  | nil => simp
  | cons _ hlexes _ ih => exact List.forall_mem_cons.mpr ⟨hlexes.solid.1, ih⟩

theorem remark_not_mem (h : Parts before cs pieces rest) (text : String) :
    .remark text ∉ pieces.map Piece.token := by
  induction h with
  | nil => simp
  | cons _ hlexes _ ih =>
    rw [List.map_cons, List.mem_cons, not_or]
    constructor
    · rintro rfl
      cases hlexes
    · exact ih

theorem filter_eq (h : Parts before cs pieces rest)
    (hpadded : ∀ piece ∈ pieces, ¬ Padded piece.text) :
    cs.filter (fun c => !isBlank c) =
      (String.join ((pieces.map Piece.token).map spelling)).toList ++
        rest.filter (fun c => !isBlank c) := by
  induction h with
  | nil => simp
  | @cons _ gap text _ _ _ _ hgap hlexes _ ih =>
    obtain ⟨htext, hpadded⟩ := List.forall_mem_cons.mp hpadded
    have hsolid : text.filter (fun c => !isBlank c) = text :=
      List.filter_eq_self.mpr fun c hc => by simp [hlexes.solid.2 c hc]
    rw [List.filter_append, List.filter_append, hgap.filter_eq_nil, hsolid, ih hpadded]
    simp [hlexes.spelling_eq htext]

end Parts

/-- Every text falls into lexemes with blanks between them, each of which stands for its token, and
a rest that is blank or belongs to a remark. Where there is no remark and no superfluous zero, the
spellings of the tokens are the text without its blanks. -/
theorem scan_accounts_for_text (s : String) :
    ∃ pieces rest tail, Parts [] s.toList pieces rest ∧
      s.toList = pieces.flatMap (fun piece => piece.gap ++ piece.text) ++ rest ∧
      (∀ piece ∈ pieces, piece.text ≠ []) ∧ Closes rest (pieces.map Piece.token) tail ∧
      scan s = pieces.map Piece.token ++ tail ++ [.endOfLine] ∧
      (.word .REM ∉ scan s → (∀ piece ∈ pieces, ¬ Padded piece.text) →
        String.join ((scan s).map spelling) =
          String.ofList (s.toList.filter fun c => !isBlank c)) := by
  obtain ⟨pieces, rest, tail, hparts, hcloses, hscan⟩ :=
    exists_parts s.toList [] (.nil s.toList)
  refine ⟨pieces, rest, tail, hparts, hparts.text_eq, hparts.text_ne_nil, hcloses, hscan, ?_⟩
  intro hrem hpadded
  rw [scan, hscan] at hrem
  obtain ⟨hblank, rfl⟩ := hcloses.blank_of_no_rem (by simp_all)
  have hend : spelling .endOfLine = "" := rfl
  rw [hparts.filter_eq hpadded, hblank.filter_eq_nil, List.append_nil, String.ofList_toList, scan,
    hscan]
  simp [hend]

/-- A number that runs into a word, three stars in a row, and a name that ends with a digit. -/
theorem scan_accounts_for_text_of_line :
    .word .REM ∉ scan "12PRINT ***\tx1" ∧
    (∃ pieces rest, Parts [] "12PRINT ***\tx1".toList pieces rest ∧
      (∀ piece ∈ pieces, ¬ Padded piece.text) ∧
      pieces.map Piece.token = [.integer 12, .word .PRINT, .operator .power, .operator .multiply,
        .ident "x1"]) ∧
    String.join ((scan "12PRINT ***\tx1").map spelling) = "12PRINT***x1" := by
  have htokens : scan "12PRINT ***\tx1" = [.integer 12, .word .PRINT, .operator .power,
      .operator .multiply, .ident "x1", .endOfLine] := by cbv
  have hrem : .word .REM ∉ scan "12PRINT ***\tx1" := by
    rw [htokens]
    decide
  obtain ⟨pieces, rest, tail, hparts, htext, _, hcloses, hscan, hjoin⟩ :=
    scan_accounts_for_text "12PRINT ***\tx1"
  have hpadded : ∀ piece ∈ pieces, ¬ Padded piece.text := by
    rintro piece hpiece ⟨_, d, ds, hzero⟩
    have hmem : '0' ∈ "12PRINT ***\tx1".toList := by
      rw [htext]
      apply List.mem_append_left
      exact List.mem_flatMap.mpr ⟨piece, hpiece, by simp [hzero]⟩
    exact absurd hmem (by decide)
  obtain ⟨_, rfl⟩ := hcloses.blank_of_no_rem fun hmem => hrem (by simp [hscan, hmem])
  rw [htokens, List.append_nil] at hscan
  exact ⟨hrem, ⟨pieces, rest, hparts, hpadded, ((List.append_left_inj _).mp hscan).symm⟩,
    (hjoin hrem hpadded).trans (by decide)⟩

end Token

end LineBasic
