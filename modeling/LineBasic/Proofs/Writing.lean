import LineBasic.Program
import LineBasic.Proofs.Lexical
import LineBasic.Proofs.Recognition.Line

/-!
# Writing statements

Every statement has a text that is read as just this statement. Its parts stand with single spaces
between them, and every operand stands in parentheses, so that no precedence is needed to read it
back. Each piece of the text spells tokens in front of any text that begins neither with a letter or
digit nor with a star; the pieces are put together by rules for this relation, and along with them
the derivation that the grammar has for the tokens.
-/
namespace LineBasic

open Grammar Text

/-! ## The text of a statement -/

def spaced (pieces : List String) : String :=
  " ".intercalate pieces

/-- The text in parentheses, with `pad` on both sides of it. -/
def enclosed (pad text : String) : String :=
  "(" ++ pad ++ text ++ pad ++ ")"

def Expr.write (pad : String) : Expr → String
  | var name => name
  | integer n => Decimal.ofNat n.toNat
  | negation operand => spaced ["-", enclosed pad (operand.write pad)]
  | identity operand => spaced ["+", enclosed pad (operand.write pad)]
  | binary o left right =>
    spaced [enclosed pad (left.write pad), o.symbol, enclosed pad (right.write pad)]

def Statement.write (pad : String) : Statement → String
  | remark text => spaced (if text = "" then ["REM"] else ["REM", text])
  | assign name e => spaced ["LET", name, "=", e.write pad]
  | print e => spaced ["PRINT", e.write pad]
  | input name => spaced ["INPUT", name]
  | goto target => spaced ["GOTO", Decimal.ofNat target.toNat]
  | branch condition target =>
    spaced ["IF", condition.write pad, "THEN", Decimal.ofNat target.toNat]
  | stop => "END"

def Line.write (pad : String) (number : LineNumber) (statement : Statement) : String :=
  spaced [Decimal.ofNat number.toNat, statement.write pad]

def Expr.Writable (e : Expr) : Prop :=
  ∀ name ∈ e.names, IsName name

/-- All variables of the statement have names, and a remark has no white space at its ends. -/
def Statement.Writable : Statement → Prop
  | remark text => trim text.toList = text.toList
  | assign name e => IsName name ∧ e.Writable
  | print e => e.Writable
  | input name => IsName name
  | branch condition _ => condition.Writable
  | goto _ => True
  | stop => True

/-! ## Pieces of text and their tokens -/

/-- The text cannot lengthen any token in front of it. -/
def Boundary (rest : List Char) : Prop :=
  ∀ c, rest.head? = some c → c.isAlphanum = false ∧ c ≠ '*'

theorem Boundary.nil : Boundary [] := by
  simp [Boundary]

theorem Boundary.cons {c : Char} (halphanum : c.isAlphanum = false) (hstar : c ≠ '*')
    (rest : List Char) : Boundary (c :: rest) := by
  intro d hd
  cases hd
  exact ⟨halphanum, hstar⟩

theorem Boundary.blank_append {ws rest : List Char} (hws : Blank ws) (h : Boundary rest) :
    Boundary (ws ++ rest) := by
  cases ws with
  | nil => exact h
  | cons c ws =>
    have hc := (blank_cons_iff.mp hws).1
    refine .cons (isAlphanum_of_isBlank hc) ?_ _
    rintro rfl
    cases hc

theorem Boundary.endsBefore {rest : List Char} (h : Boundary rest) (t : Token) :
    t.EndsBefore rest := by
  intro c hc
  obtain ⟨halphanum, hstar⟩ := h c hc
  exact t.takes_eq_false halphanum hstar

/-- In front of whatever cannot lengthen it, the text scans to the tokens. -/
def Spells (text : String) (ts : List Token) : Prop :=
  ∀ rest, Boundary rest → Token.scanChars (text.toList ++ rest) = ts ++ Token.scanChars rest

namespace Spells

variable {text : String} {ts : List Token}

theorem token {t : Token} (h : t.IsLexeme) (hrem : t ≠ .word .REM) : Spells t.spelling [t] := by
  intro rest hrest
  exact Token.scanChars_of_found (Token.found_spelling h (hrest.endsBefore t)) hrem

theorem scanChars_space (h : Spells text ts) (cs : List Char) :
    Token.scanChars (text.toList ++ ' ' :: cs) = ts ++ Token.scanChars cs := by
  have hspace : Token.scanChars (' ' :: cs) = Token.scanChars cs := by
    rw [Token.scanChars, if_pos (by decide)]
  rw [h _ (.cons (by decide) (by decide) cs), hspace]

theorem scanChars_eq (h : Spells text ts) : Token.scanChars text.toList = ts ++ [.endOfLine] := by
  simpa [Token.scanChars] using h [] .nil

theorem spaced {piece : String} {pieces : List String} {tss : List (List Token)}
    (h : List.Forall₂ Spells (piece :: pieces) tss) (hts : tss.flatten = ts) :
    Spells (spaced (piece :: pieces)) ts := by
  subst hts
  unfold LineBasic.spaced
  induction pieces generalizing piece tss with
  | nil =>
    cases h with
    | cons hpiece hpieces =>
      cases hpieces
      simpa using hpiece
  | cons next others ih =>
    cases h with
    | @cons _ us _ uss hpiece hpieces =>
      intro rest hrest
      have htext : (" ".intercalate (piece :: next :: others)).toList ++ rest =
          piece.toList ++ ' ' :: ((" ".intercalate (next :: others)).toList ++ rest) := by
        rw [String.intercalate_cons_cons]
        simp
      rw [htext, hpiece.scanChars_space, ih hpieces rest hrest]
      exact (List.append_assoc us _ _).symm

theorem enclosed {pad : String} (hpad : Blank pad.toList) (h : Spells text ts) :
    Spells (enclosed pad text) (.leftParen :: ts ++ [.rightParen]) := by
  intro rest _
  have hleft : Token.Found ('(' :: (pad.toList ++ (text.toList ++ (pad.toList ++ ')' :: rest))))
      .leftParen _ := ⟨'(', _, rfl, by decide, rfl⟩
  have hright : Token.Found (')' :: rest) .rightParen rest := ⟨')', rest, rfl, by decide, rfl⟩
  have hbehind : Boundary (pad.toList ++ ')' :: rest) :=
    .blank_append hpad (.cons (by decide) (by decide) rest)
  have htext : (LineBasic.enclosed pad text).toList ++ rest =
      '(' :: (pad.toList ++ (text.toList ++ (pad.toList ++ ')' :: rest))) := by
    simp [LineBasic.enclosed]
  rw [htext, Token.scanChars_of_found hleft (by simp), Token.scanChars_blank_append hpad,
    h _ hbehind, Token.scanChars_blank_append hpad, Token.scanChars_of_found hright (by simp)]
  simp

end Spells

theorem spells_name {name : String} (h : IsName name) : Spells name [.ident name] :=
  Spells.token (t := .ident name) h (by simp)

theorem spells_number (n : UInt64) : Spells (Decimal.ofNat n.toNat) [.integer n] :=
  Spells.token (t := .integer n) trivial (by simp)

theorem spells_word (w : Word) (h : w ≠ .REM) : Spells w.spelling [.word w] :=
  Spells.token (t := .word w) trivial (by simp [h])

theorem spells_operator (o : Operator) : Spells o.symbol [.operator o] :=
  Spells.token (t := .operator o) trivial (by simp)

theorem scanChars_rem {rest : List Char} (h : Boundary rest) :
    Token.scanChars ("REM".toList ++ rest) =
      .word .REM :: (Token.ofRemark rest ++ [.endOfLine]) := by
  have hlexeme : (Token.word .REM).IsLexeme := trivial
  exact Token.scanChars_of_found_rem (Token.found_spelling hlexeme (h.endsBefore _))

/-! ## What the grammar derives -/

namespace Grammar

variable {p : List Token} {e : Expr}

theorem Derives.of_unary (h : Derives .unary p e) : Derives .comparison p e :=
  .ofAdditive (.ofMultiplicative (.ofUnary h))

theorem Derives.unary_of_primary (h : Derives .primary p e) : Derives .unary p e :=
  .ofPower (.ofPrimary h)

theorem Derives.binary {q : List Token} {a b : Expr} (o : Operator) (ha : Derives .primary p a)
    (hb : Derives .primary q b) : Derives .comparison (p ++ .operator o :: q) (.binary o a b) := by
  have ha' : Derives .multiplicative p a := .ofUnary ha.unary_of_primary
  have hb' : Derives .multiplicative q b := .ofUnary hb.unary_of_primary
  cases o with
  | equal | less | greater =>
    exact .compare (by decide) (.ofMultiplicative ha') (.ofMultiplicative hb')
  | add | subtract => exact .ofAdditive (.add (by decide) (.ofMultiplicative ha') hb')
  | multiply | divide =>
    exact .ofAdditive (.ofMultiplicative (.multiply (by decide) ha' hb.unary_of_primary))
  | power => exact .of_unary (.ofPower (.raise ha hb.unary_of_primary))

theorem Derives.known {c : Category} (h : Derives c p e) (text : String) : .unknown text ∉ p := by
  induction h with
  | ofAdditive _ ih | ofMultiplicative _ ih | ofUnary _ ih | ofPower _ ih | ofPrimary _ ih =>
    exact ih
  | compare _ _ _ ihp ihq | add _ _ _ ihp ihq | multiply _ _ _ ihp ihq | raise _ _ ihp ihq =>
    simp [ihp, ihq]
  | minus _ ih | plus _ ih | parenthesized _ ih => simp [ih]
  | ident _ | integer _ => simp

theorem Sentence.known {st : Statement} (h : Sentence p st) (text : String) :
    .unknown text ∉ p := by
  cases h with
  | assign _ he | print he | branch _ he => simp [he.known text]
  | emptyRemark | remark _ | input _ | goto _ | stop => simp

end Grammar

/-- The text spells tokens of which the grammar derives the expression. -/
def Denotes (c : Category) (text : String) (e : Expr) : Prop :=
  ∃ ts, Spells text ts ∧ Derives c ts e

namespace Denotes

variable {text : String} {e : Expr}

theorem enclosed {pad : String} (hpad : Blank pad.toList) (h : Denotes .comparison text e) :
    Denotes .primary (enclosed pad text) e := by
  obtain ⟨ts, hspells, hderives⟩ := h
  exact ⟨_, hspells.enclosed hpad, .parenthesized hderives⟩

theorem comparison (h : Denotes .primary text e) : Denotes .comparison text e := by
  obtain ⟨ts, hspells, hderives⟩ := h
  exact ⟨ts, hspells, .of_unary hderives.unary_of_primary⟩

theorem negation (h : Denotes .primary text e) :
    Denotes .comparison (spaced ["-", text]) (.negation e) := by
  obtain ⟨ts, hspells, hderives⟩ := h
  exact ⟨_, .spaced (.cons (spells_operator .subtract) (.cons hspells .nil)) (by simp),
    .of_unary (.minus hderives.unary_of_primary)⟩

theorem identity (h : Denotes .primary text e) :
    Denotes .comparison (spaced ["+", text]) (.identity e) := by
  obtain ⟨ts, hspells, hderives⟩ := h
  exact ⟨_, .spaced (.cons (spells_operator .add) (.cons hspells .nil)) (by simp),
    .of_unary (.plus hderives.unary_of_primary)⟩

theorem binary {right : String} {b : Expr} (o : Operator) (h : Denotes .primary text e)
    (hright : Denotes .primary right b) :
    Denotes .comparison (spaced [text, o.symbol, right]) (.binary o e b) := by
  obtain ⟨ts, hspells, hderives⟩ := h
  obtain ⟨us, hspells', hderives'⟩ := hright
  exact ⟨_, .spaced (.cons hspells (.cons (spells_operator o) (.cons hspells' .nil))) (by simp),
    hderives.binary o hderives'⟩

end Denotes

/-! ## Reading back -/

theorem Line.ofText_of_scan {s : String} {n : LineNumber} {ts : List Token} {st : Statement}
    (hsentence : Sentence ts st) (hscan : Token.scan s = .integer n :: ts ++ [.endOfLine]) :
    ofText s = .numbered n st := by
  have hknown : ∀ text, .unknown text ∉ .integer n :: ts ++ [.endOfLine] := by
    intro text
    simp [hsentence.known text]
  rw [ofText, scan_source, hscan, ofTokens_of_known hknown]
  exact ofKnownTokens_of_written (.numbered n [] hsentence)

section Reading

variable {pad : String} (hpad : Blank pad.toList)
include hpad

theorem Expr.denotes_write (e : Expr) (h : e.Writable) : Denotes .comparison (e.write pad) e := by
  induction e with
  | var name => exact Denotes.comparison ⟨_, spells_name (h name (by simp [names])), .ident name⟩
  | integer n => exact Denotes.comparison ⟨_, spells_number n, .integer n⟩
  | negation operand ih => exact ((ih h).enclosed hpad).negation
  | identity operand ih => exact ((ih h).enclosed hpad).identity
  | binary o left right ihleft ihright =>
    have hleft : left.Writable := fun name hname => h name (List.mem_append_left _ hname)
    have hright : right.Writable := fun name hname => h name (List.mem_append_right _ hname)
    exact ((ihleft hleft).enclosed hpad).binary o ((ihright hright).enclosed hpad)

omit hpad in
/-- The text of a remark is taken up to the end of the line, and not as tokens. -/
theorem Statement.scanChars_write_remark {text : String} (h : trim text.toList = text.toList) :
    ∃ ts, Sentence ts (.remark text) ∧
      Token.scanChars ((remark text).write pad).toList = ts ++ [.endOfLine] := by
  by_cases hempty : text = ""
  · subst hempty
    refine ⟨_, .emptyRemark, ?_⟩
    have htext : ((remark "").write pad).toList = "REM".toList ++ [] := by
      simp [write, spaced]
    rw [htext, scanChars_rem .nil, Token.ofRemark_of_blank blank_nil]
    rfl
  · refine ⟨_, .remark text, ?_⟩
    have htext : ((remark text).write pad).toList = "REM".toList ++ ' ' :: text.toList := by
      simp [write, spaced, hempty]
    have hremark : Token.ofRemark (' ' :: text.toList) = [.remark text] := by
      simpa using Token.ofRemark_of_isRemark ⟨hempty, h⟩ (by decide : Blank [' ']) blank_nil
    rw [htext, scanChars_rem (.cons (by decide) (by decide) _), hremark]
    rfl

theorem Statement.scanChars_write {st : Statement} (h : st.Writable) :
    ∃ ts, Sentence ts st ∧ Token.scanChars (st.write pad).toList = ts ++ [.endOfLine] := by
  cases st with
  | remark text => exact scanChars_write_remark h
  | assign name e =>
    obtain ⟨ts, hspells, hderives⟩ := e.denotes_write hpad h.2
    exact ⟨_, .assign name hderives, Spells.scanChars_eq (.spaced
      (.cons (spells_word .LET (by decide)) (.cons (spells_name h.1)
        (.cons (spells_operator .equal) (.cons hspells .nil)))) (by simp))⟩
  | print e =>
    obtain ⟨ts, hspells, hderives⟩ := e.denotes_write hpad h
    exact ⟨_, .print hderives, Spells.scanChars_eq (.spaced
      (.cons (spells_word .PRINT (by decide)) (.cons hspells .nil)) (by simp))⟩
  | input name =>
    exact ⟨_, .input name, Spells.scanChars_eq (.spaced
      (.cons (spells_word .INPUT (by decide)) (.cons (spells_name h) .nil)) (by simp))⟩
  | goto target =>
    exact ⟨_, .goto target, Spells.scanChars_eq (.spaced
      (.cons (spells_word .GOTO (by decide)) (.cons (spells_number target) .nil)) (by simp))⟩
  | branch condition target =>
    obtain ⟨ts, hspells, hderives⟩ := condition.denotes_write hpad h
    exact ⟨_, .branch target hderives, Spells.scanChars_eq (.spaced
      (.cons (spells_word .IF (by decide)) (.cons hspells
        (.cons (spells_word .THEN (by decide)) (.cons (spells_number target) .nil)))) (by simp))⟩
  | stop => exact ⟨_, .stop, (spells_word .END (by decide)).scanChars_eq⟩

theorem Line.scan_write (n : LineNumber) {st : Statement} (h : st.Writable) :
    ∃ ts, Sentence ts st ∧ Token.scan (write pad n st) = .integer n :: ts ++ [.endOfLine] := by
  obtain ⟨ts, hsentence, hscan⟩ := st.scanChars_write hpad h
  refine ⟨ts, hsentence, ?_⟩
  have htext : (write pad n st).toList =
      (Decimal.ofNat n.toNat).toList ++ ' ' :: (st.write pad).toList := by
    simp [write, spaced]
  rw [Token.scan, htext, (spells_number n).scanChars_space, hscan]
  rfl

theorem Line.ofText_eq_numbered (n : LineNumber) {st : Statement} (h : st.Writable) :
    ofText (write pad n st) = .numbered n st := by
  obtain ⟨ts, hsentence, hscan⟩ := scan_write hpad n h
  exact ofText_of_scan hsentence hscan

end Reading

/-- A statement written under a number is read back unchanged, whatever blanks pad the inside of its
parentheses, and entering the text stores it in any program. -/
theorem Program.enter_write (pad : String) (hpad : Blank pad.toList) (n : LineNumber)
    (st : Statement) (h : st.Writable) :
    Line.ofText (Line.write pad n st) = .numbered n st ∧
      ∀ p : Program, (p.enter (Line.write pad n st)).1 = .updated n ∧
        (p.enter (Line.write pad n st)).2.statement? n = some st := by
  have hread := Line.ofText_eq_numbered hpad n h
  refine ⟨hread, fun p => ?_⟩
  rw [enter, hread]
  simp [statement?, get?_insert]

/-- A name that begins with a word, the largest number, and a comparison under a power. -/
theorem Program.enter_write_extremes :
    let st : Statement := .assign "THEN1" (.binary .power
      (.negation (.integer 18446744073709551615))
      (.binary .less (.var "rem") (.identity (.integer 0))))
    let text := "18446744073709551615 LET THEN1 = (- (18446744073709551615)) ** ((rem) < (+ (0)))"
    Line.ofText text = .numbered 18446744073709551615 st ∧
      (empty.enter text).2.statement? 18446744073709551615 = some st := by
  intro st text
  have hthen : IsName "THEN1" :=
    ⟨⟨'T', "HEN1".toList, rfl, by decide, List.all_eq_true.mp (by decide)⟩, by decide⟩
  have hrem : IsName "rem" :=
    ⟨⟨'r', "em".toList, rfl, by decide, List.all_eq_true.mp (by decide)⟩, by decide⟩
  have hwritable : st.Writable := ⟨hthen, by simp [Expr.Writable, Expr.names, hrem]⟩
  have htext : Line.write "" 18446744073709551615 st = text := by cbv
  obtain ⟨hread, henter⟩ := enter_write "" blank_nil 18446744073709551615 st hwritable
  rw [htext] at hread henter
  exact ⟨hread, (henter empty).2⟩

end LineBasic
