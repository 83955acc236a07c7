import Mathlib
import LineBasic.Proofs.Forests
import LineBasic.Proofs.Lexemes
import LineBasic.Proofs.Reloading
import LineBasic.Proofs.Writing

/-!
# Outlines determine trees

Two lines with one outline are one line. An outline gives back the forest that it shows; in the
forest of a line signs are told from operators by the number of nodes below them, and names from
numbers by their first character. Two texts are free, that of a remark and that of an error, and
even if they look like rows they are told: each is all that stands behind a row that nothing else
begins with. In a program other lines follow, so there a remark must not hold a line feed.
-/
namespace LineBasic

namespace Text

theorem trim_isPrefix (cs : List Char) : trim cs <+: cs.dropWhile isSpace :=
  List.rdropWhile_prefix _ _

theorem trim_subset (cs : List Char) : trim cs ⊆ cs :=
  List.Subset.trans (trim_isPrefix cs).subset (List.dropWhile_sublist isSpace).subset

theorem head_ne_tab_of_trim_eq {cs : List Char} (h : trim cs = cs) : cs.head? ≠ some '\t' := by
  intro hhead
  obtain ⟨rest, rfl⟩ := List.head?_eq_some_iff.mp hhead
  have htrim := trim_isPrefix ('\t' :: rest)
  rw [h, List.dropWhile_cons_of_pos (by decide)] at htrim
  have hdrop := (List.dropWhile_sublist (l := rest) isSpace).length_le
  have hshort := htrim.length_le
  rw [List.length_cons] at hshort
  omega

end Text

open Grammar Text

/-! ## The forests of expressions -/

theorem Decimal.ofNat_inj {m n : UInt64} (h : ofNat m.toNat = ofNat n.toNat) : m = n := by
  have hdigits : Nat.toDigits 10 m.toNat = Nat.toDigits 10 n.toNat := String.ofList_inj.mp h
  have hvalue := congrArg value hdigits
  rw [value_toDigits, value_toDigits] at hvalue
  exact UInt64.toNat_inj.mp hvalue

theorem Decimal.ofNat_ne_of_isWordLike {s : String} (h : IsWordLike s) (n : Nat) :
    ofNat n ≠ s := by
  rintro rfl
  obtain ⟨c, cs, hcs, hc, _⟩ := h
  rw [ofNat, String.toList_ofList] at hcs
  have hdigit := Nat.isDigit_of_mem_toDigits (by decide) (by decide) (hcs ▸ List.mem_cons_self)
  rw [isDigit_of_isAlpha hc] at hdigit
  cases hdigit

theorem isPlain_of_alphanum {text : String} (h : ∀ c ∈ text.toList, c.isAlphanum = true) :
    IsPlain text where
  no_lf hmem := absurd (h _ hmem) (by decide)
  no_tab hhead := absurd (h _ (List.mem_of_mem_head? hhead)) (by decide)

theorem isPlain_ofNat (n : Nat) : IsPlain (Decimal.ofNat n) := by
  apply isPlain_of_alphanum
  intro c hc
  rw [Decimal.ofNat, String.toList_ofList] at hc
  have hdigit := Nat.isDigit_of_mem_toDigits (by decide) (by decide) hc
  simp [Char.isAlphanum, hdigit]

theorem IsName.isPlain {name : String} (h : IsName name) : IsPlain name := by
  obtain ⟨c, cs, hname, hc, hcs⟩ := h.shape
  apply isPlain_of_alphanum
  rw [hname]
  exact List.forall_mem_cons.mpr ⟨by simp [Char.isAlphanum, hc], hcs⟩

theorem Operator.symbol_inj {o o' : Operator} (h : o.symbol = o'.symbol) : o = o' := by
  cases o <;> cases o' <;> simp_all [symbol]

theorem Word.isPlain_spelling (w : Word) : IsPlain w.spelling := by
  cases w <;> decide

theorem Command.isPlain_spelling (c : Command) : IsPlain c.spelling := by
  cases c <;> decide

theorem Word.spelling_inj {w w' : Word} (h : w.spelling = w'.spelling) : w = w' := by
  have hw : ofSpelling? w'.spelling = some w := ofSpelling?_eq_some_iff.mpr h
  have hw' : ofSpelling? w'.spelling = some w' := ofSpelling?_eq_some_iff.mpr rfl
  exact Option.some.inj (hw.symm.trans hw')

theorem Command.spelling_inj {c c' : Command} (h : c.spelling = c'.spelling) : c = c' := by
  have hc : ofSpelling? c'.spelling = some c := ofSpelling?_eq_some_iff.mpr h
  have hc' : ofSpelling? c'.spelling = some c' := ofSpelling?_eq_some_iff.mpr rfl
  exact Option.some.inj (hc.symm.trans hc')

namespace Expr

def forest : Expr → Forest
  | var name => .leaf name
  | integer n => .leaf (Decimal.ofNat n.toNat)
  | negation operand => .node "-" operand.forest .nil
  | identity operand => .node "+" operand.forest .nil
  | binary o left right => .node o.symbol (left.forest.append right.forest) .nil

theorem outline_forest (e : Expr) : e.forest.outline = e.outline := by
  induction e with
  | var name | integer n => rfl
  | negation operand ih | identity operand ih => simp [forest, Forest.outline, outline, ih]
  | binary o left right ihl ihr => simp [forest, Forest.outline, outline, ihl, ihr]

theorem isPlain_forest {e : Expr} (h : e.Writable) : ∀ text ∈ e.forest.texts, IsPlain text := by
  induction e with
  | var name => simpa [forest, Forest.leaf, Forest.texts] using (h name (by simp [names])).isPlain
  | integer n => simpa [forest, Forest.leaf, Forest.texts] using isPlain_ofNat n.toNat
  | negation operand ih | identity operand ih =>
    have hsign : IsPlain "-" ∧ IsPlain "+" := by decide
    simpa [forest, Forest.texts, hsign] using ih h
  | binary o left right ihl ihr =>
    have hsymbol : IsPlain o.symbol := by cases o <;> decide
    have hl := ihl fun name hname => h name (List.mem_append_left _ hname)
    have hr := ihr fun name hname => h name (List.mem_append_right _ hname)
    intro text htext
    simp only [forest, Forest.texts, Forest.texts_append, List.append_nil, List.mem_cons,
      List.mem_append] at htext
    rcases htext with rfl | htext | htext
    · exact hsymbol
    · exact hl text htext
    · exact hr text htext

def label : Expr → String
  | var name => name
  | integer n => Decimal.ofNat n.toNat
  | negation _ => "-"
  | identity _ => "+"
  | binary o _ _ => o.symbol

def operands : Expr → List Expr
  | var _ => []
  | integer _ => []
  | negation operand => [operand]
  | identity operand => [operand]
  | binary _ left right => [left, right]

def forests (es : List Expr) : Forest :=
  es.foldr (fun e f => e.forest.append f) .nil

theorem forests_cons (e : Expr) (es : List Expr) :
    forests (e :: es) = .node e.label (forests e.operands) (forests es) := by
  cases e <;> simp [forest, label, operands, forests, Forest.leaf, Forest.append]

theorem Writable.operands {e : Expr} (h : e.Writable) :
    ∀ operand ∈ e.operands, operand.Writable := by
  cases e with
  | var name | integer n => simp [Expr.operands]
  | negation operand | identity operand => exact List.forall_mem_singleton.mpr h
  | binary o left right => simpa [Expr.operands, Writable, names, or_imp, forall_and] using h

/-- Signs and operators have operands in different numbers, and a name is no number. -/
theorem eq_of_label_operands {e e' : Expr} (he : e.Writable) (he' : e'.Writable)
    (hlabel : e.label = e'.label) (hoperands : e.operands = e'.operands) : e = e' := by
  cases e with
  | var name =>
    have hname := (he name (by simp [names])).shape
    cases e' with
    | var name' => exact congrArg var hlabel
    | integer n => exact absurd hlabel.symm (Decimal.ofNat_ne_of_isWordLike hname _)
    | _ => cases hoperands
  | integer n =>
    cases e' with
    | var name =>
      have hname := (he' name (by simp [names])).shape
      exact absurd hlabel (Decimal.ofNat_ne_of_isWordLike hname _)
    | integer n' => exact congrArg integer (Decimal.ofNat_inj hlabel)
    | _ => cases hoperands
  | negation operand =>
    cases e' with
    | negation operand' => exact congrArg negation (List.cons.inj hoperands).1
    | identity operand' => simp [label] at hlabel
    | _ => cases hoperands
  | identity operand =>
    cases e' with
    | identity operand' => exact congrArg identity (List.cons.inj hoperands).1
    | negation operand' => simp [label] at hlabel
    | _ => cases hoperands
  | binary o left right =>
    cases e' with
    | binary o' left' right' =>
      cases hoperands
      rw [Operator.symbol_inj hlabel]
    | _ => cases hoperands

theorem forests_inj {es es' : List Expr} (hes : ∀ e ∈ es, e.Writable)
    (hes' : ∀ e ∈ es', e.Writable) (h : forests es = forests es') : es = es' := by
  -- Along the forest, not the expressions: below its first root are the operands of the first one.
  generalize hforest : forests es' = f at h
  induction f generalizing es es' with
  | nil =>
    cases es with
    | cons e es =>
      rw [forests_cons] at h
      cases h
    | nil =>
      cases es' with
      | nil => rfl
      | cons e' es' =>
        rw [forests_cons] at hforest
        cases hforest
  | node text below next ihb ihn =>
    cases es with
    | nil => cases h
    | cons e es =>
      cases es' with
      | nil => cases hforest
      | cons e' es' =>
        obtain ⟨he, hes⟩ := List.forall_mem_cons.mp hes
        obtain ⟨he', hes'⟩ := List.forall_mem_cons.mp hes'
        rw [forests_cons] at h hforest
        obtain ⟨hlabel, hbelow, hnext⟩ := Forest.node.inj h
        obtain ⟨hlabel', hbelow', hnext'⟩ := Forest.node.inj hforest
        have hoperands := ihb he.operands he'.operands hbelow' hbelow
        rw [eq_of_label_operands he he' (hlabel.trans hlabel'.symm) hoperands,
          ihn hes hes' hnext' hnext]

theorem forest_inj {e e' : Expr} (he : e.Writable) (he' : e'.Writable)
    (h : e.forest = e'.forest) : e = e' := by
  have hsingle : forests [e] = forests [e'] := by simp [forests, h]
  have hes := forests_inj (List.forall_mem_singleton.mpr he) (List.forall_mem_singleton.mpr he')
    hsingle
  exact (List.cons.inj hes).1

end Expr

/-! ## The forests of statements -/

namespace Statement

def forest : Statement → Forest
  | remark text => .node "REM" (.leaf text) .nil
  | assign name e => .node "LET" (.node "=" (.node name .nil e.forest) .nil) .nil
  | print e => .node "PRINT" e.forest .nil
  | input name => .node "INPUT" (.leaf name) .nil
  | goto target => .node "GOTO" (.leaf (Decimal.ofNat target.toNat)) .nil
  | branch condition target =>
    .node "IF" condition.forest (.node "THEN" (.leaf (Decimal.ofNat target.toNat)) .nil)
  | stop => .leaf "END"

theorem outline_forest (st : Statement) : st.forest.outline = st.outline := by
  cases st <;> simp [forest, outline, Forest.leaf, Forest.outline, Expr.outline_forest,
    LineNumber.outline, Outline.leaf, Outline.above]

theorem forest_inj {st st' : Statement} (h : st.Writable) (h' : st'.Writable)
    (heq : st.forest = st'.forest) : st = st' := by
  cases st with
  | remark text =>
    cases st' with
    | remark text' => simpa [forest, Forest.leaf] using heq
    | _ => simp [forest, Forest.leaf] at heq
  | assign name e =>
    cases st' with
    | assign name' e' =>
      simp only [forest, Forest.node.injEq, true_and, and_true] at heq
      rw [heq.1, Expr.forest_inj h.2 h'.2 heq.2]
    | _ => simp [forest, Forest.leaf] at heq
  | print e =>
    cases st' with
    | print e' =>
      simp only [forest, Forest.node.injEq, true_and, and_true] at heq
      rw [Expr.forest_inj h h' heq]
    | _ => simp [forest, Forest.leaf] at heq
  | input name =>
    cases st' with
    | input name' => simpa [forest, Forest.leaf] using heq
    | _ => simp [forest, Forest.leaf] at heq
  | goto target =>
    cases st' with
    | goto target' =>
      simp only [forest, Forest.leaf, Forest.node.injEq, true_and, and_true] at heq
      rw [Decimal.ofNat_inj heq]
    | _ => simp [forest, Forest.leaf] at heq
  | branch condition target =>
    cases st' with
    | branch condition' target' =>
      simp only [forest, Forest.leaf, Forest.node.injEq, true_and, and_true] at heq
      rw [Expr.forest_inj h h' heq.1, Decimal.ofNat_inj heq.2]
    | _ => simp [forest, Forest.leaf] at heq
  | stop =>
    cases st' with
    | stop => rfl
    | _ => simp [forest, Forest.leaf] at heq

theorem isPlain_forest {st : Statement} (h : st.Writable)
    (hlf : ∀ text, st = .remark text → '\n' ∉ text.toList) :
    ∀ text ∈ st.forest.texts, IsPlain text := by
  have hwords := Word.isPlain_spelling
  have hequal : IsPlain "=" := by decide
  cases st with
  | remark text =>
    have htext : IsPlain text := ⟨hlf text rfl, head_ne_tab_of_trim_eq h⟩
    simpa [forest, Forest.leaf, Forest.texts, htext, Word.spelling] using hwords .REM
  | assign name e =>
    have he := Expr.isPlain_forest h.2
    simpa [forest, Forest.texts, h.1.isPlain, hequal] using ⟨hwords .LET, he⟩
  | print e =>
    have he := Expr.isPlain_forest h
    simpa [forest, Forest.texts] using ⟨hwords .PRINT, he⟩
  | input name =>
    simpa [forest, Forest.leaf, Forest.texts, IsName.isPlain h, Word.spelling] using
      hwords .INPUT
  | goto target =>
    simpa [forest, Forest.leaf, Forest.texts, isPlain_ofNat, Word.spelling] using hwords .GOTO
  | branch condition target =>
    have he := Expr.isPlain_forest h
    simpa [forest, Forest.leaf, Forest.texts, isPlain_ofNat, or_imp, forall_and] using
      ⟨hwords .IF, he, hwords .THEN⟩
  | stop => simpa [forest, Forest.leaf, Forest.texts, Word.spelling] using hwords .END

/-- The word that a statement begins with. -/
def word : Statement → Word
  | remark _ => .REM
  | assign _ _ => .LET
  | print _ => .PRINT
  | input _ => .INPUT
  | goto _ => .GOTO
  | branch _ _ => .IF
  | stop => .END

theorem exists_outline_eq_cons (st : Statement) :
    ∃ rows, st.outline = ⟨0, st.word.spelling⟩ :: rows := by
  cases st <;> exact ⟨_, rfl⟩

theorem render_indent_ne_nil (st : Statement) (d : Nat) :
    (st.outline.indent d).render ≠ Outline.render [] := by
  obtain ⟨rows, hrows⟩ := st.exists_outline_eq_cons
  rw [hrows, Outline.indent_cons]
  exact Outline.render_cons_ne_nil _ _

theorem exists_remark_of_word {st : Statement} (h : st.word = .REM) :
    ∃ text, st = .remark text := by
  cases st with
  | remark text => exact ⟨text, rfl⟩
  | _ => cases h

/-- A statement is told from the characters of its outline, and so is a remark of several lines: its
text is all that stands behind the word `REM`. -/
theorem render_indent_inj {st st' : Statement} (d : Nat) (h : st.Writable) (h' : st'.Writable)
    (heq : (st.outline.indent d).render = (st'.outline.indent d).render) : st = st' := by
  have hplain := Word.isPlain_spelling
  have hword : st.word = st'.word := by
    obtain ⟨rows, hrows⟩ := st.exists_outline_eq_cons
    obtain ⟨rows', hrows'⟩ := st'.exists_outline_eq_cons
    rw [hrows, hrows', Outline.indent_cons, Outline.indent_cons] at heq
    have hrow := (Outline.render_cons_inj (hplain _) (hplain _) heq).1
    exact Word.spelling_inj (Row.mk.inj hrow).2
  by_cases hrem : st.word = .REM
  · obtain ⟨text, rfl⟩ := exists_remark_of_word hrem
    obtain ⟨text', rfl⟩ := exists_remark_of_word (hword.symm.trans hrem)
    have hrest := (Outline.render_cons_inj (hplain .REM) (hplain .REM) heq).2
    exact congrArg remark (Outline.render_single_inj hrest)
  · have hlf {st : Statement} (hst : st.word ≠ .REM) (text : String) (hremark : st = .remark text) :
        '\n' ∉ text.toList := absurd (by rw [hremark]; rfl) hst
    rw [← outline_forest, ← outline_forest] at heq
    have hforest := Forest.render_indent_inj d (isPlain_forest h (hlf hrem))
      (isPlain_forest h' (hlf (hword ▸ hrem))) heq
    exact forest_inj h h' hforest

end Statement

/-! ## Lines -/

namespace Line

/-- What is known of a line that was read: its statement has names for variables, and an error is
told from its detail. -/
def Legible : Line → Prop
  | numbered _ st => st.Writable
  | invalid e => ∃ detail, e = { kind := .syntaxError, detail }
  | _ => True

def title? : Line → Option String
  | numbered number _ => some (Decimal.ofNat number.toNat)
  | delete number => some (Decimal.ofNat number.toNat)
  | command c => some c.spelling
  | blank => none
  | invalid _ => some "INVALID"

def parts : Line → Outline
  | numbered _ st => st.outline
  | invalid e => Outline.leaf e.detail
  | _ => []

theorem isWordLike_invalid : IsWordLike "INVALID" :=
  ⟨'I', _, rfl, by decide, List.all_eq_true.mp (by decide)⟩

theorem outline_of_title? {l : Line} {text : String} (h : l.title? = some text) :
    l.outline = Outline.above text l.parts := by
  cases l <;> cases h <;> rfl

theorem eq_blank_of_title? {l : Line} (h : l.title? = none) : l = blank := by
  cases l with
  | blank => rfl
  | _ => cases h

theorem number_of_title? {l : Line} {number : LineNumber}
    (h : l.title? = some (Decimal.ofNat number.toNat)) :
    l = delete number ∨ ∃ st, l = numbered number st := by
  have hword {text : String} (htext : IsWordLike text) :
      some text ≠ some (Decimal.ofNat number.toNat) := fun heq =>
    Decimal.ofNat_ne_of_isWordLike htext _ (Option.some.inj heq).symm
  cases l with
  | numbered other st =>
    rw [Decimal.ofNat_inj (Option.some.inj h)]
    exact .inr ⟨st, rfl⟩
  | delete other =>
    rw [Decimal.ofNat_inj (Option.some.inj h)]
    exact .inl rfl
  | command c => exact absurd h (hword (Token.isWordLike_command c))
  | blank => cases h
  | invalid e => exact absurd h (hword isWordLike_invalid)

theorem command_of_title? {l : Line} {c : Command} (h : l.title? = some c.spelling) :
    l = command c := by
  cases l with
  | numbered number st | delete number =>
    exact absurd (Option.some.inj h)
      (Decimal.ofNat_ne_of_isWordLike (Token.isWordLike_command c) _)
  | command other => rw [Command.spelling_inj (Option.some.inj h)]
  | blank => cases h
  | invalid e => cases c <;> simp [title?, Command.spelling] at h

theorem invalid_of_title? {l : Line} (h : l.title? = some "INVALID") : ∃ e, l = invalid e := by
  cases l with
  | numbered number st | delete number =>
    exact absurd (Option.some.inj h) (Decimal.ofNat_ne_of_isWordLike isWordLike_invalid _)
  | command c => cases c <;> simp [title?, Command.spelling] at h
  | blank => cases h
  | invalid e => exact ⟨e, rfl⟩

theorem isPlain_title {l : Line} {text : String} (h : l.title? = some text) : IsPlain text := by
  cases l with
  | numbered number st | delete number =>
    cases h
    exact isPlain_ofNat _
  | command c =>
    cases h
    exact c.isPlain_spelling
  | blank => cases h
  | invalid e =>
    cases h
    decide

theorem title?_of_render {l l' : Line} (h : l.outline.render = l'.outline.render) :
    l.title? = l'.title? ∧ (l.parts.indent 1).render = (l'.parts.indent 1).render := by
  cases ht : l.title? with
  | none =>
    obtain rfl := eq_blank_of_title? ht
    cases ht' : l'.title? with
    | none =>
      obtain rfl := eq_blank_of_title? ht'
      exact ⟨rfl, rfl⟩
    | some text' =>
      rw [outline_of_title? ht'] at h
      exact absurd h.symm (Outline.render_cons_ne_nil _ _)
  | some text =>
    rw [outline_of_title? ht] at h
    cases ht' : l'.title? with
    | none =>
      obtain rfl := eq_blank_of_title? ht'
      exact absurd h (Outline.render_cons_ne_nil _ _)
    | some text' =>
      rw [outline_of_title? ht'] at h
      obtain ⟨hrow, hrest⟩ :=
        Outline.render_cons_inj (isPlain_title ht) (isPlain_title ht') h
      exact ⟨congrArg some (Row.mk.inj hrow).2, hrest⟩

theorem render_outline_inj {l l' : Line} (hl : l.Legible) (hl' : l'.Legible)
    (h : l.outline.render = l'.outline.render) : l = l' := by
  obtain ⟨htitle, hparts⟩ := title?_of_render h
  cases l with
  | numbered number st =>
    rcases number_of_title? htitle.symm with rfl | ⟨st', rfl⟩
    · exact absurd hparts (st.render_indent_ne_nil 1)
    · rw [Statement.render_indent_inj 1 hl hl' hparts]
  | delete number =>
    rcases number_of_title? htitle.symm with rfl | ⟨st', rfl⟩
    · rfl
    · exact absurd hparts.symm (st'.render_indent_ne_nil 1)
  | command c => exact (command_of_title? htitle.symm).symm
  | blank => exact (eq_blank_of_title? htitle.symm).symm
  | invalid e =>
    obtain ⟨e', rfl⟩ := invalid_of_title? htitle.symm
    obtain ⟨detail, rfl⟩ := hl
    obtain ⟨detail', rfl⟩ := hl'
    have hdetail : detail = detail' := Outline.render_single_inj hparts
    rw [hdetail]

end Line

/-! ## What was read is legible -/

namespace Grammar

theorem Derives.ident_mem {c : Category} {p : List Token} {e : Expr} (h : Derives c p e) :
    ∀ name ∈ e.names, .ident name ∈ p := by
  induction h with
  | ofAdditive _ ih | ofMultiplicative _ ih | ofUnary _ ih | ofPower _ ih | ofPrimary _ ih =>
    exact ih
  | compare _ _ _ ihp ihq | add _ _ _ ihp ihq | multiply _ _ _ ihp ihq | raise _ _ ihp ihq =>
    intro name hname
    rcases List.mem_append.mp hname with hleft | hright
    · exact List.mem_append_left _ (ihp name hleft)
    · exact List.mem_append_right _ (List.mem_cons_of_mem _ (ihq name hright))
  | minus _ ih | plus _ ih =>
    intro name hname
    exact List.mem_cons_of_mem _ (ih name hname)
  | ident name | integer n => simp [Expr.names]
  | parenthesized _ ih =>
    intro name hname
    simp [ih name hname]

theorem Sentence.writable {p : List Token} {st : Statement} (h : Sentence p st)
    (hnames : ∀ name, .ident name ∈ p → IsName name)
    (hremarks : ∀ text, .remark text ∈ p → Token.IsRemark text) : st.Writable := by
  cases h with
  | emptyRemark => rfl
  | remark text => exact (hremarks text (by simp)).trimmed
  | assign name he =>
    exact ⟨hnames name (by simp), fun other hother =>
      hnames other (by simp [he.ident_mem other hother])⟩
  | print he | branch _ he =>
    exact fun name hname => hnames name (by simp [he.ident_mem name hname])
  | input name => exact hnames name (by simp)
  | goto _ | stop => trivial

end Grammar

namespace Token

theorem isName_of_mem_scan {s name : String} (h : .ident name ∈ scan s) : IsName name := by
  obtain ⟨ts, hlexical, hts⟩ := exists_lexical_scanChars s.toList
  rw [scan, hts] at h
  exact hlexical.names name (by simpa using h)

theorem isRemark_of_mem_scan {s text : String} (h : .remark text ∈ scan s) : IsRemark text := by
  obtain ⟨ts, hlexical, hts⟩ := exists_lexical_scanChars s.toList
  rw [scan, hts] at h
  obtain ⟨before, after, hsplit⟩ := List.append_of_mem (by simpa using h : .remark text ∈ ts)
  exact (hlexical.remarks before text after hsplit).1

theorem subset_of_remark {s text : String} (h : .remark text ∈ scan s) :
    text.toList ⊆ s.toList := by
  obtain ⟨pieces, rest, tail, hparts, hcloses, hscan⟩ :=
    exists_parts s.toList [] (.nil s.toList)
  rw [scan, hscan] at h
  have htail : .remark text ∈ tail := by simpa [hparts.remark_not_mem text] using h
  have hrest : rest ⊆ s.toList := by
    rw [hparts.text_eq]
    exact List.subset_append_right _ _
  generalize pieces.map Piece.token = ts at hcloses
  cases hcloses with
  | blank _ _ | bare _ _ => cases htail
  | remark _ _ =>
    obtain rfl : text = String.ofList (trim rest) := by simpa using htail
    rw [String.toList_ofList]
    exact List.Subset.trans (trim_subset rest) hrest

end Token

namespace Line

theorem exists_sentence {s : String} {number : LineNumber} {st : Statement}
    (h : ofText s = numbered number st) : ∃ p, Sentence p st ∧ p ⊆ Token.scan s := by
  rw [ofText, scan_source] at h
  have hknown : ∀ text, .unknown text ∉ Token.scan s := by
    intro text htext
    obtain ⟨found, _, hfault⟩ := ofTokens_of_unknown htext
    rw [hfault] at h
    cases h
  rw [ofTokens_of_known hknown, ofKnownTokens_eq_iff (by simp)] at h
  generalize Token.scan s = ts at h
  cases h with
  | @numbered p _ _ rest hsentence =>
    exact ⟨p, hsentence, fun t ht => by simp [ht]⟩

theorem legible_ofText (s : String) : (ofText s).Legible := by
  cases hline : ofText s with
  | numbered number st =>
    obtain ⟨p, hsentence, hp⟩ := exists_sentence hline
    exact hsentence.writable (fun _ hname => Token.isName_of_mem_scan (hp hname))
      fun _ htext => Token.isRemark_of_mem_scan (hp htext)
  | delete _ | command _ | blank => trivial
  | invalid e =>
    obtain ⟨fault, rfl⟩ := exists_fault_of_invalid hline
    exact ⟨fault.message, rfl⟩

theorem lf_not_mem_of_remark {s text : String} {number : LineNumber}
    (h : ofText s = numbered number (.remark text)) (hlf : '\n' ∉ s.toList) :
    '\n' ∉ text.toList := by
  obtain ⟨p, hsentence, hp⟩ := exists_sentence h
  cases hsentence with
  | emptyRemark => simp
  | remark => exact fun hmem => hlf (Token.subset_of_remark (hp (by simp)) hmem)

end Line

/-! ## Programs -/

theorem Entry.Faithful.writable {entry : Entry} (h : entry.Faithful) :
    entry.statement.Writable := by
  have hlegible := Line.legible_ofText entry.source
  rwa [h.read] at hlegible

namespace Program

def forest : List Entry → Forest
  | [] => .nil
  | entry :: rest =>
    .node (Decimal.ofNat entry.number.toNat) entry.statement.forest (forest rest)

theorem outline_forest (entries : List Entry) :
    (forest entries).outline = entries.flatMap fun entry => entry.line.outline := by
  induction entries with
  | nil => rfl
  | cons entry rest ih =>
    rw [forest, Forest.outline, Statement.outline_forest, ih]
    rfl

theorem isPlain_forest {entries : List Entry} (h : ∀ entry ∈ entries, entry.Faithful)
    (hlf : ∀ entry ∈ entries, '\n' ∉ entry.source.toList) :
    ∀ text ∈ (forest entries).texts, IsPlain text := by
  induction entries with
  | nil => simp [forest, Forest.texts]
  | cons entry rest ih =>
    obtain ⟨hentry, hrest⟩ := List.forall_mem_cons.mp h
    obtain ⟨hlf, hlfs⟩ := List.forall_mem_cons.mp hlf
    have hstatement : ∀ text ∈ entry.statement.forest.texts, IsPlain text := by
      apply Statement.isPlain_forest hentry.writable
      intro text htext
      have hread := hentry.read
      rw [Entry.line, htext] at hread
      exact Line.lf_not_mem_of_remark hread hlf
    intro text htext
    rw [forest, Forest.texts, List.mem_cons, List.mem_append] at htext
    rcases htext with rfl | htext | htext
    · exact isPlain_ofNat _
    · exact hstatement text htext
    · exact ih hrest hlfs text htext

theorem forest_inj {entries entries' : List Entry} (h : ∀ entry ∈ entries, entry.Faithful)
    (h' : ∀ entry ∈ entries', entry.Faithful) (heq : forest entries = forest entries') :
    entries.map Entry.line = entries'.map Entry.line := by
  induction entries generalizing entries' with
  | nil =>
    cases entries' with
    | nil => rfl
    | cons entry' rest' => cases heq
  | cons entry rest ih =>
    cases entries' with
    | nil => cases heq
    | cons entry' rest' =>
      obtain ⟨hentry, hrest⟩ := List.forall_mem_cons.mp h
      obtain ⟨hentry', hrest'⟩ := List.forall_mem_cons.mp h'
      obtain ⟨hnumber, hstatement, hnext⟩ := Forest.node.inj heq
      rw [List.map_cons, List.map_cons, ih hrest hrest' hnext, Entry.line, Entry.line,
        Decimal.ofNat_inj hnumber,
        Statement.forest_inj hentry.writable hentry'.writable hstatement]

end Program

/-- The outline of a line that was read, written out, determines the line. The outline of a program
made by changes, written out, determines the numbers and statements of its lines, if no text in it
goes over several lines. -/
theorem outlines_determine_trees :
    (∀ s t, (Line.ofText s).outline.render = (Line.ofText t).outline.render →
      Line.ofText s = Line.ofText t) ∧
    ∀ cs cs' : List Change,
      let p := Program.empty.changes cs
      let q := Program.empty.changes cs'
      (∀ source ∈ p.sources, '\n' ∉ source.toList) →
      (∀ source ∈ q.sources, '\n' ∉ source.toList) →
      p.outline.render = q.outline.render →
      p.entries.map Entry.line = q.entries.map Entry.line := by
  constructor
  · intro s t h
    exact Line.render_outline_inj (Line.legible_ofText s) (Line.legible_ofText t) h
  · intro cs cs' p q hp hq h
    have hzero (o : Outline) : o.indent 0 = o := by simp [Outline.indent]
    have hfaithful : p.Faithful := Program.faithful_changes cs
    have hfaithful' : q.Faithful := Program.faithful_changes cs'
    apply Program.forest_inj hfaithful hfaithful'
    have hplain := Program.isPlain_forest hfaithful (by simpa [Program.sources] using hp)
    have hplain' := Program.isPlain_forest hfaithful' (by simpa [Program.sources] using hq)
    apply Forest.render_indent_inj 0 hplain hplain'
    rw [hzero, hzero, Program.outline_forest, Program.outline_forest]
    exact h

/-- A sign below an operator of the same symbol, in two texts with other blanks and parentheses. -/
theorem outlines_determine_trees_of_signs :
    let s := "10 PRINT -A-1"
    let t := "010PRINT (-(A)) - 1\r\n"
    let p := Program.empty.changes [.enter s]
    let q := Program.empty.changes [.load ["5", t]]
    let dump := "10\n\tPRINT\n\t\t-\n\t\t\t-\n\t\t\t\tA\n\t\t\t1\n"
    (Line.ofText s).outline.render = dump ∧ (Line.ofText t).outline.render = dump ∧
      Line.ofText s = Line.ofText t ∧ p.sources = [s] ∧ q.sources = ["010PRINT (-(A)) - 1"] ∧
      p.outline.render = dump ∧ q.outline.render = dump ∧
      p.entries.map Entry.line = q.entries.map Entry.line := by
  intro s t p q dump
  have hs : (Line.ofText s).outline.render = dump := by cbv
  have ht : (Line.ofText t).outline.render = dump := by cbv
  have hsources : (Program.empty.changes [.enter s]).sources = [s] := by cbv
  have hsources' : (Program.empty.changes [.load ["5", t]]).sources = ["010PRINT (-(A)) - 1"] := by
    cbv
  have hp : (Program.empty.changes [.enter s]).outline.render = dump := by cbv
  have hq : (Program.empty.changes [.load ["5", t]]).outline.render = dump := by cbv
  have hlf : ∀ source ∈ p.sources, '\n' ∉ source.toList := by
    rw [hsources]
    simp [s]
  have hlf' : ∀ source ∈ q.sources, '\n' ∉ source.toList := by
    rw [hsources']
    simp
  obtain ⟨hlines, hprograms⟩ := outlines_determine_trees
  exact ⟨hs, ht, hlines s t (hs.trans ht.symm), hsources, hsources', hp, hq,
    hprograms _ _ hlf hlf' (hp.trans hq.symm)⟩

end LineBasic
