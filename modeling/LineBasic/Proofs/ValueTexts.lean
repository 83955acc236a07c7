import Mathlib
import LineBasic.Proofs.Waiting
import LineBasic.Proofs.Writing

/-!
# The text of a value

What is printed for a value is read back as this value wherever a number may stand: on the right
side of a `LET`, where a minus sign is a token of its own and the digits may be too large for a
value without it, and as the answer to an `INPUT`. So a value can be moved between what a program
prints, what it is given and its text, and stays the same.
-/
namespace LineBasic

open Grammar Text

namespace Text

theorem isSpace_of_isDigit {c : Char} (h : c.isDigit = true) : isSpace c = false := by
  have hrange : 48 ≤ c.toNat ∧ c.toNat ≤ 57 := by
    simpa [Char.isDigit, UInt32.le_iff_toNat_le] using h
  simp only [isSpace, Bool.or_eq_false_iff, Bool.and_eq_false_iff, decide_eq_false_iff_not,
    beq_eq_false_iff_ne]
  omega

theorem trim_eq_self {cs : List Char} (h : ∀ c ∈ cs, isSpace c = false) : trim cs = cs := by
  have hdrop {cs : List Char} (h : ∀ c ∈ cs, isSpace c = false) : cs.dropWhile isSpace = cs := by
    cases cs with
    | nil => rfl
    | cons c cs => exact List.dropWhile_cons_of_neg (by simp [h c List.mem_cons_self])
  have hreverse : ∀ c ∈ cs.reverse, isSpace c = false := fun c hc => h c (List.mem_reverse.mp hc)
  rw [trim, hdrop h, dropEndWhile, hdrop hreverse, List.reverse_reverse]

end Text

namespace Decimal

theorem numeral_toDigits (n : Nat) : Numeral (Nat.toDigits 10 n) n :=
  natural?_eq_some_iff.mp (natural?_toDigits n)

theorem toList_ofInt_of_nonneg {v : Int} (h : 0 ≤ v) :
    (ofInt v).toList = Nat.toDigits 10 v.natAbs := by
  rw [ofInt, if_neg (Int.not_lt.mpr h), ofNat, String.toList_ofList]

theorem toList_ofInt_of_neg {v : Int} (h : v < 0) :
    (ofInt v).toList = '-' :: Nat.toDigits 10 v.natAbs := by
  simp [ofInt, ofNat, h]

theorem signedNumeral_ofInt (v : Int) : SignedNumeral (ofInt v).toList v := by
  rcases Int.lt_or_le v 0 with h | h
  · have hminus := SignedNumeral.minus (numeral_toDigits v.natAbs)
    rw [toList_ofInt_of_neg h]
    rwa [show -(v.natAbs : Int) = v by omega] at hminus
  · have hplain := SignedNumeral.plain (numeral_toDigits v.natAbs)
    rw [toList_ofInt_of_nonneg h]
    rwa [show (v.natAbs : Int) = v by omega] at hplain

theorem isSpace_of_mem_ofInt (v : Int) : ∀ c ∈ (ofInt v).toList, isSpace c = false := by
  have hdigits : ∀ c ∈ Nat.toDigits 10 v.natAbs, isSpace c = false := fun c hc =>
    isSpace_of_isDigit ((numeral_toDigits _).isDigit c hc)
  rcases Int.lt_or_le v 0 with h | h
  · rw [toList_ofInt_of_neg h]
    exact List.forall_mem_cons.mpr ⟨by decide, hdigits⟩
  · rw [toList_ofInt_of_nonneg h]
    exact hdigits

end Decimal

/-! ## In the text of a program -/

theorem spells_negative (n : UInt64) :
    Spells ("-" ++ Decimal.ofNat n.toNat) [.operator .subtract, .integer n] := by
  intro rest hrest
  have hsign : Token.Found ('-' :: ((Decimal.ofNat n.toNat).toList ++ rest)) (.operator .subtract)
      ((Decimal.ofNat n.toNat).toList ++ rest) :=
    Token.found_operator (o := .subtract) fun _ _ => rfl
  have htext : ("-" ++ Decimal.ofNat n.toNat).toList ++ rest =
      '-' :: ((Decimal.ofNat n.toNat).toList ++ rest) := by simp
  rw [htext, Token.scanChars_of_found hsign (by simp), spells_number n rest hrest]
  rfl

/-- The text of a value stands for an expression whose value it is, whatever the variables are. The
least value is the one whose digits alone are no value. -/
theorem exists_denotes_ofInt [PowerRoutine] (v : Int64) :
    ∃ e, Denotes .comparison (Decimal.ofInt v.toInt) e ∧
      ∀ vars ws, (e.eval vars).outcome ws = (.ok v, ws) := by
  have hlower := v.le_toInt
  have hupper := v.toInt_lt
  obtain ⟨n, hn⟩ : ∃ n : UInt64, n.toNat = v.toInt.natAbs :=
    ⟨UInt64.ofNat v.toInt.natAbs, by rw [UInt64.toNat_ofNat']; omega⟩
  rcases Int.lt_or_le v.toInt 0 with h | h
  · have htext : Decimal.ofInt v.toInt = "-" ++ Decimal.ofNat n.toNat := by
      rw [Decimal.ofInt, if_pos h, hn]
    have hvalue : Checked.negativeLiteral n = .ok v := Checked.fit_eq_ok_iff.mpr (by omega)
    refine ⟨.negation (.integer n), ?_, fun vars ws => ?_⟩
    · rw [htext]
      exact ⟨_, spells_negative n, .of_unary (.minus (.unary_of_primary (.integer n)))⟩
    · rw [Expr.eval, Eval.outcome_ofExcept, hvalue]
  · have htext : Decimal.ofInt v.toInt = Decimal.ofNat n.toNat := by
      rw [Decimal.ofInt, if_neg (Int.not_lt.mpr h), hn]
    have hvalue : Checked.literal n = .ok v := Checked.fit_eq_ok_iff.mpr (by omega)
    refine ⟨.integer n, ?_, fun vars ws => ?_⟩
    · rw [htext]
      exact Denotes.comparison ⟨_, spells_number n, .integer n⟩
    · rw [Expr.eval, Eval.outcome_ofExcept, hvalue]

section Lines

variable {name : String} (hname : IsName name) (n : LineNumber)
include hname

theorem Line.ofText_assign {text : String} {e : Expr} (h : Denotes .comparison text e) :
    ofText (spaced [Decimal.ofNat n.toNat, "LET", name, "=", text]) =
      .numbered n (.assign name e) := by
  obtain ⟨ts, hspells, hderives⟩ := h
  refine ofText_of_scan (.assign name hderives) ?_
  exact Spells.scanChars_eq (.spaced (.cons (spells_number n)
    (.cons (spells_word .LET (by decide)) (.cons (spells_name hname)
      (.cons (spells_operator .equal) (.cons hspells .nil))))) (by simp))

theorem Line.ofText_print : ofText (spaced [Decimal.ofNat n.toNat, "PRINT", name]) =
    .numbered n (.print (.var name)) := by
  have hderives : Derives .comparison [.ident name] (.var name) :=
    .of_unary (.unary_of_primary (.ident name))
  refine ofText_of_scan (.print hderives) ?_
  exact Spells.scanChars_eq (.spaced (.cons (spells_number n)
    (.cons (spells_word .PRINT (by decide)) (.cons (spells_name hname) .nil))) (by simp))

end Lines

/-! ## As an answer -/

theorem Machine.typedValue?_ofInt (v : Int64) {before after : String}
    (hbefore : ∀ c ∈ before.toList, isSpace c = true)
    (hafter : ∀ c ∈ after.toList, isSpace c = true) :
    typedValue? (before ++ Decimal.ofInt v.toInt ++ after) = some v := by
  rw [typedValue?_eq_some_iff, String.toList_append, String.toList_append,
    trim_append_of_space hafter, trim_space_append hbefore,
    trim_eq_self (Decimal.isSpace_of_mem_ofInt v.toInt)]
  exact Decimal.signedNumeral_ofInt v.toInt

/-- The text of a value, on the right side of a `LET` line, makes a statement that binds the
variable to this value and warns of nothing; typed as an answer, with any white space around it, it
binds the variable that is asked for in the same way; and it is what printing the variable shows
then. -/
theorem value_text_moves_unchanged [PowerRoutine] (v : Int64) (n : LineNumber) (name : String)
    (hname : IsName name) :
    let text := Decimal.ofInt v.toInt
    (∃ e, Line.ofText (Decimal.ofNat n.toNat ++ " LET " ++ name ++ " = " ++ text) =
        .numbered n (.assign name e) ∧
      ∀ vars ws, ((Statement.assign name e).run vars).outcome ws =
        (.ok (.next, vars.insert name v), ws)) ∧
    (∀ (m : Machine) (pc : Option LineNumber) (before after : String),
      m.phase = .awaiting name pc → (∀ c ∈ before.toList, isSpace c = true) →
      (∀ c ∈ after.toList, isSpace c = true) →
      m.input (before ++ text ++ after) =
        (true, { m with phase := .running pc, vars := m.vars.insert name v })) ∧
    Line.ofText (Decimal.ofNat n.toNat ++ " PRINT " ++ name) = .numbered n (.print (.var name)) ∧
    ∀ (vars : Variables) ws, ((Statement.print (.var name)).run (vars.insert name v)).outcome ws =
      (.ok (.print text, vars.insert name v), ws) := by
  intro text
  refine ⟨?_, fun m pc before after hphase hbefore hafter => ?_, ?_, fun vars ws => ?_⟩
  · obtain ⟨e, hdenotes, heval⟩ := exists_denotes_ofInt v
    refine ⟨e, ?_, fun vars ws => ?_⟩
    · have hline := Line.ofText_assign hname n hdenotes
      rw [← hline]
      congr 1
      apply String.toList_inj.mp
      simp [spaced, String.intercalate_cons_cons, text]
    · exact Statement.outcome_run_assign (heval vars ws) name
  · have hvalue := Machine.typedValue?_ofInt v hbefore hafter
    simp only [Machine.input, hphase, text, hvalue]
  · rw [← Line.ofText_print hname n]
    congr 1
    apply String.toList_inj.mp
    simp [spaced, String.intercalate_cons_cons]
  · have hread : ((Expr.var name).eval (vars.insert name v)).outcome ws = (.ok v, ws) := by
      simp [Expr.eval, Variables.read, Variables.get?_insert]
    rw [Statement.run, Eval.outcome_bind, Statement.outcome_valueOf, hread]
    rfl

/-- The least value, whose digits overflow without their sign, under the largest number. -/
theorem value_text_moves_unchanged_at_least_value :
    let m : Machine := ⟨.empty, .empty, .awaiting "THEN1" none, .empty, []⟩
    IsName "THEN1" ∧ (∀ c ∈ "\t\u00a0".toList, isSpace c = true) ∧
      (∃ e, Line.ofText "18446744073709551615 LET THEN1 = -9223372036854775808" =
        .numbered 18446744073709551615 (.assign "THEN1" e)) ∧
      m.input "\t\u00a0-9223372036854775808" =
        (true, { m with
          phase := .running none
          vars := m.vars.insert "THEN1" Int64.minValue }) := by
  intro m
  have hname : IsName "THEN1" :=
    ⟨⟨'T', "HEN1".toList, rfl, by decide, List.all_eq_true.mp (by decide)⟩, by decide⟩
  have hspace : ∀ c ∈ "\t\u00a0".toList, isSpace c = true := List.all_eq_true.mp (by decide)
  obtain ⟨⟨e, hline, _⟩, hinput, _, _⟩ :=
    value_text_moves_unchanged Int64.minValue 18446744073709551615 "THEN1" hname
  have hempty : ∀ c ∈ "".toList, isSpace c = true := List.all_eq_true.mp (by decide)
  exact ⟨hname, hspace, ⟨e, hline⟩, hinput m none "\t\u00a0" "" rfl hspace hempty⟩

end LineBasic
