import LineBasic.Statement

/-!
# What one statement can do

All that executing a statement can come to, one rule for each way through it: the result, the
variables after it, and the warnings given on the way. Proofs about runs take a statement apart by
these rules.
-/
namespace LineBasic.Statement

variable [PowerRoutine]

/-- Executed with the variables `vars` and no earlier warnings, the statement comes to the result
and gives the warnings. -/
inductive Does (vars : Variables) :
    Statement → Except Failure (Flow × Variables) → List Warning → Prop
  | remark (text : String) : Does vars (.remark text) (.ok (.next, vars)) []
  | assign {name e value ws} : (e.eval vars).outcome [] = (.ok value, ws) →
      Does vars (.assign name e) (.ok (.next, vars.insert name value)) ws
  | assignFails {name e fault ws} : (e.eval vars).outcome [] = (.error fault, ws) →
      Does vars (.assign name e) (.error (fault.toFailure vars)) ws
  | print {e value ws} : (e.eval vars).outcome [] = (.ok value, ws) →
      Does vars (.print e) (.ok (.print (Decimal.ofInt value.toInt), vars)) ws
  | printFails {e fault ws} : (e.eval vars).outcome [] = (.error fault, ws) →
      Does vars (.print e) (.error (fault.toFailure vars)) ws
  | input (name : String) : Does vars (.input name) (.ok (.input name, vars)) []
  | goto (target : LineNumber) : Does vars (.goto target) (.ok (.jump target, vars)) []
  | branchTaken {e target value ws} : (e.eval vars).outcome [] = (.ok value, ws) →
      value.toInt ≠ 0 → Does vars (.branch e target) (.ok (.jump target, vars)) ws
  | branchPassed {e target value ws} : (e.eval vars).outcome [] = (.ok value, ws) →
      value.toInt = 0 → Does vars (.branch e target) (.ok (.next, vars)) ws
  | branchFails {e target fault ws} : (e.eval vars).outcome [] = (.error fault, ws) →
      Does vars (.branch e target) (.error (fault.toFailure vars)) ws
  | stop : Does vars .stop (.ok (.halt, vars)) []

theorem does_run (vars : Variables) (st : Statement) :
    Does vars st ((st.run vars).outcome []).1 ((st.run vars).outcome []).2 := by
  cases st with
  | remark text => exact .remark text
  | input name => exact .input name
  | goto target => exact .goto target
  | stop => exact .stop
  | assign name e =>
    rw [run, Eval.outcome_bind, outcome_valueOf]
    cases he : (e.eval vars).outcome [] with
    | mk r ws =>
      cases r with
      | ok value => exact .assign he
      | error fault => exact .assignFails he
  | print e =>
    rw [run, Eval.outcome_bind, outcome_valueOf]
    cases he : (e.eval vars).outcome [] with
    | mk r ws =>
      cases r with
      | ok value => exact .print he
      | error fault => exact .printFails he
  | branch e target =>
    rw [run, Eval.outcome_bind, outcome_valueOf]
    cases he : (e.eval vars).outcome [] with
    | mk r ws =>
      cases r with
      | error fault => exact .branchFails he
      | ok value =>
        change Does vars _ (.ok (if value.toInt = 0 then .next else .jump target, vars)) ws
        by_cases hzero : value.toInt = 0
        · rw [if_pos hzero]
          exact .branchPassed he hzero
        · rw [if_neg hzero]
          exact .branchTaken he hzero

theorem outcome_run_assign {vars : Variables} {e : Expr} {value : Int64} {ws found : List Warning}
    (h : (e.eval vars).outcome ws = (.ok value, found)) (name : String) :
    ((assign name e).run vars).outcome ws = (.ok (.next, vars.insert name value), found) := by
  rw [run, Eval.outcome_bind, outcome_valueOf, h]
  rfl

/-- A statement that fails leaves the variables as it found them, and its error is that of an
arithmetic fault, with no line and no detail. -/
theorem failure_of_run {vars : Variables} {st : Statement} {failure : Failure} {ws : List Warning}
    (h : (st.run vars).outcome [] = (.error failure, ws)) :
    failure.vars = vars ∧ ∃ fault : Fault, failure.toError = fault.toError := by
  have hdoes := st.does_run vars
  rw [h] at hdoes
  cases hdoes with
  | assignFails _ | printFails _ | branchFails _ => exact ⟨rfl, _, rfl⟩

end LineBasic.Statement
