import LineBasic.Error
import LineBasic.Expr.Eval

/-!
# Exact values

Evaluation on 64-bit words is compared with evaluation over the integers, where nothing overflows.
A node of an expression fails when its exact value does not fit, when it divides by zero, or when
the power it stands for has no value. Evaluation goes through the nodes in post-order and from left
to right: it ends with the first node that fails, and with the exact value when none does.
-/
namespace LineBasic

namespace Fault

theorem kind_toError_eq_divisionByZero_iff {fault : Fault} :
    fault.toError.kind = .divisionByZero ↔ fault = .divisionByZero := by
  cases fault <;> decide

theorem kind_toError_eq_overflow_iff {fault : Fault} :
    fault.toError.kind = .overflow ↔ fault ≠ .divisionByZero := by
  cases fault <;> decide

end Fault

theorem Checked.toInt_truth (p : Prop) [Decidable p] :
    (truth (decide p)).toInt = if p then 1 else 0 := by
  by_cases h : p <;> simp [truth, h]

/-- The integer is a signed 64-bit value. -/
def InRange (v : Int) : Prop :=
  -9223372036854775808 ≤ v ∧ v ≤ 9223372036854775807

instance (v : Int) : Decidable (InRange v) :=
  inferInstanceAs (Decidable (_ ∧ _))

/-- What the operator gives over the integers. A power is the one of the values equal to its
operands; where that one has no value it counts as zero. -/
def Operator.exact [PowerRoutine] : Operator → Int → Int → Int
  | power, x, y =>
    match Checked.power (Int64.ofInt x) (Int64.ofInt y) with
    | .ok value => value.toInt
    | .error _ => 0
  | multiply, x, y => x * y
  | divide, x, y => x.tdiv y
  | add, x, y => x + y
  | subtract, x, y => x - y
  | equal, x, y => if x = y then 1 else 0
  | less, x, y => if x < y then 1 else 0
  | greater, x, y => if x > y then 1 else 0

namespace Expr

variable [PowerRoutine]

def exact (vars : Variables) : Expr → Int
  | var name => ((vars.get? name).map Int64.toInt).getD 0
  | integer n => n.toNat
  | negation operand => -operand.exact vars
  | identity operand => operand.exact vars
  | binary o left right => o.exact (left.exact vars) (right.exact vars)

/-- A node of an expression, and whether a minus sign stands directly on it. -/
structure Node where
  expr : Expr
  signed : Bool

/-- The nodes in post-order from left to right, where the outermost one stands under a minus sign
or not. -/
def nodesUnder (signed : Bool) : Expr → List Node
  | var name => [⟨var name, signed⟩]
  | integer n => [⟨integer n, signed⟩]
  | negation operand => operand.nodesUnder true ++ [⟨negation operand, signed⟩]
  | identity operand => operand.nodesUnder false ++ [⟨identity operand, signed⟩]
  | binary o left right =>
    left.nodesUnder false ++ right.nodesUnder false ++ [⟨binary o left right, signed⟩]

def nodes (e : Expr) : List Node :=
  e.nodesUnder false

namespace Node

def DividesByZero (vars : Variables) (node : Node) : Prop :=
  ∃ left right, node.expr = binary .divide left right ∧ right.exact vars = 0

/-- The node has no value, although its operands may have theirs. A literal under a minus sign never
fails by itself; the sign on it does when the negative number does not fit. -/
inductive Fails (vars : Variables) : Node → Prop
  | literal {n} : 9223372036854775807 < n.toNat → Fails vars ⟨integer n, false⟩
  | negativeLiteral {n signed} : 9223372036854775808 < n.toNat →
      Fails vars ⟨negation (integer n), signed⟩
  | negation {a signed} : (∀ n, a ≠ integer n) → ¬ InRange (-a.exact vars) →
      Fails vars ⟨negation a, signed⟩
  | arithmetic {o a b signed} : o ∈ [Operator.add, .subtract, .multiply, .divide] →
      ¬ InRange (o.exact (a.exact vars) (b.exact vars)) → Fails vars ⟨binary o a b, signed⟩
  | zeroDivisor {a b signed} : b.exact vars = 0 → Fails vars ⟨binary .divide a b, signed⟩
  | power {a b signed fault} :
      Checked.power (Int64.ofInt (a.exact vars)) (Int64.ofInt (b.exact vars)) = .error fault →
      Fails vars ⟨binary .power a b, signed⟩

def fault (vars : Variables) (node : Node) : Fault :=
  match node.expr with
  | binary .divide _ right => if right.exact vars = 0 then .divisionByZero else .overflow
  | _ => .overflow

theorem fault_eq_divisionByZero_iff {vars : Variables} {node : Node} :
    node.fault vars = .divisionByZero ↔ node.DividesByZero vars := by
  unfold fault DividesByZero
  split
  · rename_i left right he
    simp only [he]
    constructor
    · intro h
      split at h
      · rename_i hzero
        exact ⟨left, right, rfl, hzero⟩
      · cases h
    · rintro ⟨_, _, heq, hzero⟩
      cases heq
      rw [if_pos hzero]
  · rename_i hne
    constructor
    · intro h
      cases h
    · rintro ⟨left, right, heq, _⟩
      exact absurd heq (hne left right)

end Node

/-- The result is right for nodes visited in the given order: the exact value `x` if none of them
fails, and the fault of the first one that does. -/
def Judges (vars : Variables) (visited : List Node) (x : Int) : Except Fault Int64 → Prop
  | .ok value => (∀ node ∈ visited, ¬ node.Fails vars) ∧ value.toInt = x
  | .error fault => ∃ before node after, visited = before ++ node :: after ∧
      (∀ m ∈ before, ¬ m.Fails vars) ∧ node.Fails vars ∧ fault = node.fault vars

namespace Judges

variable {vars : Variables} {visited more : List Node} {node : Node} {x y : Int}

theorem error_append {fault : Fault} (h : Judges vars visited x (.error fault)) :
    Judges vars (visited ++ more) y (.error fault) := by
  obtain ⟨before, node, after, rfl, hb, hn⟩ := h
  exact ⟨before, node, after ++ more, by simp, hb, hn⟩

theorem append {r : Except Fault Int64} (hv : ∀ m ∈ visited, ¬ m.Fails vars)
    (h : Judges vars more y r) : Judges vars (visited ++ more) y r := by
  cases r with
  | ok value =>
    refine ⟨fun m hm => ?_, h.2⟩
    rcases List.mem_append.mp hm with hm | hm
    · exact hv m hm
    · exact h.1 m hm
  | error fault =>
    obtain ⟨before, node, after, rfl, hb, hn⟩ := h
    refine ⟨visited ++ before, node, after, by simp, fun m hm => ?_, hn⟩
    rcases List.mem_append.mp hm with hm | hm
    · exact hv m hm
    · exact hb m hm

theorem concat {r : Except Fault Int64} (h : Judges vars visited x r) (hn : ¬ node.Fails vars) :
    Judges vars (visited ++ [node]) x r := by
  cases r with
  | ok value =>
    refine ⟨fun m hm => ?_, h.2⟩
    rcases List.mem_append.mp hm with hm | hm
    · exact h.1 m hm
    · exact List.mem_singleton.mp hm ▸ hn
  | error fault => exact h.error_append

/-- Two computations in a row, of which the second starts from the exact value of the first. -/
theorem bind {m : Eval Fault Int64} {f : Int64 → Eval Fault Int64} {ws : List Warning}
    (hm : Judges vars visited x (m.outcome ws).1)
    (hf : ∀ a found, a.toInt = x → Judges vars more y ((f a).outcome found).1) :
    Judges vars (visited ++ more) y ((m >>= f).outcome ws).1 := by
  rw [Eval.outcome_bind]
  cases hout : m.outcome ws with
  | mk r found =>
    rw [hout] at hm
    cases r with
    | ok a => exact .append hm.1 (hf a found hm.2)
    | error fault => exact hm.error_append

theorem ok_singleton {value : Int64} (hn : ¬ node.Fails vars) (hx : value.toInt = x) :
    Judges vars [node] x (.ok value) :=
  ⟨fun _ hm => List.mem_singleton.mp hm ▸ hn, hx⟩

theorem error_singleton (hn : node.Fails vars) :
    Judges vars [node] x (.error (node.fault vars)) :=
  ⟨[], node, [], rfl, by simp, hn, rfl⟩

/-- A result is the fault of whichever failing node comes first. -/
theorem eq_error {r : Except Fault Int64} {before after : List Node}
    (h : Judges vars (before ++ node :: after) x r) (hb : ∀ m ∈ before, ¬ m.Fails vars)
    (hn : node.Fails vars) : r = .error (node.fault vars) := by
  cases r with
  | ok value => exact absurd hn (h.1 node (by simp))
  | error fault =>
    obtain ⟨before', node', after', heq, hb', hn', rfl⟩ := h
    classical
    have hfind : (before ++ node :: after).find? (fun m => decide (m.Fails vars)) = some node :=
      List.find?_eq_some_iff_append.mpr ⟨by simpa using hn, before, after, rfl, by simpa using hb⟩
    have hfind' : (before ++ node :: after).find? (fun m => decide (m.Fails vars)) = some node' :=
      List.find?_eq_some_iff_append.mpr
        ⟨by simpa using hn', before', after', heq, by simpa using hb'⟩
    rw [Option.some.inj (hfind'.symm.trans hfind)]

theorem fit (hn : node.Fails vars ↔ ¬ InRange x) (hf : ¬ InRange x → node.fault vars = .overflow) :
    Judges vars [node] x (Checked.fit x) := by
  cases h : Checked.fit x with
  | ok value =>
    have hx := Checked.fit_eq_ok_iff.mp h
    refine ok_singleton (fun hfails => hn.mp hfails ?_) hx
    rw [← hx]
    exact ⟨value.le_toInt, Int.le_sub_one_of_lt value.toInt_lt⟩
  | error fault =>
    obtain ⟨rfl, hout⟩ := Checked.fit_eq_error_iff.mp h
    have hx : ¬ InRange x := by
      unfold InRange
      omega
    rw [← hf hx]
    exact error_singleton (hn.mpr hx)

end Judges

section Nodes

variable {vars : Variables} {operand left right : Expr} {signed : Bool}

theorem judges_literal (n : UInt64) :
    Judges vars [⟨integer n, false⟩] n.toNat (Checked.literal n) := by
  refine .fit ⟨fun h => ?_, fun h => .literal ?_⟩ fun _ => rfl
  · cases h with
    | literal hn =>
      unfold InRange
      omega
  · unfold InRange at h
    omega

theorem judges_negativeLiteral (n : UInt64) :
    Judges vars [⟨negation (integer n), signed⟩] (-n.toNat) (Checked.negativeLiteral n) := by
  refine .fit ⟨fun h => ?_, fun h => .negativeLiteral ?_⟩ fun _ => rfl
  · cases h with
    | negativeLiteral hn =>
      unfold InRange
      omega
    | negation hne _ => exact absurd rfl (hne n)
  · unfold InRange at h
    omega

theorem judges_negate (hne : ∀ n, operand ≠ integer n) {a : Int64}
    (ha : a.toInt = operand.exact vars) :
    Judges vars [⟨negation operand, signed⟩] (-operand.exact vars) (Checked.negate a) := by
  rw [Checked.negate, ha]
  refine .fit ⟨fun h => ?_, .negation hne⟩ fun _ => rfl
  cases h with
  | negativeLiteral _ => exact absurd rfl (hne _)
  | negation _ h => exact h

theorem power_eq_error {a b : Int64} {fault : Fault} (h : Checked.power a b = .error fault) :
    fault = .overflow := by
  unfold Checked.power at h
  split at h
  · exact (Checked.fit_eq_error_iff.mp h).1
  · exact (Except.error.inj h).symm

theorem judges_comparison {o : Operator} {value : Int64}
    (ho : o ∈ [Operator.equal, .less, .greater])
    (hv : value.toInt = o.exact (left.exact vars) (right.exact vars)) :
    Judges vars [⟨binary o left right, signed⟩] (o.exact (left.exact vars) (right.exact vars))
      (.ok value) := by
  refine .ok_singleton (fun h => ?_) hv
  cases h with
  | arithmetic ho' _ => cases o <;> simp at ho ho'
  | zeroDivisor _ | power _ => simp at ho

/-- An operator that narrows its exact result, and that has no fault of its own. -/
theorem judges_arithmetic {o : Operator} (ho : o ∈ [Operator.add, .subtract, .multiply]) :
    Judges vars [⟨binary o left right, signed⟩] (o.exact (left.exact vars) (right.exact vars))
      (Checked.fit (o.exact (left.exact vars) (right.exact vars))) := by
  have ho' : o ∈ [Operator.add, .subtract, .multiply, .divide] := List.mem_append_left [_] ho
  refine .fit ⟨fun h => ?_, .arithmetic ho'⟩ fun _ => ?_
  · cases h with
    | arithmetic _ h => exact h
    | zeroDivisor _ | power _ => simp at ho
  · cases o <;> simp at ho <;> rfl

theorem judges_divide {a b : Int64} (ha : a.toInt = left.exact vars)
    (hb : b.toInt = right.exact vars) :
    Judges vars [⟨binary .divide left right, signed⟩] ((left.exact vars).tdiv (right.exact vars))
      (Checked.divide a b) := by
  rw [Checked.divide, ha, hb]
  by_cases hzero : right.exact vars = 0
  · have hfault : Node.fault vars ⟨binary .divide left right, signed⟩ = .divisionByZero :=
      if_pos hzero
    rw [if_pos hzero, ← hfault]
    exact .error_singleton (.zeroDivisor hzero)
  · rw [if_neg hzero]
    refine .fit ⟨fun h => ?_, fun h => .arithmetic (o := .divide) (by decide) h⟩
      fun _ => if_neg hzero
    cases h with
    | arithmetic _ h => exact h
    | zeroDivisor h => exact absurd h hzero

theorem judges_power {a b : Int64} (ha : a.toInt = left.exact vars)
    (hb : b.toInt = right.exact vars) :
    Judges vars [⟨binary .power left right, signed⟩]
      (Operator.power.exact (left.exact vars) (right.exact vars)) (Checked.power a b) := by
  have ha' : Int64.ofInt (left.exact vars) = a := by rw [← ha, Int64.ofInt_toInt]
  have hb' : Int64.ofInt (right.exact vars) = b := by rw [← hb, Int64.ofInt_toInt]
  cases h : Checked.power a b with
  | ok value =>
    refine .ok_singleton (fun hfails => ?_) (by simp only [Operator.exact, ha', hb', h])
    cases hfails with
    | arithmetic ho _ => simp at ho
    | power herror =>
      rw [ha', hb', h] at herror
      cases herror
  | error fault =>
    have hfault : fault = Node.fault vars ⟨binary .power left right, signed⟩ := power_eq_error h
    rw [← ha', ← hb'] at h
    rw [hfault]
    exact .error_singleton (.power h)

theorem judges_apply (o : Operator) {a b : Int64} (ha : a.toInt = left.exact vars)
    (hb : b.toInt = right.exact vars) :
    Judges vars [⟨binary o left right, signed⟩] (o.exact (left.exact vars) (right.exact vars))
      (o.apply a b) := by
  cases o with
  | add =>
    rw [Operator.apply, Checked.add, ha, hb]
    exact judges_arithmetic (by decide)
  | subtract =>
    rw [Operator.apply, Checked.subtract, ha, hb]
    exact judges_arithmetic (by decide)
  | multiply =>
    rw [Operator.apply, Checked.multiply, ha, hb]
    exact judges_arithmetic (by decide)
  | divide => exact judges_divide ha hb
  | power => exact judges_power ha hb
  | equal =>
    refine judges_comparison (by decide) ?_
    rw [Checked.equal, Checked.toInt_truth, ha, hb, Operator.exact]
  | less =>
    refine judges_comparison (by decide) ?_
    rw [Checked.less, Checked.toInt_truth, ha, hb, Operator.exact]
  | greater =>
    refine judges_comparison (by decide) ?_
    rw [Checked.greater, Checked.toInt_truth, ha, hb, Operator.exact]

end Nodes

theorem judges_read (vars : Variables) (name : String) (signed : Bool) (ws : List Warning) :
    Judges vars [⟨var name, signed⟩] ((var name).exact vars) ((vars.read name).outcome ws).1 := by
  unfold Variables.read
  cases h : vars.get? name with
  | some value => exact .ok_singleton nofun (by simp [exact, h])
  | none => exact .ok_singleton nofun (by simp [exact, h])

/-- Evaluation is right at every depth. A literal that a minus sign stands on is left out, as it is
never evaluated by itself. -/
theorem judges_eval (vars : Variables) (e : Expr) (signed : Bool)
    (hs : signed = true → ∀ n, e ≠ integer n) (ws : List Warning) :
    Judges vars (e.nodesUnder signed) (e.exact vars) ((e.eval vars).outcome ws).1 := by
  induction e generalizing signed ws with
  | var name => exact judges_read vars name signed ws
  | integer n =>
    cases signed with
    | true => exact absurd rfl (hs rfl n)
    | false => exact judges_literal n
  | negation operand ih =>
    by_cases hint : ∃ n, operand = integer n
    · obtain ⟨n, rfl⟩ := hint
      have hunder : ∀ m ∈ [(⟨integer n, true⟩ : Node)], ¬ m.Fails vars := by
        intro m hm
        cases List.mem_singleton.mp hm
        nofun
      exact .append hunder (judges_negativeLiteral n)
    · have hne : ∀ n, operand ≠ integer n := not_exists.mp hint
      rw [eval.eq_4 vars operand hne]
      exact (ih true (fun _ => hne) ws).bind fun a found ha => judges_negate hne ha
  | identity operand ih => exact (ih false (by simp) ws).concat nofun
  | binary o left right ihl ihr =>
    rw [eval, nodesUnder, List.append_assoc]
    refine (ihl false (by simp) ws).bind fun a found ha => ?_
    exact (ihr false (by simp) found).bind fun b _ hb => judges_apply o ha hb

/-- Evaluation gives the exact value if no node fails, and otherwise the error of the first node
that does. -/
theorem eval_eq_exact (vars : Variables) (e : Expr) (ws : List Warning) :
    ((∃ v, ((e.eval vars).outcome ws).1 = .ok v) ↔ ∀ node ∈ e.nodes, ¬ node.Fails vars) ∧
    (∀ v, ((e.eval vars).outcome ws).1 = .ok v → v.toInt = e.exact vars) ∧
    (∀ before node after, e.nodes = before ++ node :: after →
      (∀ m ∈ before, ¬ m.Fails vars) → node.Fails vars →
      ∃ fault, ((e.eval vars).outcome ws).1 = .error fault ∧
        (fault.toError.kind = .divisionByZero ↔ node.DividesByZero vars) ∧
        (fault.toError.kind = .overflow ↔ ¬ node.DividesByZero vars) ∧
        fault.toError.line = none ∧ fault.toError.detail = "") := by
  have h : Judges vars e.nodes (e.exact vars) ((e.eval vars).outcome ws).1 :=
    judges_eval vars e false (by simp) ws
  refine ⟨⟨?_, fun hnone => ?_⟩, fun v hv => ?_, fun before node after hnodes hb hn => ?_⟩
  · rintro ⟨v, hv⟩
    rw [hv] at h
    exact h.1
  · cases hr : ((e.eval vars).outcome ws).1 with
    | ok v => exact ⟨v, rfl⟩
    | error fault =>
      rw [hr] at h
      obtain ⟨before, node, after, hnodes, _, hn, _⟩ := h
      exact absurd hn (hnone node (by simp [hnodes]))
  · rw [hv] at h
    exact h.2
  · rw [hnodes] at h
    refine ⟨node.fault vars, h.eq_error hb hn, ?_, ?_, Fault.line_toError _, Fault.detail_toError _⟩
    · rw [Fault.kind_toError_eq_divisionByZero_iff, Node.fault_eq_divisionByZero_iff]
    · rw [Fault.kind_toError_eq_overflow_iff, Ne, Node.fault_eq_divisionByZero_iff]

end Expr

end LineBasic
