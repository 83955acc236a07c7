import Mathlib
import LineBasic.Proofs.ExactValue

/-!
# Reading names that are not bound

A name that is not bound counts as zero, and each time one is read there is a warning. Evaluation
visits the nodes of an expression in a fixed order up to the first one that fails, so the warnings
are those of the names among the nodes visited before: of all names of the expression if no node
fails, and of the ones to the left of the failing node otherwise.
-/
namespace LineBasic

namespace Variables

/-- One warning for each of the names that is not bound, in order and with repetitions. -/
def warnings (vars : Variables) (names : List String) : List Warning :=
  (names.filter fun name => (vars.get? name).isNone).map .unknownVariable

/-- Binds those of the names that are not bound to zero. -/
def fill (vars : Variables) (names : List String) : Variables :=
  names.foldl (fun filled name =>
    if (filled.get? name).isSome then filled else filled.insert name 0) vars

theorem warnings_append (vars : Variables) (names names' : List String) :
    vars.warnings (names ++ names') = vars.warnings names ++ vars.warnings names' := by
  simp [warnings]

theorem warnings_of_bound {vars : Variables} {names : List String}
    (h : ∀ name ∈ names, vars.get? name ≠ none) : vars.warnings names = [] := by
  rw [warnings, List.map_eq_nil_iff, List.filter_eq_nil_iff]
  intro name hname
  simpa using h name hname

theorem get?_fill (vars : Variables) (names : List String) (name : String) :
    (vars.fill names).get? name =
      if name ∈ names ∧ vars.get? name = none then some 0 else vars.get? name := by
  induction names generalizing vars with
  | nil => simp [fill]
  | cons first rest ih =>
    have hstep : vars.fill (first :: rest) =
        (if (vars.get? first).isSome then vars else vars.insert first 0).fill rest := rfl
    rw [hstep, ih]
    cases hfirst : vars.get? first with
    | some value =>
      by_cases hname : name = first
      · simp [hname, hfirst]
      · simp [hname]
    | none =>
      by_cases hname : name = first
      · simp [hname, hfirst, get?_insert]
      · simp [hname, get?_insert]

end Variables

namespace Expr

/-! ## The names that were read -/

namespace Node

def name? (node : Node) : Option String :=
  match node.expr with
  | var name => some name
  | _ => none

def names (nodes : List Node) : List String :=
  nodes.filterMap name?

theorem names_append (nodes nodes' : List Node) :
    names (nodes ++ nodes') = names nodes ++ names nodes' :=
  List.filterMap_append

section Passed

variable [PowerRoutine]

/-- The nodes that do not fail, up to the first one that does. -/
noncomputable def passed (vars : Variables) (nodes : List Node) : List Node :=
  open scoped Classical in nodes.takeWhile fun node => !decide (node.Fails vars)

variable {vars : Variables} {visited more : List Node} {node : Node}

theorem passed_of_unfailing (h : ∀ m ∈ visited, ¬ m.Fails vars) :
    passed vars visited = visited := by
  rw [passed, List.takeWhile_eq_self_iff]
  simpa using h

theorem passed_append_of_unfailing (h : ∀ m ∈ visited, ¬ m.Fails vars) :
    passed vars (visited ++ more) = visited ++ passed vars more := by
  rw [passed, List.takeWhile_append_of_pos (by simpa using h)]
  rfl

theorem passed_of_first {before after : List Node} (hb : ∀ m ∈ before, ¬ m.Fails vars)
    (hn : node.Fails vars) : passed vars (before ++ node :: after) = before := by
  rw [passed_append_of_unfailing hb, passed, List.takeWhile_cons_of_neg (by simpa using hn),
    List.append_nil]

theorem passed_append_of_failing (h : ∃ m ∈ visited, m.Fails vars) :
    passed vars (visited ++ more) = passed vars visited := by
  obtain ⟨m, hm, hfails⟩ := h
  unfold passed
  rw [List.takeWhile_append, if_neg]
  intro hlength
  have hself := (List.takeWhile_sublist _).eq_of_length hlength
  rw [List.takeWhile_eq_self_iff] at hself
  simpa [hfails] using hself m hm

/-- The warnings of an evaluation that visits the nodes in order. -/
noncomputable def warned (vars : Variables) (visited : List Node) : List Warning :=
  vars.warnings (names (passed vars visited))

theorem warned_of_nameless (h : node.name? = none) : warned vars [node] = [] := by
  by_cases hn : node.Fails vars <;> simp [warned, passed, hn, names, h, Variables.warnings]

theorem warned_append_of_unfailing (h : ∀ m ∈ visited, ¬ m.Fails vars) :
    warned vars (visited ++ more) = warned vars visited ++ warned vars more := by
  rw [warned, passed_append_of_unfailing h, names_append, Variables.warnings_append, warned,
    passed_of_unfailing h]
  rfl

theorem warned_append_of_failing (h : ∃ m ∈ visited, m.Fails vars) :
    warned vars (visited ++ more) = warned vars visited := by
  rw [warned, passed_append_of_failing h]
  rfl

theorem warned_concat (h : node.name? = none) :
    warned vars (visited ++ [node]) = warned vars visited := by
  by_cases hv : ∃ m ∈ visited, m.Fails vars
  · exact warned_append_of_failing hv
  · rw [warned_append_of_unfailing (by simpa using hv), warned_of_nameless h, List.append_nil]

end Passed

end Node

open Node

theorem names_nodesUnder (e : Expr) (signed : Bool) :
    Node.names (e.nodesUnder signed) = e.names := by
  induction e generalizing signed with
  | var name | integer n => rfl
  | negation operand ih | identity operand ih =>
    rw [nodesUnder, names_append, ih]
    exact List.append_nil _
  | binary o left right ihl ihr =>
    rw [nodesUnder, names_append, names_append, ihl, ihr]
    exact List.append_nil _

/-! ## Warnings of an evaluation -/

section Warnings

variable [PowerRoutine]

theorem Judges.exists_failing {vars : Variables} {visited : List Node} {x : Int} {fault : Fault}
    (h : Judges vars visited x (.error fault)) : ∃ m ∈ visited, m.Fails vars := by
  obtain ⟨before, node, after, rfl, _, hn, _⟩ := h
  exact ⟨node, by simp, hn⟩

theorem warnings_bind {vars : Variables} {m : Eval Fault Int64} {f : Int64 → Eval Fault Int64}
    {visited more : List Node} {x : Int} {ws : List Warning}
    (hm : Judges vars visited x (m.outcome ws).1)
    (hw : (m.outcome ws).2 = ws ++ warned vars visited)
    (hf : ∀ a found, ((f a).outcome found).2 = found ++ warned vars more) :
    ((m >>= f).outcome ws).2 = ws ++ warned vars (visited ++ more) := by
  rw [Eval.outcome_bind]
  cases hout : m.outcome ws with
  | mk r found =>
    rw [hout] at hm hw
    cases r with
    | ok a =>
      rw [warned_append_of_unfailing hm.1, ← List.append_assoc, ← hw]
      exact hf a found
    | error fault =>
      rw [warned_append_of_failing hm.exists_failing]
      exact hw

theorem warnings_read (vars : Variables) (name : String) (signed : Bool) (ws : List Warning) :
    ((vars.read name).outcome ws).2 = ws ++ warned vars [⟨var name, signed⟩] := by
  have hpassed : passed vars [⟨var name, signed⟩] = [⟨var name, signed⟩] := by
    apply passed_of_unfailing
    intro m hm
    cases List.mem_singleton.mp hm
    nofun
  rw [warned, hpassed]
  unfold Variables.read
  cases h : vars.get? name with
  | some value => simp [Variables.warnings, Node.names, name?, h]
  | none =>
    rw [Eval.outcome_bind]
    simp [Variables.warnings, Node.names, name?, h]

theorem warnings_eval (vars : Variables) (e : Expr) (signed : Bool) (ws : List Warning) :
    ((e.eval vars).outcome ws).2 = ws ++ warned vars (e.nodesUnder signed) := by
  induction e using eval.induct generalizing signed ws with
  | case1 name => exact warnings_read vars name signed ws
  | case2 n =>
    rw [nodesUnder, warned_of_nameless rfl, List.append_nil]
    rfl
  | case3 n =>
    rw [nodesUnder, warned_concat rfl, nodesUnder, warned_of_nameless rfl, List.append_nil]
    rfl
  | case4 operand hne ih =>
    rw [eval.eq_4 vars operand hne, nodesUnder]
    apply warnings_bind (judges_eval vars operand true (fun _ => hne) ws) (ih true ws)
    intro a found
    rw [warned_of_nameless rfl, List.append_nil]
    rfl
  | case5 operand ih =>
    rw [nodesUnder, warned_concat rfl]
    exact ih false ws
  | case6 o left right ihl ihr =>
    rw [eval, nodesUnder, List.append_assoc]
    apply warnings_bind (judges_eval vars left false (by simp) ws) (ihl false ws)
    intro a found
    apply warnings_bind (judges_eval vars right false (by simp) found) (ihr false found)
    intro b found
    rw [warned_of_nameless rfl, List.append_nil]
    rfl

/-- Where no node fails, there is a warning for each name that is not bound. -/
theorem warned_nodes (vars : Variables) (e : Expr) (h : ∀ node ∈ e.nodes, ¬ node.Fails vars) :
    warned vars e.nodes = vars.warnings e.names := by
  rw [warned, passed_of_unfailing h, nodes, names_nodesUnder]

theorem warned_isPrefix (vars : Variables) (e : Expr) :
    warned vars e.nodes <+: vars.warnings e.names := by
  have hpassed : passed vars e.nodes <+: e.nodes := List.takeWhile_prefix _
  have hnames := (hpassed.filterMap name?).filter fun name => (vars.get? name).isNone
  rw [← names_nodesUnder e false]
  exact hnames.map _

end Warnings

/-! ## The result of an evaluation -/

section Result

theorem result_bind {m m' : Eval Fault Int64} {f f' : Int64 → Eval Fault Int64}
    {ws ws' : List Warning}
    (hm : (m'.outcome ws').1 = (m.outcome ws).1)
    (hf : ∀ a found found', ((f' a).outcome found').1 = ((f a).outcome found).1) :
    ((m' >>= f').outcome ws').1 = ((m >>= f).outcome ws).1 := by
  rw [Eval.outcome_bind, Eval.outcome_bind]
  cases hout : m.outcome ws with
  | mk r found =>
    cases hout' : m'.outcome ws' with
    | mk r' found' =>
      rw [hout, hout'] at hm
      cases hm
      cases r with
      | ok a => exact hf a found found'
      | error fault => rfl

theorem result_read (vars : Variables) (name : String) (ws : List Warning) :
    ((vars.read name).outcome ws).1 = .ok ((vars.get? name).getD 0) := by
  unfold Variables.read
  cases vars.get? name <;> rfl

variable [PowerRoutine] {vars vars' : Variables}

/-- The result depends on nothing but the values of the names, where a name that is not bound
counts as zero. -/
theorem result_eval (e : Expr)
    (h : ∀ name ∈ e.names, (vars'.get? name).getD 0 = (vars.get? name).getD 0)
    (ws ws' : List Warning) : ((e.eval vars').outcome ws').1 = ((e.eval vars).outcome ws).1 := by
  induction e using eval.induct generalizing ws ws' with
  | case1 name => rw [eval, eval, result_read, result_read, h name (by simp [names])]
  | case2 n | case3 n => rfl
  | case4 operand hne ih =>
    rw [eval.eq_4 vars operand hne, eval.eq_4 vars' operand hne]
    exact result_bind (ih h ws ws') fun _ _ _ => rfl
  | case5 operand ih => exact ih h ws ws'
  | case6 o left right ihl ihr =>
    have hleft := ihl fun name hname => h name (List.mem_append_left _ hname)
    have hright := ihr fun name hname => h name (List.mem_append_right _ hname)
    rw [eval, eval]
    apply result_bind (hleft ws ws')
    intro a found found'
    exact result_bind (hright found found') fun _ _ _ => rfl

theorem eval_congr (e : Expr) (h : ∀ name ∈ e.names, vars'.get? name = vars.get? name) :
    e.eval vars' = e.eval vars := by
  induction e using eval.induct with
  | case1 name => rw [eval, eval, Variables.read, Variables.read, h name (by simp [names])]
  | case2 n | case3 n => rfl
  | case4 operand hne ih => rw [eval.eq_4 vars operand hne, eval.eq_4 vars' operand hne, ih h]
  | case5 operand ih => exact ih h
  | case6 o left right ihl ihr =>
    have hleft := ihl fun name hname => h name (List.mem_append_left _ hname)
    have hright := ihr fun name hname => h name (List.mem_append_right _ hname)
    rw [eval, eval, hleft, hright]

theorem outcome_fill (vars : Variables) (e : Expr) (ws : List Warning) :
    (e.eval (vars.fill e.names)).outcome ws = (((e.eval vars).outcome ws).1, ws) := by
  have hbound : ∀ name ∈ e.names,
      (vars.fill e.names).get? name = some ((vars.get? name).getD 0) := by
    intro name hname
    rw [Variables.get?_fill]
    cases vars.get? name <;> simp [hname]
  apply Prod.ext
  · apply result_eval
    intro name hname
    rw [hbound name hname]
    rfl
  · have hnone : (vars.fill e.names).warnings e.names = [] := by
      apply Variables.warnings_of_bound
      intro name hname
      rw [hbound name hname]
      simp
    have hwarned := warned_isPrefix (vars.fill e.names) e
    rw [hnone, List.prefix_nil] at hwarned
    rw [warnings_eval _ e false ws]
    exact List.append_right_eq_self.mpr hwarned

theorem evaluate_eq (vars : Variables) (e : Expr) (ws : List Warning) :
    e.evaluate vars =
      ((e.eval vars).outcome ws).1.map fun value => (value, warned vars e.nodes) := by
  have hwarnings := warnings_eval vars e false []
  rw [result_eval e (fun _ _ => rfl) [] ws, evaluate]
  rw [List.nil_append] at hwarnings
  cases hout : (e.eval vars).outcome [] with
  | mk r found =>
    rw [hout] at hwarnings
    cases hwarnings
    cases r <;> rfl

end Result

/-- Evaluation adds its warnings behind those it finds: one for each time a name that is not bound
occurs, from left to right, or those of the nodes before the first one that fails. The result is the
same where the names that are not bound are bound to zero, and then there is no warning. Names that
do not occur make no difference. -/
theorem warns_of_unbound_reads [PowerRoutine] (vars : Variables) (e : Expr) (ws : List Warning) :
    ∃ added, ((e.eval vars).outcome ws).2 = ws ++ added ∧
      (∀ value, ((e.eval vars).outcome ws).1 = .ok value → added = vars.warnings e.names) ∧
      (∀ fault, ((e.eval vars).outcome ws).1 = .error fault →
        added <+: vars.warnings e.names ∧
        ∃ before node after, e.nodes = before ++ node :: after ∧
          (∀ m ∈ before, ¬ m.Fails vars) ∧ node.Fails vars ∧
          e.names = Node.names before ++ Node.names (node :: after) ∧
          added = vars.warnings (Node.names before)) ∧
      (e.eval (vars.fill e.names)).outcome ws = (((e.eval vars).outcome ws).1, ws) ∧
      (∀ name, (vars.fill e.names).get? name =
        if name ∈ e.names ∧ vars.get? name = none then some 0 else vars.get? name) ∧
      (∀ vars' : Variables, (∀ name ∈ e.names, vars'.get? name = vars.get? name) →
        (e.eval vars').outcome ws = (e.eval vars).outcome ws) ∧
      e.evaluate vars = ((e.eval vars).outcome ws).1.map fun value => (value, added) := by
  have hjudges : Judges vars e.nodes (e.exact vars) ((e.eval vars).outcome ws).1 :=
    judges_eval vars e false (by simp) ws
  refine ⟨warned vars e.nodes, warnings_eval vars e false ws, ?_, ?_, outcome_fill vars e ws,
    vars.get?_fill e.names, ?_, evaluate_eq vars e ws⟩
  · intro value hvalue
    rw [hvalue] at hjudges
    exact warned_nodes vars e hjudges.1
  · intro fault hfault
    rw [hfault] at hjudges
    obtain ⟨before, node, after, hnodes, hb, hn, _⟩ := hjudges
    refine ⟨warned_isPrefix vars e, before, node, after, hnodes, hb, hn, ?_, ?_⟩
    · rw [← names_append, ← hnodes, nodes, names_nodesUnder]
    · rw [warned, hnodes, passed_of_first hb hn]
  · intro vars' hvars
    rw [eval_congr e hvars]

/-- A name that occurs twice is warned of twice, and a name behind a division by zero is not warned
of at all. -/
theorem warns_of_unbound_reads_left_of_division :
    let vars := Variables.empty.insert "A" 5
    let sum : Expr := .binary .add (.var "B") (.binary .multiply (.var "B") (.var "A"))
    let ratio : Expr := .binary .add sum
      (.binary .multiply (.binary .divide (.var "C") (.integer 0)) (.var "D"))
    ((sum.eval vars).outcome [.unknownVariable "Z"]).2 =
        .unknownVariable "Z" :: vars.warnings ["B", "B", "A"] ∧
      vars.warnings ["B", "B", "A"] = [.unknownVariable "B", .unknownVariable "B"] ∧
      (∃ before node after, ratio.nodes = before ++ node :: after ∧ node.Fails vars ∧
        ((ratio.eval vars).outcome []).2 = vars.warnings (Node.names before)) ∧
      ((ratio.eval vars).outcome []).2 =
        [.unknownVariable "B", .unknownVariable "B", .unknownVariable "C"] ∧
      (ratio.eval (vars.insert "E" 7)).outcome [] = (ratio.eval vars).outcome [] := by
  intro vars sum ratio
  have hsum : ((sum.eval vars).outcome [.unknownVariable "Z"]).1 = .ok 0 := by cbv
  have hratio : ((ratio.eval vars).outcome []).1 = .error .divisionByZero := by cbv
  obtain ⟨added, hadded, hok, _⟩ := warns_of_unbound_reads vars sum [.unknownVariable "Z"]
  obtain ⟨added', hadded', _, hfails, _, _, hcongr, _⟩ := warns_of_unbound_reads vars ratio []
  obtain ⟨_, before, node, after, hnodes, _, hn, _, hbefore⟩ := hfails _ hratio
  refine ⟨?_, by cbv, ⟨before, node, after, hnodes, hn, ?_⟩, by cbv, ?_⟩
  · rw [hadded, hok 0 hsum]
    rfl
  · rw [hadded', hbefore]
    rfl
  · apply hcongr
    intro name hname
    rw [Variables.get?_insert, if_neg]
    rintro rfl
    revert hname
    decide

end Expr

end LineBasic
