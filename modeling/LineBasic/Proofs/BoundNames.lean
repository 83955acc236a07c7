import Mathlib
import LineBasic.Proofs.AbortedRuns
import LineBasic.Proofs.Interruption
import LineBasic.Proofs.UnboundReads

/-!
# Names that have been bound

No name is unbound in the course of a run, so a statement never warns of a name that was bound
before it. But warnings are handed over late: those of an assignment wait in the queue while the
name they complain of is bound already. So the end of the complaints is not where a name is bound,
but where the event that closes the assignment is handed over, or where a typed value is taken.
-/
namespace LineBasic

/-! ## One statement -/

namespace Expr

theorem unknownVariable_not_mem [PowerRoutine] {vars : Variables} {e : Expr} {name : String}
    {r : Except Fault Int64} {ws : List Warning} (h : (e.eval vars).outcome [] = (r, ws))
    (hbound : vars.get? name ≠ none) : .unknownVariable name ∉ ws := by
  intro hmem
  have hws : ws = Node.warned vars e.nodes := by
    have hwarnings := warnings_eval vars e false []
    rwa [h] at hwarnings
  rw [hws] at hmem
  have hwarned := (warned_isPrefix vars e).subset hmem
  obtain ⟨other, hother, heq⟩ := List.mem_map.mp hwarned
  cases heq
  obtain ⟨_, hunbound⟩ := List.mem_filter.mp hother
  exact hbound (Option.isNone_iff_eq_none.mp hunbound)

end Expr

theorem Variables.insert_bound {vars : Variables} {name : String} (h : vars.get? name ≠ none)
    (other : String) (value : Int64) : (vars.insert other value).get? name ≠ none := by
  rw [get?_insert]
  split
  · simp
  · exact h

section

variable [PowerRoutine]

namespace Statement.Does

variable {vars : Variables} {statement : Statement} {result : Except Failure (Flow × Variables)}
variable {ws : List Warning} {name : String}

theorem unknownVariable_not_mem (h : statement.Does vars result ws)
    (hbound : vars.get? name ≠ none) : .unknownVariable name ∉ ws := by
  cases h with
  | remark _ | input _ | goto _ | stop => simp
  | assign he | assignFails he | print he | printFails he | branchTaken he _ | branchPassed he _
  | branchFails he => exact Expr.unknownVariable_not_mem he hbound

theorem keep_bound (h : statement.Does vars result ws) (hbound : vars.get? name ≠ none) :
    (Reference.varsAfter result).get? name ≠ none := by
  cases h with
  | assign _ => exact Variables.insert_bound hbound _ _
  | _ => exact hbound

end Statement.Does

/-- A group of events warns of no name that is bound, and unbinds none. -/
theorem Reference.Yields.bound {r r' : Reference} {es : List Event} (h : r.Yields es r')
    {name : String} (hbound : r.vars.get? name ≠ none) :
    .warning (.unknownVariable name) ∉ es ∧ r'.vars.get? name ≠ none := by
  cases h with
  | idle _ | finished _ | awaits _ | ends _ _ => exact ⟨by simp, hbound⟩
  | @executes number _ result ws _ _ hdoes =>
    refine ⟨?_, hdoes.keep_bound hbound⟩
    intro hmem
    rcases List.mem_append.mp hmem with hmem | hmem
    · obtain ⟨w, hw, heq⟩ := List.mem_map.mp hmem
      cases heq
      exact hdoes.unknownVariable_not_mem hbound hw
    · have hcloses := closes_closing number result
      rw [← List.mem_singleton.mp hmem] at hcloses
      exact hcloses

/-! ## Moments of a run -/

/-- A call in the course of a run, with the machine that it finds. -/
structure Moment where
  machine : Machine
  call : Call

namespace Moment

def after (moment : Moment) : Machine :=
  (moment.machine.answer moment.call).2

def event? (moment : Moment) : Option Event :=
  match moment.call with
  | .step => some moment.machine.step.1
  | .input _ => none

def events (moments : List Moment) : List Event :=
  moments.filterMap event?

theorem events_append (moments moments' : List Moment) :
    events (moments ++ moments') = events moments ++ events moments' :=
  List.filterMap_append

theorem queue_after (moment : Moment)
    (h : (events [moment]).length ≤ moment.machine.queue.length) :
    moment.after.queue = moment.machine.queue.drop (events [moment]).length := by
  obtain ⟨m, call⟩ := moment
  cases call with
  | input s => exact Machine.queue_input m s
  | step =>
    cases hqueue : m.queue with
    | nil =>
      rw [hqueue] at h
      cases h
    | cons e rest =>
      simp [after, Machine.answer, Machine.step_of_queue_cons hqueue, events, event?]

end Moment

namespace Steps

/-- The steps that up to `n` events of a sequence are taken with. -/
def moments : Nat → Steps → List Moment
  | 0, _ => []
  | n + 1, s => if s.done then [] else ⟨s.machine, .step⟩ :: moments n s.next.2

variable {s : Steps}

theorem machine_next (h : s.done = false) : s.next.2.machine = s.machine.step.2 := by
  rw [next, if_neg (by simp [h])]
  split <;> simp_all

theorem done_of_next (h : s.next.1 = none) : s.next.2.done = true := by
  unfold next at h ⊢
  split
  · assumption
  · rename_i hdone
    rw [if_neg hdone] at h
    split <;> simp_all

theorem collect_eq (n : Nat) (s : Steps) : s.collect (n + 1) =
    (s.next.1.toList ++ (s.next.2.collect n).1, (s.next.2.collect n).2) := by
  have hdone := done_of_next (s := s)
  rw [collect]
  cases hnext : s.next with
  | mk event after =>
    rw [hnext] at hdone
    cases event with
    | none => simp [collect_of_done (hdone rfl)]
    | some e => rfl

end Steps

end

namespace Machine

section

variable [PowerRoutine]

/-- The calls that an operation makes. Edits make none. -/
def momentsOf (m : Machine) : Operation → List Moment
  | .step => [⟨m, .step⟩]
  | .input s => [⟨m, .input s⟩]
  | .steps n => (Steps.of m).moments n
  | _ => []

/-- The calls that operations make, one after the other. -/
def moments (m : Machine) : List Operation → List Moment
  | [] => []
  | op :: ops => m.momentsOf op ++ (m.perform op).2.moments ops

/-- The moments follow one another on the way from one machine to the other, with nothing between
them but edits of the listing. -/
inductive Leads : Machine → List Moment → Machine → Prop
  | edit (m : Machine) (p : Program) : Leads m [] (m.setListing p)
  | call {m last moment rest} (p : Program) : moment.machine = m.setListing p →
      Leads moment.after rest last → Leads m (moment :: rest) last

namespace Leads

variable {m middle last : Machine} {before later : List Moment} {moment : Moment}

theorem refl (m : Machine) : Leads m [] m :=
  .edit m m.listing

theorem single (m : Machine) (call : Call) : Leads m [⟨m, call⟩] (m.answer call).2 :=
  .call m.listing rfl (.refl _)

theorem of_setListing {p : Program} (h : Leads (m.setListing p) later last) :
    Leads m later last := by
  cases h with
  | edit _ q => exact .edit m q
  | call q hfound hrest => exact .call q hfound hrest

theorem append (h : Leads m before middle) (h' : Leads middle later last) :
    Leads m (before ++ later) last := by
  induction h with
  | edit m p => exact h'.of_setListing
  | call p hfound _ ih => exact .call p hfound (ih h')

theorem split (h : Leads m (before ++ later) last) :
    ∃ middle, Leads m before middle ∧ Leads middle later last := by
  induction before generalizing m with
  | nil => exact ⟨m, .refl m, h⟩
  | cons first before ih =>
    cases h with
    | call p hfound hrest =>
      obtain ⟨middle, hbefore, hlater⟩ := ih hrest
      exact ⟨middle, .call p hfound hbefore, hlater⟩

theorem preserves {P : Machine → Prop} (hlisting : ∀ m p, P m → P (m.setListing p))
    (hstep : ∀ m, P m → P m.step.2) (hinput : ∀ m s, P m → P (m.input s).2)
    (h : Leads m later last) (hm : P m) : (∀ moment ∈ later, P moment.machine) ∧ P last := by
  induction h with
  | edit m p => exact ⟨by simp, hlisting m p hm⟩
  | @call m last moment rest p hfound _ ih =>
    have hmachine : P moment.machine := hfound ▸ hlisting m p hm
    have hafter : P moment.after := by
      unfold Moment.after
      cases moment.call with
      | step => exact hstep _ hmachine
      | input s => exact hinput _ s hmachine
    obtain ⟨hrest, hlast⟩ := ih hafter
    refine ⟨?_, hlast⟩
    intro other hother
    rcases List.mem_cons.mp hother with rfl | hother
    · exact hmachine
    · exact hrest other hother

/-- As long as the queue lasts, the events that are handed over come from it. -/
theorem queue_eq_drop (h : Leads m later last)
    (hlength : (Moment.events later).length ≤ m.queue.length) :
    last.queue = m.queue.drop (Moment.events later).length := by
  induction h with
  | edit m p => rfl
  | @call m last moment rest p hfound hrest ih =>
    have hqueue : moment.machine.queue = m.queue := by rw [hfound]; rfl
    rw [← List.singleton_append, Moment.events_append, List.length_append] at hlength ⊢
    rw [← hqueue] at hlength ⊢
    have hafter := moment.queue_after (by omega)
    rw [hafter, List.length_drop, List.drop_drop] at ih
    exact ih (by omega)

end Leads

theorem leads_steps (n : Nat) (s : Steps) :
    Leads s.machine (s.moments n) (s.collect n).2.machine := by
  induction n generalizing s with
  | zero => exact .refl _
  | succ n ih =>
    cases hdone : s.done with
    | true =>
      rw [Steps.collect_of_done hdone, Steps.moments, if_pos hdone]
      exact .refl _
    | false =>
      rw [Steps.collect_eq, Steps.moments, if_neg (by simp [hdone])]
      have hrest := ih s.next.2
      rw [Steps.machine_next hdone] at hrest
      exact .call s.machine.listing rfl hrest

theorem leads_momentsOf {op : Operation} (h : op.KeepsRun) (m : Machine) :
    Leads m (m.momentsOf op) (m.perform op).2 := by
  cases op with
  | start | interrupt => exact absurd h id
  | enter s => exact .edit m _
  | load lines => exact .edit m _
  | clear => exact .edit m _
  | setListing p => exact .edit m p
  | input s => exact .single m (.input s)
  | step => exact .single m .step
  | steps n => exact leads_steps n (Steps.of m)

theorem leads_moments {ops : List Operation} (h : ∀ op ∈ ops, op.KeepsRun) (m : Machine) :
    Leads m (m.moments ops) (m.performAll ops).2 := by
  induction ops generalizing m with
  | nil => exact .refl m
  | cons op ops ih =>
    obtain ⟨hop, hops⟩ := List.forall_mem_cons.mp h
    exact (leads_momentsOf hop m).append (ih hops _)

end

/-! ## The events of the moments -/

namespace Active

variable {m : Machine}

theorem setListing (h : m.Active) (p : Program) : (m.setListing p).Active :=
  ⟨⟨h.invariant.run, h.invariant.queue⟩, h.phase⟩

theorem leads [PowerRoutine] {last : Machine} {moments : List Moment} (h : m.Active)
    (hleads : Leads m moments last) : (∀ moment ∈ moments, moment.machine.Active) ∧ last.Active :=
  hleads.preserves (fun _ p h => h.setListing p) (fun _ h => h.step) (fun _ s h => h.input s) h

end Active

section

variable [PowerRoutine]

theorem events_steps (n : Nat) (s : Steps) (h : s.machine.Active) :
    Moment.events (s.moments n) = (s.collect n).1 := by
  induction n generalizing s with
  | zero => rfl
  | succ n ih =>
    cases hdone : s.done with
    | true => rw [Steps.collect_of_done hdone, Steps.moments, if_pos hdone]; rfl
    | false =>
      have hnext := Steps.next_of_ne_idle hdone (h.invariant.step_ne_idle h.phase)
      have hrest := ih s.next.2 (by rw [hnext]; exact h.step)
      rw [Steps.collect_eq, Steps.moments, if_neg (by simp [hdone]), ← hrest, hnext]
      rfl

theorem events_momentsOf (op : Operation) {m : Machine} (h : m.Active) :
    Moment.events (m.momentsOf op) = (m.perform op).1.pulled := by
  cases op with
  | steps n => exact events_steps n (Steps.of m) h
  | _ => rfl

theorem events_moments {ops : List Operation} (hops : ∀ op ∈ ops, op.KeepsRun) {m : Machine}
    (h : m.Active) :
    Moment.events (m.moments ops) = (m.performAll ops).1.flatMap Answer.pulled := by
  induction ops generalizing m with
  | nil => rfl
  | cons op ops ih =>
    obtain ⟨hop, hrest⟩ := List.forall_mem_cons.mp hops
    have hnext : (m.perform op).2.Active := (h.leads (leads_momentsOf hop m)).2
    rw [moments, Moment.events_append, events_momentsOf op h, ih hrest hnext]
    rfl

end

/-! ## Names of which no more is told -/

section Bound

variable {m last : Machine} {name : String} {later : List Moment}

theorem bound_input (h : m.vars.get? name ≠ none) (s : String) :
    (m.input s).2.vars.get? name ≠ none := by
  unfold input
  split
  · exact Variables.insert_bound h _ _
  · exact h

theorem bound_step [PowerRoutine] (h : m.vars.get? name ≠ none) :
    m.step.2.vars.get? name ≠ none := by
  cases hqueue : m.queue with
  | nil =>
    obtain ⟨_, href⟩ := step_of_queue_nil hqueue
    have hbound := (m.reference.yields_group.bound h).2
    rw [← href] at hbound
    exact hbound
  | cons e rest =>
    rw [step_of_queue_cons hqueue]
    exact h

theorem Leads.bound [PowerRoutine] (hleads : Leads m later last) (h : m.vars.get? name ≠ none) :
    last.vars.get? name ≠ none :=
  (hleads.preserves (P := fun m => m.vars.get? name ≠ none) (fun _ _ h => h) (fun _ => bound_step)
    (fun _ s h => bound_input h s) h).2

end Bound

/-- The name is bound, and no warning about it waits in the queue. -/
structure Settled (name : String) (m : Machine) : Prop where
  bound : m.vars.get? name ≠ none
  untold : .warning (.unknownVariable name) ∉ m.queue

namespace Settled

variable {name : String} {m : Machine}

theorem setListing (h : Settled name m) (p : Program) : Settled name (m.setListing p) :=
  ⟨h.bound, h.untold⟩

theorem input (h : Settled name m) (s : String) : Settled name (m.input s).2 :=
  ⟨bound_input h.bound s, by rw [queue_input]; exact h.untold⟩

theorem step [PowerRoutine] (h : Settled name m) :
    m.step.1 ≠ .warning (.unknownVariable name) ∧ Settled name m.step.2 := by
  have htold : .warning (.unknownVariable name) ∉ m.step.1 :: m.step.2.queue := by
    cases hqueue : m.queue with
    | nil =>
      obtain ⟨hgroup, _⟩ := step_of_queue_nil hqueue
      rw [← hgroup]
      exact (m.reference.yields_group.bound h.bound).1
    | cons e rest =>
      rw [step_of_queue_cons hqueue, ← hqueue]
      exact h.untold
  rw [List.mem_cons, not_or] at htold
  exact ⟨Ne.symm htold.1, bound_step h.bound, htold.2⟩

theorem leads [PowerRoutine] (h : Settled name m) {later : List Moment} {last : Machine}
    (hleads : Leads m later last) : .warning (.unknownVariable name) ∉ Moment.events later := by
  intro hmem
  obtain ⟨⟨machine, call⟩, hmoment, hevent⟩ := List.mem_filterMap.mp hmem
  have hsettled : Settled name machine :=
    (hleads.preserves (fun _ p h => h.setListing p) (fun _ h => h.step.2) (fun _ s h => h.input s)
      h).1 _ hmoment
  cases call with
  | input s => cases hevent
  | step => exact hsettled.step.1 (Option.some.inj hevent)

theorem of_taken {s : String} {pc : Option LineNumber} (h : m.Active)
    (hphase : m.phase = .awaiting name pc) (htaken : (m.input s).1 = true) :
    Settled name (m.input s).2 := by
  have hqueue : m.queue = [] := h.invariant.queue_eq_nil (.inr (by rw [hphase]; rfl))
  refine ⟨?_, by rw [queue_input, hqueue]; simp⟩
  unfold Machine.input at htaken ⊢
  rw [hphase] at htaken ⊢
  cases hvalue : typedValue? s with
  | none => simp [hvalue] at htaken
  | some value => simp [Variables.get?_insert]

end Settled

structure Executes (m : Machine) (statement : Statement) : Prop where
  queue : m.queue = []
  line : ∃ number, m.phase = .running (some number) ∧
    m.snapshot.statement? number = some statement

section

variable [PowerRoutine]

/-- An assignment binds its name at once, while all but the first of its events wait in the
queue. -/
theorem Executes.step_assign {m : Machine} {name : String} {e : Expr} {value : Int64}
    {ws : List Warning} (h : m.Executes (.assign name e))
    (heval : (e.eval m.vars).outcome [] = (.ok value, ws)) :
    m.step.2.vars.get? name ≠ none ∧ m.step.2.queue.length = ws.length := by
  obtain ⟨number, hphase, hstatement⟩ := h.line
  have hturn : Turn.take m.snapshot m.vars (some number) =
      ⟨ws, .running, .running (m.snapshot.after? number), m.vars.insert name value⟩ := by
    rw [Turn.take_of_statement hstatement, Turn.execute, Statement.outcome_run_assign heval]
  obtain ⟨hevents, href⟩ := m.settle_eq (.take m.snapshot m.vars (some number))
  rw [← step_of_running h.queue hphase, hturn] at hevents href
  constructor
  · have hvars : m.step.2.vars = m.vars.insert name value := congrArg Reference.vars href
    rw [hvars, Variables.get?_insert, if_pos rfl]
    simp
  · have hlength := congrArg List.length hevents
    simpa using hlength.symm

/-- With the moment a name has been bound, and nothing of it is left to tell: a value for the name
is taken, or the event that closes an assignment is handed over. The assignment was executed at
this moment or at one before it, with its warnings handed over since. -/
inductive Binds (name : String) (before : List Moment) (moment : Moment) : Prop
  | taken {s pc} : moment.call = .input s → moment.machine.phase = .awaiting name pc →
      (moment.machine.input s).1 = true → Binds name before moment
  | closed {earlier first others e value ws} : before ++ [moment] = earlier ++ first :: others →
      first.call = .step → first.machine.Executes (.assign name e) →
      (e.eval first.machine.vars).outcome [] = (.ok value, ws) →
      moment.call = .step → Moment.events (first :: others) = ws.map .warning ++ [.running] →
      Binds name before moment

theorem Binds.settled {name : String} {before : List Moment} {moment : Moment} {m last : Machine}
    (h : Binds name before moment) (hm : m.Active) (hleads : Leads m (before ++ [moment]) last) :
    Settled name last := by
  cases h with
  | @taken s pc hcall hphase htaken =>
    have hactive : moment.machine.Active := (hm.leads hleads).1 moment (by simp)
    obtain ⟨_, _, hmoment⟩ := hleads.split
    cases hmoment with
    | call _ _ hlast =>
      have hafter : moment.after = (moment.machine.input s).2 := by rw [Moment.after, hcall]; rfl
      have hsettled := Settled.of_taken hactive hphase htaken
      rw [hafter] at hlast
      cases hlast with
      | edit _ p => exact hsettled.setListing p
  | @closed earlier first others e value ws hsplit hfirst hexecutes heval _ hevents =>
    rw [hsplit] at hleads
    obtain ⟨_, _, hgroup⟩ := hleads.split
    cases hgroup with
    | call _ _ hothers =>
      have hafter : first.after = first.machine.step.2 := by rw [Moment.after, hfirst]; rfl
      obtain ⟨hbound, hqueue⟩ := hexecutes.step_assign heval
      have hlength : (Moment.events others).length = ws.length := by
        rw [← List.singleton_append, Moment.events_append] at hevents
        have hcount := congrArg List.length hevents
        simp [Moment.events, Moment.event?, hfirst] at hcount
        exact hcount
      rw [hafter] at hothers
      refine ⟨hothers.bound hbound, ?_⟩
      rw [hothers.queue_eq_drop (by omega), List.drop_of_length_le (by omega)]
      simp

/-- Of a run that is driven in any way, without being started anew or given up: once a name has been
bound, by an assignment that is closed or by a typed value that is taken, no event that is handed
over later warns of it. -/
theorem bound_name_stays_known (m : Machine) {ops : List Operation}
    (hops : ∀ op ∈ ops, op.KeepsRun) :
    Moment.events (m.start.moments ops) = (m.start.performAll ops).1.flatMap Answer.pulled ∧
    ∀ name before moment later, m.start.moments ops = before ++ moment :: later →
      Binds name before moment → .warning (.unknownVariable name) ∉ Moment.events later := by
  refine ⟨events_moments hops (.start m), ?_⟩
  intro name before moment later hmoments hbinds
  have hleads := leads_moments hops m.start
  rw [hmoments, ← List.singleton_append, ← List.append_assoc] at hleads
  obtain ⟨middle, hbefore, hlater⟩ := hleads.split
  exact (hbinds.settled (.start m) hbefore).leads hlater

end

/-- An assignment that warns twice of its own name, in between a value that is refused, and the line
deleted before the assignment is closed; then a name that is typed in. -/
theorem bound_name_stays_known_after_own_warnings :
    let m := new.load ["10 LET X = X + X", "20 INPUT Y", "30 PRINT X + Y + Z"]
    let first : Moment := ⟨m.start, .step⟩
    let closing : Moment := ⟨(m.start.performAll [.step, .input "1", .step, .enter "10"]).2, .step⟩
    let rest : List Operation := [.step, .input "a", .input "4", .steps 9]
    let later := closing.after.moments rest
    first.event? = some (.warning (.unknownVariable "X")) ∧ closing.event? = some .running ∧
      .warning (.unknownVariable "X") ∉ Moment.events later ∧
      Moment.events later =
        [.input "Y", .warning (.unknownVariable "Z"), .print "4", .finished] := by
  intro m first closing rest later
  let ops : List Operation := [.step, .input "1", .step, .enter "10", .step] ++ rest
  let others : List Moment := [⟨(m.start.performAll [.step]).2, .input "1"⟩,
    ⟨(m.start.performAll [.step, .input "1"]).2, .step⟩]
  have hops : ∀ op ∈ ops, op.KeepsRun := by simp [ops, rest, Operation.KeepsRun]
  have hmoments : m.start.moments ops = (first :: others) ++ closing :: later := rfl
  have hevents : Moment.events (first :: (others ++ [closing])) =
      [.warning (.unknownVariable "X"), .warning (.unknownVariable "X"), .running] := by
    dsimp only [first, others, closing, m]
    cbv
  have hexecutes : m.start.Executes (.assign "X" (.binary .add (.var "X") (.var "X"))) := by
    refine ⟨rfl, 10, ?_, ?_⟩
    · dsimp only [m]
      cbv
    · dsimp only [m]
      cbv
  have hsplit : (first :: others) ++ [closing] = [] ++ first :: (others ++ [closing]) := rfl
  have hbinds : Binds "X" (first :: others) closing :=
    .closed hsplit rfl hexecutes rfl rfl hevents
  refine ⟨?_, ?_, (bound_name_stays_known m hops).2 "X" _ _ _ hmoments hbinds, ?_⟩
  · dsimp only [first, m]
    cbv
  · dsimp only [closing, m]
    cbv
  · dsimp only [later, closing, m, rest]
    cbv

end Machine

end LineBasic
