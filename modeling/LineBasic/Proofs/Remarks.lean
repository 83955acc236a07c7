import Mathlib
import LineBasic.Proofs.LineOrder
import LineBasic.Proofs.Writing

/-!
# Remarks do nothing

Whatever stands behind the word `REM`, the line is a statement, and where no statement jumps to it
the program runs as it did without it. The two runs are compared call by call. The run with the
remark stands where the other does, or at the remark; there it takes one step of its own, of which
nothing is seen but that the run goes on. A program that was empty is a case of its own: its run is
over from the start, while the one with the remark has yet to find that out.
-/
namespace LineBasic

open Grammar Text

/-! ## The text of a remark -/

def Line.writeRemark (number : LineNumber) (text : String) : String :=
  Decimal.ofNat number.toNat ++ " REM " ++ text

namespace Token

theorem exists_sentence_ofRemark (cs : List Char) :
    ∃ text, Sentence (.word .REM :: ofRemark cs) (.remark text) := by
  unfold ofRemark
  split
  · exact ⟨"", .emptyRemark⟩
  · exact ⟨_, .remark _⟩

end Token

theorem Line.exists_ofText_writeRemark (number : LineNumber) (text : String) :
    ∃ remark, ofText (writeRemark number text) = .numbered number (.remark remark) := by
  obtain ⟨remark, hsentence⟩ := Token.exists_sentence_ofRemark (' ' :: text.toList)
  refine ⟨remark, ofText_of_scan hsentence ?_⟩
  have htext : (writeRemark number text).toList =
      (Decimal.ofNat number.toNat).toList ++ ' ' :: ("REM".toList ++ ' ' :: text.toList) := by
    simp [writeRemark]
  have hboundary : Boundary (' ' :: text.toList) := .cons (by decide) (by decide) _
  rw [Token.scan, htext, (spells_number number).scanChars_space, scanChars_rem hboundary]
  rfl

theorem Program.enter_writeRemark (p : Program) (number : LineNumber) (text : String) :
    ∃ source remark, p.enter (Line.writeRemark number text) =
      (.updated number, p.insert ⟨number, source, .remark remark⟩) := by
  obtain ⟨remark, hread⟩ := Line.exists_ofText_writeRemark number text
  exact ⟨_, remark, by rw [enter, hread]⟩

/-! ## What is seen of a run -/

/-- What is seen of a call to a machine that runs: an event, or a typed text with whether it was
taken; in both cases with the variables after it. -/
inductive Sight
  | event (e : Event) (vars : Variables)
  | offered (s : String) (taken : Bool) (vars : Variables)

namespace Machine

variable [PowerRoutine]

/-- What is seen of a call. That the run goes on is not counted. -/
def sight (m : Machine) : Call → List Sight
  | .step => if m.step.1 = .running then [] else [.event m.step.1 m.step.2.vars]
  | .input s => [.offered s (m.input s).1 (m.input s).2.vars]

def sights (m : Machine) : List Call → List Sight
  | [] => []
  | call :: calls => m.sight call ++ (m.answer call).2.sights calls

variable {m m' : Machine}

theorem sights_append (m : Machine) (calls calls' : List Call) :
    m.sights (calls ++ calls') = m.sights calls ++ (m.answers calls).2.sights calls' := by
  induction calls generalizing m with
  | nil => rfl
  | cons call calls ih => simp only [List.cons_append, sights, answers, ih, List.append_assoc]

theorem sights_singleton (m : Machine) (call : Call) : m.sights [call] = m.sight call := by
  simp [sights]

/-- If each call to one machine is matched by calls to another, of which the same is seen, then so
are sequences of calls. -/
theorem sights_matched {R : Machine → Machine → Prop}
    (hcall : ∀ m m', R m m' → ∀ call, ∃ calls',
      m'.sights calls' = m.sight call ∧ R (m.answer call).2 (m'.answers calls').2)
    (h : R m m') (calls : List Call) : ∃ calls', m'.sights calls' = m.sights calls := by
  induction calls generalizing m m' with
  | nil => exact ⟨[], rfl⟩
  | cons call calls ih =>
    obtain ⟨first, hfirst, hafter⟩ := hcall m m' h call
    obtain ⟨others, hothers⟩ := ih hafter
    refine ⟨first ++ others, ?_⟩
    rw [sights_append, hfirst, hothers, sights]

end Machine

/-! ## Side by side -/

/-- Where the run of a program stands, and where that of the program with a remark at the number
does. -/
inductive Phase.Past (p : Program) (number : LineNumber) : Phase → Phase → Prop
  | running {next pc} : p.past number pc = next → Past p number (.running next) (.running pc)
  | awaiting {name next pc} : p.past number pc = next →
      Past p number (.awaiting name next) (.awaiting name pc)
  | finished : Past p number .finished .finished
  | ended {pc} : p.past number pc = none → Past p number .finished (.running pc)

/-- The turn of the program and the one of the program with a remark at the number come to the
same. -/
structure Turn.Past (p : Program) (number : LineNumber) (t t' : Turn) : Prop where
  warnings : t'.warnings = t.warnings
  closing : t'.closing = t.closing
  vars : t'.vars = t.vars
  phase : Phase.Past p number t.phase t'.phase

/-- The second machine runs the program of the first with one more entry, and stands where the first
one does or at this entry. -/
structure Machine.Past (p : Program) (entry : Entry) (m m' : Machine) : Prop where
  snapshot : m.snapshot = p
  inserted : m'.snapshot = p.insert entry
  phase : Phase.Past p entry.number m.phase m'.phase
  vars : m'.vars = m.vars
  queue : m'.queue = m.queue

theorem Statement.Does.target?_of_jump [PowerRoutine] {vars vars' : Variables} {st : Statement}
    {target : LineNumber} {ws : List Warning} (h : st.Does vars (.ok (.jump target, vars')) ws) :
    st.target? = some target := by
  cases h <;> rfl

section Remark

variable {p : Program} {entry : Entry}
variable (hnew : ¬ p.HasLine entry.number) (htarget : ¬ p.Targets entry.number)
include hnew

section Turns

include htarget

theorem Turn.past_execute [PowerRoutine] {number : LineNumber} {statement : Statement}
    (hst : p.statement? number = some statement) (vars : Variables) :
    Turn.Past p entry.number (.execute p vars number statement)
      (.execute (p.insert entry) vars number statement) := by
  have hnext := Program.past_after?_insert hnew number
  have hdoes := statement.does_run vars
  unfold execute
  cases hout : (statement.run vars).outcome [] with
  | mk result warnings =>
    rw [hout] at hdoes
    cases result with
    | error failure => exact ⟨rfl, rfl, rfl, .finished⟩
    | ok done =>
      obtain ⟨flow, after⟩ := done
      refine ⟨?_, ?_, ?_, ?_⟩
      · cases flow <;> rfl
      · cases flow <;> rfl
      · cases flow <;> rfl
      · cases flow with
        | next | print _ => exact .running hnext
        | input name => exact .awaiting hnext
        | jump target =>
          have hne : some target ≠ some entry.number := by
            intro heq
            apply htarget
            refine ⟨number, statement, hst, ?_⟩
            rw [hdoes.target?_of_jump, heq]
          exact .running (Program.past_of_ne hne)
        | halt => exact .finished

theorem Turn.past_take [PowerRoutine] {pc : Option LineNumber} (hpc : pc ≠ some entry.number)
    (vars : Variables) :
    Turn.Past p entry.number (.take p vars pc) (.take (p.insert entry) vars pc) := by
  cases pc with
  | none => exact ⟨rfl, rfl, rfl, .finished⟩
  | some number =>
    have hstatement : (p.insert entry).statement? number = p.statement? number := by
      rw [Program.statement?, Program.statement?, Program.get?_insert, if_neg (by simpa using hpc)]
    cases hst : p.statement? number with
    | none =>
      rw [take_of_missing hst, take_of_missing (hstatement.trans hst)]
      exact ⟨rfl, rfl, rfl, .finished⟩
    | some statement =>
      rw [take_of_statement hst, take_of_statement (hstatement.trans hst)]
      exact past_execute hnew htarget hst vars

end Turns

namespace Machine.Past

variable {m m' : Machine}

omit hnew in
theorem settle (h : Past p entry m m') {t t' : Turn} (ht : Turn.Past p entry.number t t') :
    (m'.settle t').1 = (m.settle t).1 ∧ Past p entry (m.settle t).2 (m'.settle t').2 := by
  unfold Machine.settle
  rw [ht.warnings]
  cases t.warnings with
  | nil => exact ⟨ht.closing, h.snapshot, h.inserted, ht.phase, ht.vars, rfl⟩
  | cons w ws =>
    refine ⟨rfl, h.snapshot, h.inserted, ht.phase, ht.vars, ?_⟩
    simp only [ht.closing]

theorem start (hlisting : m.listing = p) (hlisting' : m'.listing = p.insert entry) :
    Past p entry m.start m'.start := by
  refine ⟨hlisting, hlisting', ?_, rfl, rfl⟩
  have hfirst := Program.past_first?_insert hnew
  obtain ⟨first, hfirst'⟩ : ∃ first, (p.insert entry).first? = some first := by
    cases hnone : (p.insert entry).first? with
    | some first => exact ⟨first, rfl⟩
    | none =>
      have hleast := (p.insert entry).leastLine_first?
      rw [hnone] at hleast
      exact absurd trivial (hleast entry.number (Program.hasLine_insert_iff.mpr (.inl rfl)))
  rw [hfirst'] at hfirst
  unfold Machine.start
  rw [hlisting, hlisting', hfirst', ← hfirst]
  cases hpast : p.past entry.number (some first) with
  | none => exact .ended hpast
  | some number => exact .running hpast

theorem skip [PowerRoutine] (h : Past p entry m m') {text : String}
    (hremark : entry.statement = .remark text) (hqueue : m'.queue = [])
    (hphase : m'.phase = .running (some entry.number)) :
    m'.step.1 = .running ∧ Past p entry m m'.step.2 ∧
      m'.step.2.phase ≠ .running (some entry.number) := by
  have hst : m'.snapshot.statement? entry.number = some (.remark text) := by
    rw [h.inserted, Program.statement?, Program.get?_insert, if_pos rfl, Option.map_some, hremark]
  have hstep : m'.step = (.running, { m' with
      phase := .running (m'.snapshot.after? entry.number), queue := [] }) := by
    rw [step_of_running hqueue hphase, Turn.take_of_statement hst]
    rfl
  have hnext := Program.past_after?_insert hnew entry.number
  rw [hstep, h.inserted]
  refine ⟨rfl, ⟨h.snapshot, rfl, ?_, h.vars, hqueue ▸ h.queue⟩, ?_⟩
  · have hpast := h.phase
    rw [hphase] at hpast
    generalize m.phase = phase at hpast
    cases hpast with
    | running hself => exact .running (by rw [hnext, ← p.past_self, hself])
    | ended hself => exact .ended (by rw [hnext, ← p.past_self, hself])
  · intro heq
    have hleast := (p.insert entry).leastLine_after? entry.number
    rw [Phase.running.inj heq] at hleast
    exact UInt64.lt_irrefl _ hleast.2.1

include htarget in
theorem step [PowerRoutine] (h : Past p entry m m')
    (hnot : m'.queue = [] → m'.phase ≠ .running (some entry.number)) :
    m'.step.1 = m.step.1 ∧ Past p entry m.step.2 m'.step.2 := by
  cases hqueue : m.queue with
  | cons e rest =>
    rw [step_of_queue_cons hqueue, step_of_queue_cons (h.queue.trans hqueue)]
    exact ⟨rfl, h.snapshot, h.inserted, h.phase, h.vars, rfl⟩
  | nil =>
    have hqueue' : m'.queue = [] := h.queue.trans hqueue
    have hpast := h.phase
    unfold Machine.step
    rw [hqueue, hqueue']
    generalize hphase : m.phase = phase at hpast
    generalize hphase' : m'.phase = phase' at hpast
    cases hpast with
    | @running _ pc hnext =>
      have hpc : pc ≠ some entry.number := fun heq => hnot hqueue' (heq ▸ hphase')
      rw [Program.past_of_ne hpc] at hnext
      subst hnext
      dsimp only
      rw [h.snapshot, h.inserted, h.vars]
      exact h.settle (Turn.past_take hnew htarget hpc m.vars)
    | awaiting _ => exact ⟨rfl, h⟩
    | finished => exact ⟨rfl, h⟩
    | @ended pc hnone =>
      have hpc : pc ≠ some entry.number := fun heq => hnot hqueue' (heq ▸ hphase')
      rw [Program.past_of_ne hpc] at hnone
      subst hnone
      have hover : Phase.Past p entry.number m.phase .finished := by
        rw [hphase]
        exact .finished
      exact ⟨rfl, h.snapshot, h.inserted, hover, h.vars, hqueue.symm⟩

omit hnew in
theorem input (h : Past p entry m m') (s : String) :
    (m'.input s).1 = (m.input s).1 ∧ Past p entry (m.input s).2 (m'.input s).2 := by
  have hpast := h.phase
  unfold Machine.input
  generalize m.phase = phase at hpast
  generalize m'.phase = phase' at hpast
  cases hpast with
  | awaiting hnext =>
    cases typedValue? s with
    | none => exact ⟨rfl, h⟩
    | some value =>
      exact ⟨rfl, h.snapshot, h.inserted, .running hnext, by simp only [h.vars], h.queue⟩
  | running _ | finished | ended _ => exact ⟨rfl, h⟩

variable [PowerRoutine]

omit hnew in
theorem sight_input (h : Past p entry m m') (s : String) :
    m'.sight (.input s) = m.sight (.input s) := by
  obtain ⟨htaken, hafter⟩ := h.input s
  simp only [sight, htaken, hafter.vars]

include htarget in
theorem sight_step (h : Past p entry m m')
    (hnot : m'.queue = [] → m'.phase ≠ .running (some entry.number)) :
    m'.sight .step = m.sight .step := by
  obtain ⟨hevent, hafter⟩ := h.step hnew htarget hnot
  simp only [sight, hevent, hafter.vars]

variable {text : String} (hremark : entry.statement = .remark text)
include hremark htarget

/-- A call to the machine without the remark is matched by a call to the other, after the step that
passes the remark if need be. -/
theorem call_matched (h : Past p entry m m') (call : Call) : ∃ calls',
    m'.sights calls' = m.sight call ∧ Past p entry (m.answer call).2 (m'.answers calls').2 := by
  cases call with
  | input s =>
    refine ⟨[.input s], ?_, (h.input s).2⟩
    rw [sights_singleton, h.sight_input]
  | step =>
    by_cases hat : m'.queue = [] ∧ m'.phase = .running (some entry.number)
    · obtain ⟨hrunning, hskipped, hnot⟩ := h.skip hnew hremark hat.1 hat.2
      refine ⟨[.step, .step], ?_, (hskipped.step hnew htarget fun _ => hnot).2⟩
      have hunseen : m'.sight .step = [] := if_pos hrunning
      have hseen := hskipped.sight_step hnew htarget fun _ => hnot
      simp only [sights, hunseen, List.append_nil, List.nil_append]
      exact hseen
    · have hnot : m'.queue = [] → m'.phase ≠ .running (some entry.number) :=
        fun hqueue hphase => hat ⟨hqueue, hphase⟩
      refine ⟨[.step], ?_, (h.step hnew htarget hnot).2⟩
      rw [sights_singleton, h.sight_step hnew htarget hnot]

/-- A call to the machine with the remark is matched by the same call to the other, or by none where
it passes the remark. -/
theorem call_matched_back (h : Past p entry m m') (call : Call) : ∃ calls,
    m.sights calls = m'.sight call ∧ Past p entry (m.answers calls).2 (m'.answer call).2 := by
  cases call with
  | input s =>
    refine ⟨[.input s], ?_, (h.input s).2⟩
    rw [sights_singleton, h.sight_input]
  | step =>
    by_cases hat : m'.queue = [] ∧ m'.phase = .running (some entry.number)
    · obtain ⟨hrunning, hskipped, _⟩ := h.skip hnew hremark hat.1 hat.2
      exact ⟨[], (if_pos hrunning).symm, hskipped⟩
    · have hnot : m'.queue = [] → m'.phase ≠ .running (some entry.number) :=
        fun hqueue hphase => hat ⟨hqueue, hphase⟩
      refine ⟨[.step], ?_, (h.step hnew htarget hnot).2⟩
      rw [sights_singleton, h.sight_step hnew htarget hnot]

end Machine.Past

end Remark

/-- A remark may be put at any number that is no line and that no statement jumps to, whatever its
text. Then a run of the program with the remark is matched by one of the program without it, and the
other way round: apart from the steps that only go on, the same events are seen, the same texts are
taken and refused, and the variables are the same after each of them. -/
theorem Machine.remark_inert [PowerRoutine] (m : Machine) (number : LineNumber) (text : String)
    (hline : ¬ m.listing.HasLine number) (htarget : ¬ m.listing.Targets number) :
    let entered := m.enter (Line.writeRemark number text)
    entered.1 = .updated number ∧
      (∀ calls, ∃ calls', entered.2.start.sights calls' = m.start.sights calls) ∧
      ∀ calls', ∃ calls, m.start.sights calls = entered.2.start.sights calls' := by
  intro entered
  obtain ⟨source, remark, henter⟩ := m.listing.enter_writeRemark number text
  have hentered : entered = (.updated number, m.setListing (m.listing.insert
      ⟨number, source, .remark remark⟩)) := by
    simp only [entered, enter, henter, setListing]
  have hstart : Past m.listing ⟨number, source, .remark remark⟩ m.start entered.2.start := by
    rw [hentered]
    exact .start hline rfl rfl
  refine ⟨by rw [hentered], fun calls => ?_, fun calls' => ?_⟩
  · exact sights_matched (fun _ _ h => h.call_matched hline htarget rfl) hstart calls
  · exact sights_matched (R := fun m' m => Past _ _ m m')
      (fun _ _ h => h.call_matched_back hline htarget rfl) hstart calls'

/-- A remark between the wait for a value and a statement that warns and fails. Its text holds what
would be unknown tokens and a line end. -/
theorem Machine.remark_inert_behind_input :
    let m := Machine.new.load ["10 INPUT X", "20 PRINT X / Y", "30 GOTO 10"]
    let entered := m.enter "15 REM é ** (\n\n#"
    let calls : List Call := [.step, .input "x", .input "4", .step, .step]
    ¬ m.listing.HasLine 15 ∧ ¬ m.listing.Targets 15 ∧ entered.1 = .updated 15 ∧
      (m.start.sights calls).length = 5 ∧
      ∃ calls', entered.2.start.sights calls' = m.start.sights calls := by
  intro m entered calls
  have hentries : m.listing.entries = [⟨10, "10 INPUT X", .input "X"⟩,
      ⟨20, "20 PRINT X / Y", .print (.binary .divide (.var "X") (.var "Y"))⟩,
      ⟨30, "30 GOTO 10", .goto 10⟩] := by
    dsimp only [m]
    cbv
  have hline : ¬ m.listing.HasLine 15 := by
    rw [Program.hasLine_iff, hentries]
    simp
  have htarget : ¬ m.listing.Targets 15 := by
    rw [Program.targets_iff, hentries]
    simp [Statement.target?]
  have hseen : (m.start.sights calls).length = 5 := by
    dsimp only [m, calls]
    cbv
  obtain ⟨hedit, hruns, _⟩ := remark_inert m 15 "é ** (\n\n#" hline htarget
  exact ⟨hline, htarget, hedit, hseen, hruns calls⟩

end LineBasic
