import Mathlib
import LineBasic.Proofs.ExactValue
import LineBasic.Proofs.MachineInvariant
import LineBasic.Proofs.Numerals

/-!
# Waiting for a value

A machine that waits for the value of a variable stays as it is, however often it is asked to go on
and whatever it is given, until it is given a number that a value can hold. Then just this variable
is set, and the run goes on where it stood. That asking a waiting machine to go on shows the wait
again, and not an event left over, is a consequence of the invariant.
-/
namespace LineBasic

open Decimal (SignedNumeral)

theorem inRange_iff {v : Int} : InRange v ↔ ∃ w : Int64, w.toInt = v := by
  constructor
  · rintro ⟨hlower, hupper⟩
    exact ⟨Int64.ofInt v, Int64.toInt_ofInt_of_le (by omega) (by omega)⟩
  · rintro ⟨w, rfl⟩
    have hlower := w.le_toInt
    have hupper := w.toInt_lt
    unfold InRange
    omega

namespace Machine

variable {m : Machine} {s name : String} {pc : Option LineNumber}

/-! ## One typed text -/

theorem typedValue?_eq_some_iff {value : Int64} :
    typedValue? s = some value ↔ SignedNumeral (Text.trim s.toList) value.toInt :=
  Decimal.signed?_eq_some_iff

theorem exists_typedValue?_iff : (∃ value, typedValue? s = some value) ↔
    ∃ v, SignedNumeral (Text.trim s.toList) v ∧ InRange v := by
  simp only [typedValue?_eq_some_iff, inRange_iff]
  constructor
  · rintro ⟨value, h⟩
    exact ⟨value.toInt, h, value, rfl⟩
  · rintro ⟨_, h, value, rfl⟩
    exact ⟨value, h⟩

theorem input_cases (m : Machine) (s : String) :
    (∃ name pc value, m.phase = .awaiting name pc ∧ typedValue? s = some value ∧
      m.input s = (true, { m with phase := .running pc, vars := m.vars.insert name value })) ∨
    ((m.phase.state ≠ .awaitingInput ∨ typedValue? s = none) ∧ m.input s = (false, m)) := by
  unfold input
  cases hphase : m.phase with
  | idle | running _ | finished => exact .inr ⟨.inl (by simp [Phase.state]), rfl⟩
  | awaiting name pc =>
    cases hvalue : typedValue? s with
    | none => exact .inr ⟨.inr rfl, rfl⟩
    | some value => exact .inl ⟨name, pc, value, rfl, rfl, rfl⟩

theorem input_fst_iff (m : Machine) (s : String) : (m.input s).1 = true ↔
    m.phase.state = .awaitingInput ∧ ∃ v, SignedNumeral (Text.trim s.toList) v ∧ InRange v := by
  rw [← exists_typedValue?_iff]
  rcases m.input_cases s with ⟨name, pc, value, hphase, hvalue, hinput⟩ | ⟨hnot, hinput⟩
  · simp [hinput, hphase, hvalue, Phase.state]
  · rw [hinput]
    constructor
    · intro h
      cases h
    · rintro ⟨hstate, value, hvalue⟩
      rcases hnot with hnot | hnot
      · exact absurd hstate hnot
      · cases hvalue.symm.trans hnot

theorem registers_input_of_taken (h : (m.input s).1 = true) :
    ∃ name value, m.registers.pending = some name ∧
      SignedNumeral (Text.trim s.toList) value.toInt ∧
      (m.input s).2.registers = { m.registers with
        pending := none, state := .running, vars := m.vars.insert name value } := by
  rcases m.input_cases s with ⟨name, pc, value, hphase, hvalue, hinput⟩ | ⟨_, hinput⟩
  · refine ⟨name, value, ?_, typedValue?_eq_some_iff.mp hvalue, ?_⟩
    · simp [registers, hphase, Phase.pending?]
    · simp [hinput, registers, hphase, Phase.state, Phase.pc?, Phase.pending?]
  · rw [hinput] at h
    cases h

/-! ## Any number of calls -/

theorem answers_concat_input [PowerRoutine] (m : Machine) (calls : List Call) (s : String) :
    (m.answers (calls ++ [.input s])).2 = ((m.answers calls).2.input s).2 := by
  induction calls generalizing m with
  | nil => rfl
  | cons call calls ih => exact ih (m.answer call).2

/-- While it takes nothing, a machine that waits stays as it is and asks for the same variable. -/
theorem answers_of_awaiting [PowerRoutine] (hphase : m.phase = .awaiting name pc)
    (hqueue : m.queue = []) {calls : List Call}
    (hrefused : ∀ t, .taken t ∉ (m.answers calls).1) :
    (m.answers calls).2 = m ∧ ∀ sign ∈ (m.answers calls).1, sign = .event (.input name) := by
  induction calls with
  | nil => simp [answers]
  | cons call calls ih =>
    rw [answers] at hrefused ⊢
    have hcall : (m.answer call).2 = m ∧
        ∀ sign ∈ (m.answer call).1, sign = .event (.input name) := by
      cases call with
      | step => simp [answer, step, hqueue, hphase]
      | input t =>
        have hnot : (m.input t).1 = false := by
          cases htaken : (m.input t).1 with
          | false => rfl
          | true => exact absurd (by simp [answer, htaken]) (hrefused t)
        simp [answer, hnot, input_of_refused hnot]
    rw [hcall.1] at hrefused ⊢
    obtain ⟨hlast, hsigns⟩ := ih fun t ht => hrefused t (List.mem_append_right _ ht)
    refine ⟨hlast, fun sign hsign => ?_⟩
    rcases List.mem_append.mp hsign with hsign | hsign
    · exact hcall.2 sign hsign
    · exact hsigns sign hsign

/-- After any operations, a typed text is taken just when a value is awaited and the text, trimmed,
is a number that a value can hold. If it is not taken, nothing changes; if it is, just the awaited
variable is set and the run goes on. A machine that waits is not moved by any calls that give it no
such number: each step asks for the same variable, and the number that is taken in the end comes to
the same as without them. -/
theorem wait_ends_with_number [PowerRoutine] (ops : List Operation) :
    let m := (new.performAll ops).2
    (∀ s, (m.input s).1 = true ↔ m.registers.state = .awaitingInput ∧
      ∃ v, SignedNumeral (Text.trim s.toList) v ∧ InRange v) ∧
    (∀ s, (m.input s).1 = false → (m.input s).2 = m) ∧
    (∀ s, (m.input s).1 = true → ∃ name value, m.registers.pending = some name ∧
      SignedNumeral (Text.trim s.toList) value.toInt ∧
      (m.input s).2.registers = { m.registers with
        pending := none, state := .running, vars := m.vars.insert name value } ∧
      ∀ other, (m.input s).2.vars.get? other =
        if other = name then some value else m.vars.get? other) ∧
    (m.registers.state = .awaitingInput → ∃ name, m.registers.pending = some name ∧
      ∀ calls, (∀ t, .taken t ∉ (m.answers calls).1) →
        (m.answers calls).2 = m ∧
        (∀ sign ∈ (m.answers calls).1, sign = .event (.input name)) ∧
        ∀ s, (m.answers (calls ++ [.input s])).2 = (m.input s).2) := by
  intro m
  refine ⟨m.input_fst_iff, fun s => input_of_refused, fun s htaken => ?_, fun hstate => ?_⟩
  · obtain ⟨name, value, hpending, hnumeral, hregisters⟩ := registers_input_of_taken htaken
    refine ⟨name, value, hpending, hnumeral, hregisters, fun other => ?_⟩
    have hvars : (m.input s).2.vars = m.vars.insert name value := congrArg Registers.vars hregisters
    rw [hvars, Variables.get?_insert]
  · have hqueue : m.queue = [] := (invariant_performAll ops).queue_eq_nil (.inr hstate)
    obtain ⟨name, pc, hphase⟩ := Phase.state_eq_awaitingInput_iff.mp hstate
    refine ⟨name, by simp [registers, hphase, Phase.pending?], fun calls hrefused => ?_⟩
    obtain ⟨hlast, hsigns⟩ := answers_of_awaiting hphase hqueue hrefused
    refine ⟨hlast, hsigns, fun s => ?_⟩
    rw [answers_concat_input, hlast]

/-- One less than the least value is refused, and the least value is taken. -/
theorem wait_ends_with_least_value :
    let ops : List Operation := [.load ["10 INPUT X", "20 PRINT X"], .start, .step]
    let m := (new.performAll ops).2
    let below := "-9223372036854775809"
    let least := " -009223372036854775808\t"
    let calls : List Call := [.input below, .step]
    m.registers.state = .awaitingInput ∧ (m.input below).1 = false ∧ (m.input least).1 = true ∧
      (m.answers (calls ++ [.input least])).2 = (m.input least).2 ∧
      ∃ v, SignedNumeral (Text.trim least.toList) v ∧ InRange v := by
  intro ops m below least calls
  obtain ⟨htaken, _, _, hwait⟩ := wait_ends_with_number ops
  have hstate : (new.performAll ops).2.registers.state = .awaitingInput := by cbv
  have hbelow : ((new.performAll ops).2.input below).1 = false := by cbv
  have hleast : ((new.performAll ops).2.input least).1 = true := by cbv
  have hrefused : ∀ t, .taken t ∉ (m.answers calls).1 := by simp [m, calls, answers, answer, hbelow]
  obtain ⟨_, _, hcalls⟩ := hwait hstate
  exact ⟨hstate, hbelow, hleast, (hcalls calls hrefused).2.2 least, ((htaken least).mp hleast).2⟩

end Machine

end LineBasic
