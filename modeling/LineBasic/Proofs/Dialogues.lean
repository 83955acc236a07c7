import Mathlib
import LineBasic.Session.Dialogue

/-!
# Dialogues with a write that fails

A dialogue heeds its writes if each of them, where it fails, is the end of the dialogue with this
very failure. A write that fails in the middle of such a dialogue cuts off what is logged without
it, and leaves the script as it is at this moment. Whether a dialogue heeds its writes can be read
off from its parts, as those of a sequence are looked at one by one.
-/
namespace LineBasic

def LogEntry.isWrite : LogEntry → Bool
  | .performed (.write _ _) => true
  | _ => false

theorem Hearing.countP_isWrite (channel : Channel) (prompt : String)
    (complete? : String → Option String) (script : List ScriptItem) :
    (ofScript channel prompt complete? script).log.countP LogEntry.isWrite = 0 := by
  induction script with
  | nil => rfl
  | cons item rest ih =>
    cases item with
    | reading what => rfl
    | interrupt | tab buffer => simpa [ofScript, LogEntry.isWrite] using ih

namespace Scene

variable {s : Scene} {request : Request} {k : Nat}

/-! ## One request -/

def failingAt (s : Scene) (k : Nat) : Scene :=
  { s with surroundings := { s.surroundings with failAt := some k } }

theorem answer_write_of_failing (channel : Channel) (text : String)
    (h : s.surroundings.failAt = some (s.writes + 1)) :
    s.answer (.perform (.write channel text)) =
      ([.writeFailed channel], .error .refused, { s with writes := s.writes + 1 }) :=
  if_pos h

theorem answer_write_of_free (channel : Channel) (text : String)
    (h : s.surroundings.failAt ≠ some (s.writes + 1)) :
    s.answer (.perform (.write channel text)) =
      let due := s.surroundings.interruptAt.contains (s.writes + 1)
      (.performed (.write channel text) :: (if due then [.interrupt] else []), .ok (),
        { s with writes := s.writes + 1, interrupted := s.interrupted || due }) :=
  if_neg h

theorem surroundings_answer (s : Scene) (request : Request) :
    (s.answer request).2.2.surroundings = s.surroundings := by
  cases request with
  | perform e =>
    cases e with
    | write channel text =>
      by_cases h : s.surroundings.failAt = some (s.writes + 1)
      · rw [answer_write_of_failing _ _ h]
      · rw [answer_write_of_free _ _ h]
    | remember _ _ | setBuffer _ _ | cancel _ => rfl
  | readLine _ _ _ | readFile _ | takeInterrupt => rfl

theorem writes_answer_write (s : Scene) (channel : Channel) (text : String) :
    (s.answer (.perform (.write channel text))).2.2.writes = s.writes + 1 := by
  by_cases h : s.surroundings.failAt = some (s.writes + 1)
  · rw [answer_write_of_failing _ _ h]
  · rw [answer_write_of_free _ _ h]

/-- The request is the write of count `k`. -/
def MakesWrite (s : Scene) (k : Nat) (request : Request) : Prop :=
  s.writes + 1 = k ∧ ∃ channel text, request = .perform (.write channel text)

theorem MakesWrite.writes_answer (h : s.MakesWrite k request) :
    (s.answer request).2.2.writes = k := by
  obtain ⟨hcount, channel, text, rfl⟩ := h
  rw [s.writes_answer_write, hcount]

theorem writes_answer_lt (h : ¬ s.MakesWrite k request) (hk : s.writes < k) :
    (s.answer request).2.2.writes < k := by
  cases request with
  | perform e =>
    cases e with
    | write channel text =>
      rw [s.writes_answer_write]
      exact Nat.lt_of_le_of_ne hk fun hcount => h ⟨hcount, channel, text, rfl⟩
    | remember _ _ | setBuffer _ _ | cancel _ => exact hk
  | readLine _ _ _ | readFile _ | takeInterrupt => exact hk

/-- Where no write fails, those that are counted are those in the log. -/
theorem writes_answer (hfree : s.surroundings.failAt = none) (request : Request) :
    (s.answer request).2.2.writes =
      s.writes + (s.answer request).1.countP LogEntry.isWrite := by
  cases request with
  | perform e =>
    cases e with
    | write channel text =>
      rw [answer_write_of_free _ _ (by simp [hfree])]
      dsimp only
      split <;> rfl
    | remember _ _ | setBuffer _ _ | cancel _ => rfl
  | readLine channel prompt complete? =>
    exact congrArg (s.writes + ·) (Hearing.countP_isWrite channel prompt complete? s.script).symm
  | readFile _ | takeInterrupt => rfl

theorem answer_failingAt (hfree : s.surroundings.failAt = none) (h : ¬ s.MakesWrite k request) :
    (s.failingAt k).answer request =
      ((s.answer request).1, (s.answer request).2.1, (s.answer request).2.2.failingAt k) := by
  cases request with
  | perform e =>
    cases e with
    | write channel text =>
      have hother : (s.failingAt k).surroundings.failAt ≠ some ((s.failingAt k).writes + 1) :=
        fun hfails => h ⟨(Option.some.inj hfails).symm, channel, text, rfl⟩
      rw [answer_write_of_free _ _ hother, answer_write_of_free _ _ (by simp [hfree])]
      rfl
    | remember _ _ | setBuffer _ _ | cancel _ => rfl
  | readLine _ _ _ | readFile _ | takeInterrupt => rfl

end Scene

/-! ## Whole dialogues -/

namespace Dialogue

variable {α β : Type} {s : Scene} {k : Nat}

theorem play_ask (request : Request) (next : request.Answer → Dialogue α) (s : Scene) :
    (ask request next).play s =
      let rest := (next (s.answer request).2.1).play (s.answer request).2.2
      ⟨(s.answer request).1 ++ rest.log, rest.result, rest.last⟩ := rfl

theorem play_bind (d : Dialogue α) (f : α → Dialogue β) (s : Scene) :
    (d.bind f).play s =
      match (d.play s).result with
      | some a =>
        { (f a).play (d.play s).last with
          log := (d.play s).log ++ ((f a).play (d.play s).last).log }
      | none => ⟨(d.play s).log, none, (d.play s).last⟩ := by
  induction d generalizing s with
  | finished result => rfl
  | unfinished => rfl
  | ask request next ih =>
    simp only [bind, play, ih]
    split <;> simp [*]

/-- Played from the scene on, the dialogue logs the entries and then stands there. -/
inductive Reaches : Dialogue α → Scene → List LogEntry → Dialogue α → Scene → Prop
  | here {d s} : Reaches d s [] d s
  | after {request next s log d s'} :
      Reaches (next (s.answer request).2.1) (s.answer request).2.2 log d s' →
      Reaches (.ask request next) s ((s.answer request).1 ++ log) d s'

theorem Reaches.writes_eq {d d' : Dialogue α} {s' : Scene} {log : List LogEntry}
    (h : Reaches d s log d' s') (hfree : s.surroundings.failAt = none) :
    s'.writes = s.writes + log.countP LogEntry.isWrite := by
  induction h with
  | here => rfl
  | @after request _ s _ _ _ _ ih =>
    rw [ih (by rw [s.surroundings_answer, hfree]), Scene.writes_answer hfree, List.countP_append,
      Nat.add_assoc]

theorem writes_play (d : Dialogue α) (hfree : s.surroundings.failAt = none) :
    (d.play s).last.writes = s.writes + (d.play s).log.countP LogEntry.isWrite := by
  induction d generalizing s with
  | finished _ | unfinished => rfl
  | ask request next ih =>
    simp only [play, List.countP_append]
    rw [ih _ (by rw [s.surroundings_answer, hfree]), Scene.writes_answer hfree, Nat.add_assoc]

/-- Without the write that is to fail, all goes the same way. -/
theorem play_failingAt (d : Dialogue α) (hfree : s.surroundings.failAt = none)
    (h : ¬ (s.writes < k ∧ k ≤ (d.play s).last.writes)) :
    d.play (s.failingAt k) =
      ⟨(d.play s).log, (d.play s).result, (d.play s).last.failingAt k⟩ := by
  induction d generalizing s with
  | finished _ | unfinished => rfl
  | ask request next ih =>
    have hfree' : (s.answer request).2.2.surroundings.failAt = none := by
      rw [s.surroundings_answer, hfree]
    have hwrites := s.writes_answer hfree request
    have hafter := (next (s.answer request).2.1).writes_play hfree'
    simp only [play_ask] at h
    have hother : ¬ s.MakesWrite k request := by
      intro hmakes
      have hmade := hmakes.writes_answer
      have hcount := hmakes.1
      exact h ⟨by omega, by omega⟩
    have hrest := ih (s.answer request).2.1 hfree' fun hk => h ⟨by omega, hk.2⟩
    rw [play_ask, Scene.answer_failingAt hfree hother]
    simp only [hrest, play_ask]

/-- Each write that fails is the end of the dialogue, with its failure. -/
def Heeds : Dialogue (Except WriteFault α) → Prop
  | finished _ => True
  | unfinished => True
  | ask request next => (∀ answer, (next answer).Heeds) ∧
    match request, next with
    | .perform _, next => ∀ fault, next (.error fault) = .finished (.error fault)
    | _, _ => True

/-- The write that fails is logged as the last thing that happens. -/
theorem Heeds.play_failingAt {d : Dialogue (Except WriteFault α)} (h : d.Heeds)
    (hfree : s.surroundings.failAt = none) (hk : s.writes < k)
    (hplay : k ≤ (d.play s).last.writes) :
    ∃ before channel text next moment,
      before ++ [.performed (.write channel text)] <+: (d.play s).log ∧
      d.Reaches s before (.ask (.perform (.write channel text)) next) moment ∧
      moment.writes + 1 = k ∧
      d.play (s.failingAt k) = ⟨before ++ [.writeFailed channel], some (.error .refused),
        { moment.failingAt k with writes := k }⟩ := by
  induction d generalizing s with
  | finished _ | unfinished => exact absurd hplay (Nat.not_le.mpr hk)
  | ask request next ih =>
    by_cases hnow : s.MakesWrite k request
    · obtain ⟨rfl, channel, text, rfl⟩ := hnow
      have hmade := Scene.answer_write_of_free channel text
        (show s.surroundings.failAt ≠ some (s.writes + 1) by simp [hfree])
      have hfailed := Scene.answer_write_of_failing channel text
        (show (s.failingAt (s.writes + 1)).surroundings.failAt = some (s.writes + 1) from rfl)
      refine ⟨[], channel, text, next, s, ?_, .here, rfl, ?_⟩
      · simp only [play_ask, hmade, List.nil_append, List.cons_append, List.cons_prefix_cons,
          List.nil_prefix, true_and]
      · simp only [play_ask, hfailed, h.2]
        rfl
    · obtain ⟨before, channel, text, next', moment, hlog, hreach, hmoment, hfailed⟩ :=
        ih (s.answer request).2.1 (h.1 _) (by rw [s.surroundings_answer, hfree])
          (Scene.writes_answer_lt hnow hk) hplay
      refine ⟨(s.answer request).1 ++ before, channel, text, next', moment, ?_, .after hreach,
        hmoment, ?_⟩
      · rw [List.append_assoc, play_ask]
        exact (List.prefix_append_right_inj _).mpr hlog
      · rw [play_ask, Scene.answer_failingAt hfree hnow]
        simp only [hfailed, List.append_assoc]

end Dialogue

/-! ## Dialogues that a failed write may end -/

namespace Talk

variable {α β : Type}

theorem play_perform (e : Effect) (s : Scene) :
    (perform e).run.play s =
      ⟨(s.answer (.perform e)).1, some (s.answer (.perform e)).2.1, (s.answer (.perform e)).2.2⟩ :=
  congrArg (Played.mk · _ _) (List.append_nil _)

theorem play_bind (d : Talk α) (f : α → Talk β) (s : Scene) :
    (d >>= f).run.play s =
      match (d.run.play s).result with
      | some (.ok a) =>
        let rest := (f a).run.play (d.run.play s).last
        ⟨(d.run.play s).log ++ rest.log, rest.result, rest.last⟩
      | some (.error fault) => ⟨(d.run.play s).log, some (.error fault), (d.run.play s).last⟩
      | none => ⟨(d.run.play s).log, none, (d.run.play s).last⟩ := by
  rw [show (d >>= f).run.play s = _ from Dialogue.play_bind d.run (ExceptT.bindCont f) s]
  cases (d.run.play s).result with
  | none => rfl
  | some outcome =>
    cases outcome with
    | ok a => rfl
    | error fault => exact congrArg (Played.mk · _ _) (List.append_nil _)

theorem heeds_perform (e : Effect) : (perform e).run.Heeds :=
  ⟨fun _ => trivial, fun _ => rfl⟩

theorem heeds_readLine (channel : Channel) (prompt : String) (complete? : String → Option String) :
    (readLine channel prompt complete?).run.Heeds :=
  ⟨fun _ => trivial, trivial⟩

theorem heeds_readFile (name : String) : (readFile name).run.Heeds :=
  ⟨fun _ => trivial, trivial⟩

theorem heeds_takeInterrupt : takeInterrupt.run.Heeds :=
  ⟨fun _ => trivial, trivial⟩

theorem heeds_bind {d : Talk α} {f : α → Talk β} (h : d.run.Heeds) (hf : ∀ a, (f a).run.Heeds) :
    (d >>= f).run.Heeds := by
  change (d.run.bind (ExceptT.bindCont f)).Heeds
  generalize d.run = d at h
  induction d with
  | finished result =>
    cases result with
    | ok a => exact hf a
    | error fault => trivial
  | unfinished => trivial
  | ask request next ih =>
    refine ⟨fun answer => ih answer (h.1 answer), ?_⟩
    cases request with
    | perform e =>
      intro fault
      have hfault : next (.error fault) = .finished (.error fault) := h.2 fault
      exact congrArg (Dialogue.bind · (ExceptT.bindCont f)) hfault
    | readLine _ _ _ | readFile _ | takeInterrupt => trivial

end Talk

end LineBasic
