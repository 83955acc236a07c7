import LineBasic.Session.Replay

/-!
# Runs of replays

All that one step of a replay can come to, one rule for each way through it, and what follows for
runs. A replay rests as soon as its session needs nothing more; so however many steps it is given,
if it ends at all then with one log and in one last state.
-/
namespace LineBasic.Replay

variable [PowerRoutine] {r : Replay}

/-! ## One step -/

/-- In its next step the replay logs the entries and goes over to the other state. -/
inductive Passes (r : Replay) : List LogEntry → Replay → Prop
  | writeFails {channel text} : r.session.demand = .perform (.write channel text) →
      r.surroundings.failAt = some (r.writes + 1) →
      Passes r [.writeFailed channel] { r with session := r.session.close, writes := r.writes + 1 }
  | writeInterrupted {channel text} : r.session.demand = .perform (.write channel text) →
      r.surroundings.failAt ≠ some (r.writes + 1) → r.writes + 1 ∈ r.surroundings.interruptAt →
      Passes r [.performed (.write channel text), .interrupt]
        { r with session := r.session.performed.interrupt, writes := r.writes + 1 }
  | written {channel text} : r.session.demand = .perform (.write channel text) →
      r.surroundings.failAt ≠ some (r.writes + 1) → r.writes + 1 ∉ r.surroundings.interruptAt →
      Passes r [.performed (.write channel text)]
        { r with session := r.session.performed, writes := r.writes + 1 }
  | performed {e} : r.session.demand = .perform e → (∀ channel text, e ≠ .write channel text) →
      Passes r [.performed e] { r with session := r.session.performed }
  | readEnd {channel prompt} : r.session.demand = .readLine channel prompt → r.script = [] →
      Passes r [.read channel prompt .endOfFile] { r with session := r.session.receive .endOfFile }
  | read {channel prompt what rest} : r.session.demand = .readLine channel prompt →
      r.script = .reading what :: rest →
      Passes r [.read channel prompt what]
        { r with session := r.session.receive what, script := rest }
  | readInterrupted {channel prompt rest} : r.session.demand = .readLine channel prompt →
      r.script = .interrupt :: rest →
      Passes r [.interrupt] { r with session := r.session.interrupt, script := rest }
  | tab {channel prompt buffer rest} : r.session.demand = .readLine channel prompt →
      r.script = .tab buffer :: rest →
      Passes r [.tab channel buffer (r.session.complete? buffer)] { r with script := rest }
  | fileRead {name} : r.session.demand = .readFile name →
      Passes r [] { r with session := r.session.takeFile (r.surroundings.folder.read name) }
  | advances : r.session.demand = .advance →
      Passes r [] { r with session := r.session.advance }
  | rests : r.session.demand = .nothing → Passes r [] r

theorem passes_write {channel : Channel} {text : String}
    (h : r.session.demand = .perform (.write channel text)) :
    r.Passes (r.write channel text).1 (r.write channel text).2 := by
  unfold write
  dsimp only
  split
  · exact .writeFails h ‹_›
  · rename_i hfail
    split
    · rename_i hdue
      exact .writeInterrupted h hfail (List.contains_iff_mem.mp hdue)
    · rename_i hdue
      exact .written h hfail fun hmem => hdue (List.contains_iff_mem.mpr hmem)

theorem passes_read {channel : Channel} {prompt : String}
    (h : r.session.demand = .readLine channel prompt) :
    r.Passes (r.read channel prompt).1 (r.read channel prompt).2 := by
  unfold read
  split
  · exact .readEnd h ‹_›
  · exact .read h ‹_›
  · exact .readInterrupted h ‹_›
  · exact .tab h ‹_›

theorem passes_step (r : Replay) : r.Passes r.step.1 r.step.2 := by
  unfold step
  split
  · exact passes_write ‹_›
  · rename_i hnot hdemand
    exact .performed hdemand hnot
  · exact passes_read ‹_›
  · exact .fileRead ‹_›
  · exact .advances ‹_›
  · exact .rests ‹_›

theorem step_eq_of_passes {log : List LogEntry} {next : Replay} (h : r.Passes log next) :
    r.step = (log, next) := by
  unfold step
  cases h with
  | writeFails hdemand hfail => simp [hdemand, write, hfail]
  | writeInterrupted hdemand hfail hdue | written hdemand hfail hdue =>
    simp [hdemand, write, hfail, hdue]
  | @performed e hdemand hnot =>
    rw [hdemand]
    cases e with
    | write channel text => exact absurd rfl (hnot channel text)
    | remember _ _ | setBuffer _ _ | cancel _ => rfl
  | readEnd hdemand hscript | read hdemand hscript | readInterrupted hdemand hscript
  | tab hdemand hscript => simp [hdemand, Replay.read, hscript]
  | fileRead hdemand | advances hdemand | rests hdemand => rw [hdemand]

theorem surroundings_step (r : Replay) : r.step.2.surroundings = r.surroundings := by
  have hpasses := r.passes_step
  generalize r.step.1 = log at hpasses
  generalize r.step.2 = next at hpasses ⊢
  cases hpasses <;> rfl

theorem writes_le_step (r : Replay) : r.writes ≤ r.step.2.writes := by
  have hpasses := r.passes_step
  generalize r.step.1 = log at hpasses
  generalize r.step.2 = next at hpasses ⊢
  cases hpasses <;> simp

theorem writes_step_of_write {channel : Channel} {text : String}
    (h : r.session.demand = .perform (.write channel text)) :
    r.step.2.writes = r.writes + 1 := by
  simp only [step, h, write]
  split
  · rfl
  · split <;> rfl

theorem script_length_step_le (r : Replay) : r.step.2.script.length ≤ r.script.length := by
  have hpasses := r.passes_step
  generalize r.step.1 = log at hpasses
  generalize r.step.2 = next at hpasses ⊢
  cases hpasses with
  | read _ hscript | readInterrupted _ hscript | tab _ hscript => simp [hscript]
  | writeFails _ _ | writeInterrupted _ _ _ | written _ _ _ | performed _ _ | readEnd _ _
  | fileRead _ | advances _ | rests _ => exact Nat.le_refl _

theorem script_step_of_read {channel : Channel} {prompt : String} {item : ScriptItem}
    {rest : List ScriptItem} (h : r.session.demand = .readLine channel prompt)
    (hscript : r.script = item :: rest) : r.step.2.script = rest := by
  cases item <;> simp [step, h, Replay.read, hscript]

/-! ## Runs -/

theorem run_succ (n : Nat) (r : Replay) :
    r.run (n + 1) = (r.step.1 ++ (r.step.2.run n).1, (r.step.2.run n).2) := rfl

theorem run_one (r : Replay) : r.run 1 = r.step := by
  simp [run]

theorem run_add (m n : Nat) (r : Replay) :
    r.run (m + n) = ((r.run m).1 ++ ((r.run m).2.run n).1, ((r.run m).2.run n).2) := by
  induction m generalizing r with
  | zero => simp [run]
  | succ m ih =>
    have hsum : m + 1 + n = m + n + 1 := by omega
    rw [hsum, run_succ, run_succ, ih]
    simp

theorem run_add_snd (m n : Nat) (r : Replay) : (r.run (m + n)).2 = ((r.run m).2.run n).2 := by
  rw [run_add]

theorem run_concat (n : Nat) (r : Replay) :
    r.run (n + 1) = ((r.run n).1 ++ (r.run n).2.step.1, (r.run n).2.step.2) := by
  rw [run_add, run_one]

theorem log_run_prefix {m n : Nat} (hmn : m ≤ n) : (r.run m).1 <+: (r.run n).1 := by
  obtain ⟨k, rfl⟩ := Nat.exists_eq_add_of_le hmn
  rw [run_add]
  exact List.prefix_append _ _

theorem writes_run_le {m n : Nat} (hmn : m ≤ n) : (r.run m).2.writes ≤ (r.run n).2.writes := by
  induction hmn with
  | refl => exact Nat.le_refl _
  | @step n _ ih =>
    rw [run_concat]
    exact Nat.le_trans ih (writes_le_step _)

theorem script_length_run_le {m n : Nat} (hmn : m ≤ n) :
    (r.run n).2.script.length ≤ (r.run m).2.script.length := by
  induction hmn with
  | refl => exact Nat.le_refl _
  | @step n _ ih =>
    rw [run_concat]
    exact Nat.le_trans (script_length_step_le _) ih

theorem step_of_isOver (h : r.isOver = true) : r.step = ([], r) :=
  step_eq_of_passes (.rests (eq_of_beq h))

theorem run_of_isOver (h : r.isOver = true) (n : Nat) : r.run n = ([], r) := by
  induction n with
  | zero => rfl
  | succ n ih => rw [run_succ, step_of_isOver h, ih, List.nil_append]

theorem run_of_le {m n : Nat} (h : (r.run m).2.isOver = true) (hmn : m ≤ n) :
    r.run n = r.run m := by
  obtain ⟨k, rfl⟩ := Nat.exists_eq_add_of_le hmn
  rw [run_add, run_of_isOver h, List.append_nil]

/-- The replay ends, with this log and in this last state. -/
def Ends (r : Replay) (log : List LogEntry) (last : Replay) : Prop :=
  ∃ n, r.run n = (log, last) ∧ last.isOver = true

theorem ends_of_isOver {n : Nat} (h : (r.run n).2.isOver = true) :
    r.Ends (r.run n).1 (r.run n).2 :=
  ⟨n, rfl, h⟩

theorem Ends.unique {log log' : List LogEntry} {last last' : Replay} (h : r.Ends log last)
    (h' : r.Ends log' last') : log = log' ∧ last = last' := by
  obtain ⟨n, hrun, hover⟩ := h
  obtain ⟨n', hrun', hover'⟩ := h'
  have hmax : r.run (max n n') = (log, last) :=
    (run_of_le (by rw [hrun, hover]) (Nat.le_max_left n n')).trans hrun
  have hmax' : r.run (max n n') = (log', last') :=
    (run_of_le (by rw [hrun', hover']) (Nat.le_max_right n n')).trans hrun'
  exact Prod.mk.inj (hmax.symm.trans hmax')

end LineBasic.Replay
