import Mathlib
import LineBasic.Proofs.Registers

/-!
# Editing and running apart

A machine holds two programs: the listing, which is edited, and the snapshot, which is run. What is
seen of a run does not depend on the edits made meanwhile, and what is seen of the edits does not
depend on what is run. Both are statements about two histories of one machine that agree on one
group of operations and differ in the other by any insertions and deletions. They have one proof: a
part of the machine that one group leaves alone, and that alone determines what the other group
does, is the same in both histories. A start, which takes the snapshot, is where edits pass on to
the run.
-/
namespace LineBasic

def Operation.edits : Operation → Bool
  | .enter _ => true
  | .load _ => true
  | .clear => true
  | .setListing _ => true
  | _ => false

/-- The operation concerns the run. -/
def Operation.drives (op : Operation) : Bool :=
  !op.edits

namespace Machine

section Observation

variable [PowerRoutine] {α β : Type}

/-- What is seen of the operations in `shown`: the answer to each of them, and what `view` shows of
the machine right after it. -/
def observe (shown : Operation → Bool) (view : Machine → α) :
    Machine → List Operation → List (Answer × α)
  | _, [] => []
  | m, op :: ops =>
    let after := m.perform op
    if shown op then (after.1, view after.2) :: observe shown view after.2 ops
    else observe shown view after.2 ops

theorem observe_comp (shown : Operation → Bool) (view : Machine → α) (f : α → β) (m : Machine)
    (ops : List Operation) :
    observe shown (f ∘ view) m ops = (observe shown view m ops).map (Prod.map id f) := by
  induction ops generalizing m with
  | nil => rfl
  | cons op ops ih =>
    simp only [observe, ih]
    split <;> simp

/-- Among the operations `among`, those in `shown` are apart from the others through `view`: the
others leave alone what it shows, and those in `shown` depend on nothing else. -/
structure Separates (among : Operation → Prop) (shown : Operation → Bool) (view : Machine → α) :
    Prop where
  hidden : ∀ m op, among op → shown op = false → view (m.perform op).2 = view m
  determined : ∀ m m' op, among op → shown op = true → view m = view m' →
    (m.perform op).1 = (m'.perform op).1 ∧ view (m.perform op).2 = view (m'.perform op).2

namespace Separates

variable {among : Operation → Prop} {shown : Operation → Bool} {view : Machine → α}

/-- Leaving out what is not shown changes nothing that is. -/
theorem observe_filter (h : Separates among shown view) {m m' : Machine} (hview : view m = view m')
    (ops : List Operation) (hops : ∀ op ∈ ops, among op) :
    observe shown view m ops = observe shown view m' (ops.filter shown) ∧
      view (m.performAll ops).2 = view (m'.performAll (ops.filter shown)).2 := by
  induction ops generalizing m m' with
  | nil => exact ⟨rfl, hview⟩
  | cons op ops ih =>
    have hop := hops op List.mem_cons_self
    have hrest : ∀ other ∈ ops, among other := fun other hother =>
      hops other (List.mem_cons_of_mem op hother)
    cases hshown : shown op with
    | true =>
      obtain ⟨hanswer, hafter⟩ := h.determined m m' op hop hshown hview
      obtain ⟨hseen, hlast⟩ := ih hafter hrest
      rw [List.filter_cons_of_pos hshown]
      simp only [observe, performAll, hshown, hanswer, hafter, hseen, hlast, if_true, and_self]
    | false =>
      have hafter : view (m.perform op).2 = view m' := (h.hidden m op hop hshown).trans hview
      obtain ⟨hseen, hlast⟩ := ih hafter hrest
      rw [List.filter_cons_of_neg (by simp [hshown])]
      simp only [observe, performAll, hshown, hseen, hlast, Bool.false_eq_true, if_false, and_self]

theorem observe_congr (h : Separates among shown view) (m : Machine) {ops ops' : List Operation}
    (hops : ∀ op ∈ ops, among op) (hops' : ∀ op ∈ ops', among op)
    (hsame : ops.filter shown = ops'.filter shown) :
    observe shown view m ops = observe shown view m ops' ∧
      view (m.performAll ops).2 = view (m.performAll ops').2 := by
  obtain ⟨hseen, hlast⟩ := h.observe_filter (rfl : view m = view m) ops hops
  obtain ⟨hseen', hlast'⟩ := h.observe_filter (rfl : view m = view m) ops' hops'
  rw [hseen, hseen', hlast, hlast', hsame]
  exact ⟨rfl, rfl⟩

end Separates

end Observation

/-! ## The run does not look at the listing -/

theorem step_setListing [PowerRoutine] (m : Machine) (p : Program) :
    (m.setListing p).step = (m.step.1, m.step.2.setListing p) := by
  have hsettle (t : Turn) :
      (m.setListing p).settle t = ((m.settle t).1, (m.settle t).2.setListing p) := by
    unfold settle
    cases t.warnings <;> rfl
  unfold step
  cases hqueue : m.queue with
  | cons event rest => simp [setListing, hqueue]
  | nil =>
    cases hphase : m.phase with
    | idle | finished | awaiting _ _ => simp [setListing, hqueue, hphase]
    | running pc => simpa [setListing, hqueue, hphase] using hsettle _

theorem input_setListing (m : Machine) (p : Program) (s : String) :
    (m.setListing p).input s = ((m.input s).1, (m.input s).2.setListing p) := by
  unfold input
  cases hphase : m.phase with
  | idle | running _ | finished => simp [setListing, hphase]
  | awaiting name pc => cases hvalue : typedValue? s <;> simp [setListing, hphase]

theorem collect_setListing [PowerRoutine] (m : Machine) (p : Program) (n : Nat) :
    ((Steps.of (m.setListing p)).collect n).1 = ((Steps.of m).collect n).1 ∧
      ((Steps.of (m.setListing p)).collect n).2.machine =
        ((Steps.of m).collect n).2.machine.setListing p := by
  induction n generalizing m with
  | zero => exact ⟨rfl, rfl⟩
  | succ n ih =>
    rw [Steps.collect_succ, Steps.collect_succ, step_setListing]
    cases hstep : m.step with
    | mk event after =>
      obtain ⟨hevents, hafter⟩ := ih after
      cases event <;> simp [Event.pauses, hevents, hafter]

/-- Every operation on the run but its start leaves the listing alone and goes on in the same way
whatever the listing is. -/
theorem perform_setListing [PowerRoutine] (m : Machine) (p : Program) {op : Operation}
    (hop : op.drives = true) (hstart : op ≠ .start) :
    (m.setListing p).perform op = ((m.perform op).1, (m.perform op).2.setListing p) := by
  cases op with
  | enter _ | load _ | clear | setListing _ => cases hop
  | start => exact absurd rfl hstart
  | interrupt => rfl
  | input s => simp only [perform, input_setListing]
  | step => simp only [perform, step_setListing]
  | steps n =>
    obtain ⟨hevents, hafter⟩ := collect_setListing m p n
    simp only [perform, hevents, hafter]

def unlisted (m : Machine) : Machine :=
  m.setListing .empty

theorem eq_setListing_of_unlisted_eq {m m' : Machine} (h : m.unlisted = m'.unlisted) :
    m' = m.setListing m'.listing := by
  cases m
  cases m'
  simp only [unlisted, setListing, mk.injEq, true_and] at h
  simp only [setListing, mk.injEq, true_and]
  exact ⟨h.1.symm, h.2.1.symm, h.2.2.1.symm, h.2.2.2.symm⟩

theorem separates_drives [PowerRoutine] : Separates (· ≠ .start) Operation.drives unlisted where
  hidden m op _ hop := by
    cases op with
    | enter _ | load _ | clear | setListing _ => rfl
    | start | interrupt | input _ | step | steps _ => cases hop
  determined m m' op hstart hop hview := by
    rw [eq_setListing_of_unlisted_eq hview, perform_setListing m m'.listing hop hstart]
    exact ⟨rfl, rfl⟩

/-! ## Edits do not look at the run -/

theorem listing_perform_of_drives [PowerRoutine] (m : Machine) {op : Operation}
    (hop : op.drives = true) : (m.perform op).2.listing = m.listing := by
  by_cases hstart : op = .start
  · subst hstart
    rfl
  · have hsame := perform_setListing m m.listing hop hstart
    exact congrArg (fun after => after.2.listing) hsame

theorem separates_edits [PowerRoutine] : Separates (fun _ => True) Operation.edits listing where
  hidden m op _ hop := listing_perform_of_drives m (by simp [Operation.drives, hop])
  determined m m' op _ hop hview := by
    cases op with
    | enter s => simp only [perform, enter, hview, and_self]
    | load _ | clear | setListing _ => exact ⟨rfl, rfl⟩
    | start | interrupt | input _ | step | steps _ => cases hop

/-! ## Both together -/

/-- Where a run stands: its state, the line it goes on with, and its variables. -/
structure Standing where
  state : RunState
  pc : Option LineNumber
  vars : Variables

def standing (m : Machine) : Standing :=
  ⟨m.phase.state, m.phase.pc?, m.vars⟩

/-- Any edits may be put into a history without starts, or taken out of it, and the run answers as
before and stands where it stood before, operation by operation. Any operations on the run, starts
among them, may be put into a history or taken out of it, and the edits answer as before and leave
the same listing. -/
theorem edits_and_runs_isolated [PowerRoutine] (m : Machine) (ops ops' : List Operation) :
    (.start ∉ ops → ops.filter Operation.drives = ops'.filter Operation.drives →
      m.observe Operation.drives standing ops = m.observe Operation.drives standing ops' ∧
        (m.performAll ops).2.standing = (m.performAll ops').2.standing) ∧
    (ops.filter Operation.edits = ops'.filter Operation.edits →
      m.observe Operation.edits listing ops = m.observe Operation.edits listing ops' ∧
        (m.performAll ops).2.listing = (m.performAll ops').2.listing) := by
  constructor
  · intro hstart hsame
    have hstart' : .start ∉ ops' := fun hmem =>
      have hkept : Operation.start ∈ ops'.filter Operation.drives := List.mem_filter.mpr ⟨hmem, rfl⟩
      hstart (List.mem_filter.mp (hsame ▸ hkept)).1
    obtain ⟨hseen, hlast⟩ := separates_drives.observe_congr m
      (fun op hop heq => hstart (heq ▸ hop)) (fun op hop heq => hstart' (heq ▸ hop)) hsame
    have hview : standing = standing ∘ unlisted := rfl
    rw [hview, observe_comp, observe_comp, hseen]
    exact ⟨rfl, congrArg standing hlast⟩
  · intro hsame
    exact separates_edits.observe_congr m (fun _ _ => trivial) (fun _ _ => trivial) hsame

/-- A run in the middle of its program does not notice that its next line is deleted, nor does the
listing notice the run. -/
theorem deleted_line_still_runs :
    let m := (Machine.new.load ["10 PRINT 1", "20 PRINT 2"]).start
    let ops : List Operation := [.step, .enter "20", .step]
    (m.performAll ops).1 = [.event (.print "1"), .edit (.deleted 20), .event (.print "2")] ∧
    .start ∉ ops ∧
    m.observe Operation.drives standing ops = m.observe Operation.drives standing [.step, .step] ∧
    m.observe Operation.edits listing ops = m.observe Operation.edits listing [.enter "20"] := by
  intro m ops
  have hstart : .start ∉ ops := by simp [ops]
  refine ⟨by cbv, hstart, ?_, ?_⟩
  · exact ((edits_and_runs_isolated m ops [.step, .step]).1 hstart rfl).1
  · exact ((edits_and_runs_isolated m ops [.enter "20"]).2 rfl).1

end Machine

end LineBasic
