import LineBasic.Proofs.Editing
import LineBasic.Proofs.MachineInvariant

/-!
# The order of the lines

Where a run begins and where it goes on is the least line of a program, or the least one above
another. Both are said here by the lines alone: which line is the least with a property does not
depend on how the lines are stored.
-/
namespace LineBasic.Program

variable {p : Program} {number : LineNumber}

theorem hasLine_iff : p.HasLine number ↔ ∃ entry ∈ p.entries, entry.number = number := by
  unfold HasLine statement?
  simp only [Option.map_eq_some_iff, get?_eq_some_iff]
  constructor
  · rintro ⟨_, entry, hentry, _⟩
    exact ⟨entry, hentry⟩
  · rintro ⟨entry, hentry⟩
    exact ⟨entry.statement, entry, hentry, rfl⟩

theorem targets_iff :
    p.Targets number ↔ ∃ entry ∈ p.entries, entry.statement.target? = some number := by
  unfold Targets statement?
  simp only [Option.map_eq_some_iff, get?_eq_some_iff]
  constructor
  · rintro ⟨_, _, ⟨entry, ⟨hentry, _⟩, rfl⟩, htarget⟩
    exact ⟨entry, hentry, htarget⟩
  · rintro ⟨entry, hentry, htarget⟩
    exact ⟨entry.number, entry.statement, ⟨entry, ⟨hentry, rfl⟩, rfl⟩, htarget⟩

theorem hasLine_insert_iff {entry : Entry} :
    (p.insert entry).HasLine number ↔ number = entry.number ∨ p.HasLine number := by
  unfold HasLine statement?
  rw [get?_insert]
  split <;> simp_all

/-! ## The least line with a property -/

/-- The least line with the property, or none if no line has it. -/
def LeastLine (p : Program) (P : LineNumber → Prop) : Option LineNumber → Prop
  | some number => p.HasLine number ∧ P number ∧ ∀ other, p.HasLine other → P other → number ≤ other
  | none => ∀ other, p.HasLine other → ¬ P other

namespace LeastLine

variable {P Q : LineNumber → Prop} {next next' : Option LineNumber}

theorem unique (h : p.LeastLine P next) (h' : p.LeastLine P next') : next = next' := by
  cases next with
  | none =>
    cases next' with
    | none => rfl
    | some number => exact absurd h'.2.1 (h number h'.1)
  | some number =>
    cases next' with
    | none => exact absurd h.2.1 (h' number h.1)
    | some number' =>
      have hle : number ≤ number' := h.2.2 number' h'.1 h'.2.1
      have hge : number' ≤ number := h'.2.2 number h.1 h.2.1
      rw [UInt64.le_antisymm hle hge]

theorem congr (h : p.LeastLine P next) (hPQ : ∀ number, p.HasLine number → (P number ↔ Q number)) :
    p.LeastLine Q next := by
  cases next with
  | none => exact fun other hother hQ => h other hother ((hPQ other hother).mpr hQ)
  | some number =>
    obtain ⟨hline, hP, hleast⟩ := h
    exact ⟨hline, (hPQ number hline).mp hP,
      fun other hother hQ => hleast other hother ((hPQ other hother).mpr hQ)⟩

end LeastLine

theorem leastLine_first? (p : Program) : p.LeastLine (fun _ => True) p.first? := by
  obtain ⟨entries, ascending⟩ := p
  cases entries with
  | nil =>
    intro other hother
    obtain ⟨entry, hentry, _⟩ := hasLine_iff.mp hother
    cases hentry
  | cons first rest =>
    refine ⟨hasLine_iff.mpr ⟨first, List.mem_cons_self, rfl⟩, trivial, fun other hother _ => ?_⟩
    obtain ⟨entry, hentry, rfl⟩ := hasLine_iff.mp hother
    rcases List.mem_cons.mp hentry with rfl | hrest
    · exact UInt64.le_refl _
    · exact UInt64.le_of_lt ((List.pairwise_cons.mp ascending).1 entry hrest)

theorem leastLine_after? (p : Program) (number : LineNumber) :
    p.LeastLine (number < ·) (p.after? number) := by
  unfold after?
  cases hfind : p.entries.find? fun entry => number < entry.number with
  | none =>
    intro other hother
    obtain ⟨entry, hentry, rfl⟩ := hasLine_iff.mp hother
    simpa using List.find?_eq_none.mp hfind entry hentry
  | some found =>
    obtain ⟨habove, before, behind, hentries, hbefore⟩ := List.find?_eq_some_iff_append.mp hfind
    refine ⟨hasLine_iff.mpr ⟨found, List.mem_of_find?_eq_some hfind, rfl⟩, by simpa using habove,
      fun other hother hlt => ?_⟩
    obtain ⟨entry, hentry, rfl⟩ := hasLine_iff.mp hother
    have hascending := p.ascending
    rw [hentries] at hentry hascending
    rcases List.mem_append.mp hentry with hentry | hentry
    · exact absurd hlt (by simpa using hbefore entry hentry)
    · rcases List.mem_cons.mp hentry with rfl | hentry
      · exact UInt64.le_refl _
      · have hbehind := (List.pairwise_cons.mp (List.pairwise_append.mp hascending).2.1).1
        exact UInt64.le_of_lt (hbehind entry hentry)

/-! ## One more line -/

/-- Where the program without the line of the number goes on. -/
def past (p : Program) (number : LineNumber) (pc : Option LineNumber) : Option LineNumber :=
  if pc = some number then p.after? number else pc

theorem past_self (p : Program) (number : LineNumber) :
    p.past number (some number) = p.after? number :=
  if_pos rfl

theorem past_of_ne {pc : Option LineNumber} (h : pc ≠ some number) : p.past number pc = pc :=
  if_neg h

section Insertion

variable {entry : Entry} (hnew : ¬ p.HasLine entry.number)
include hnew

/-- The least line is found by passing over the one that was put in, if larger lines have the
property too. -/
theorem LeastLine.past {P : LineNumber → Prop} (hupward : ∀ a b, a < b → P a → P b)
    {next : Option LineNumber} (h : (p.insert entry).LeastLine P next) :
    p.LeastLine P (p.past entry.number next) := by
  cases next with
  | none =>
    rw [past_of_ne (by simp)]
    exact fun other hother => h other (hasLine_insert_iff.mpr (.inr hother))
  | some found =>
    obtain ⟨hline, hP, hleast⟩ := h
    have hothers : ∀ other, p.HasLine other → P other → found ≤ other := fun other hother =>
      hleast other (hasLine_insert_iff.mpr (.inr hother))
    by_cases hfound : found = entry.number
    · subst hfound
      rw [past_self]
      refine (p.leastLine_after? entry.number).congr fun other hother => ?_
      constructor
      · intro hlt
        exact hupward _ _ hlt hP
      · intro hPo
        apply UInt64.lt_of_le_of_ne (hothers other hother hPo)
        rintro rfl
        exact hnew hother
    · rw [past_of_ne (by simpa using hfound)]
      exact ⟨(hasLine_insert_iff.mp hline).resolve_left hfound, hP, hothers⟩

theorem past_first?_insert : p.past entry.number (p.insert entry).first? = p.first? := by
  have h := (p.insert entry).leastLine_first?.past hnew (fun _ _ _ _ => trivial)
  exact h.unique p.leastLine_first?

theorem past_after?_insert (number : LineNumber) :
    p.past entry.number ((p.insert entry).after? number) = p.after? number := by
  have hupward : ∀ a b : LineNumber, a < b → number < a → number < b := fun _ _ hab ha =>
    UInt64.lt_trans ha hab
  exact (((p.insert entry).leastLine_after? number).past hnew hupward).unique
    (p.leastLine_after? number)

end Insertion

end LineBasic.Program
