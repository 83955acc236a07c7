import Mathlib
import LineBasic.Proofs.LineOrder

/-!
# The lines in sequence

A run that never jumps begins at the first line and goes on with the line after each. This visits
the lines as they are displayed: at every position the line whose text stands there in the listing,
until all have been visited. It holds after any changes of a program, and for the largest line
number too, above which no line is left.
-/
namespace LineBasic

namespace Program

variable {p : Program} {i j : ℕ} {entry other : Entry} {number : LineNumber}

/-- The line at a position of the sequence that begins at the first line and goes on with the line
after each. -/
def visit (p : Program) : ℕ → Option LineNumber
  | 0 => p.first?
  | i + 1 => (p.visit i).bind p.after?

theorem number_lt (hi : p.entries[i]? = some entry) (hj : p.entries[j]? = some other)
    (hij : i < j) : entry.number < other.number := by
  obtain ⟨hlow, rfl⟩ := List.getElem?_eq_some_iff.mp hi
  obtain ⟨hhigh, rfl⟩ := List.getElem?_eq_some_iff.mp hj
  exact List.pairwise_iff_getElem.mp p.ascending i j hlow hhigh hij

theorem number_lt_iff (hi : p.entries[i]? = some entry) (hj : p.entries[j]? = some other) :
    entry.number < other.number ↔ i < j := by
  constructor
  · intro hnumber
    rcases lt_trichotomy i j with hij | rfl | hji
    · exact hij
    · cases hi.symm.trans hj
      exact absurd hnumber (UInt64.lt_irrefl _)
    · exact absurd hnumber (UInt64.lt_asymm (number_lt hj hi hji))
  · exact number_lt hi hj

theorem exists_position (h : p.HasLine number) :
    ∃ (i : ℕ) (entry : Entry), p.entries[i]? = some entry ∧ entry.number = number := by
  obtain ⟨entry, hentry, hnumber⟩ := hasLine_iff.mp h
  obtain ⟨i, hi⟩ := List.mem_iff_getElem?.mp hentry
  exact ⟨i, entry, hi, hnumber⟩

theorem hasLine_of_position (h : p.entries[i]? = some entry) : p.HasLine entry.number :=
  hasLine_of_mem (List.mem_of_getElem? h)

theorem leastLine_behind (h : p.entries[i]? = some entry) :
    p.LeastLine (entry.number < ·) (p.entries[i + 1]?.map Entry.number) := by
  cases hnext : p.entries[i + 1]? with
  | none =>
    intro number hnumber hlt
    obtain ⟨j, other, hj, rfl⟩ := exists_position hnumber
    have hij := (number_lt_iff h hj).mp hlt
    obtain ⟨hlength, _⟩ := List.getElem?_eq_some_iff.mp hj
    have := List.getElem?_eq_none_iff.mp hnext
    omega
  | some next =>
    refine ⟨hasLine_of_position hnext, (number_lt_iff h hnext).mpr (by omega), ?_⟩
    intro number hnumber hlt
    obtain ⟨j, other, hj, rfl⟩ := exists_position hnumber
    have hij := (number_lt_iff h hj).mp hlt
    rw [← UInt64.not_lt, number_lt_iff hj hnext]
    omega

theorem after?_eq (h : p.entries[i]? = some entry) :
    p.after? entry.number = p.entries[i + 1]?.map Entry.number :=
  (p.leastLine_after? entry.number).unique (leastLine_behind h)

theorem visit_eq (p : Program) (i : ℕ) : p.visit i = p.entries[i]?.map Entry.number := by
  induction i with
  | zero => rw [visit, first?, List.head?_eq_getElem?]
  | succ i ih =>
    rw [visit, ih]
    cases h : p.entries[i]? with
    | none =>
      have hlength := List.getElem?_eq_none_iff.mp h
      rw [List.getElem?_eq_none (by omega)]
      rfl
    | some entry => exact after?_eq h

theorem visit_eq_some_iff :
    p.visit i = some number ↔ ∃ entry, p.entries[i]? = some entry ∧ entry.number = number := by
  rw [visit_eq, Option.map_eq_some_iff]

theorem visit_eq_none_iff : p.visit i = none ↔ p.size ≤ i := by
  rw [visit_eq, Option.map_eq_none_iff, List.getElem?_eq_none_iff, size]

theorem hasLine_of_visit (h : p.visit i = some number) : p.HasLine number := by
  obtain ⟨entry, hentry, rfl⟩ := visit_eq_some_iff.mp h
  exact hasLine_of_position hentry

theorem visit_lt_iff {a b : LineNumber} (hi : p.visit i = some a) (hj : p.visit j = some b) :
    a < b ↔ i < j := by
  obtain ⟨entry, hentry, rfl⟩ := visit_eq_some_iff.mp hi
  obtain ⟨other, hother, rfl⟩ := visit_eq_some_iff.mp hj
  exact number_lt_iff hentry hother

theorem existsUnique_visit (h : p.HasLine number) : ∃! i, p.visit i = some number := by
  obtain ⟨i, entry, hentry, hnumber⟩ := exists_position h
  have hi := visit_eq_some_iff.mpr ⟨entry, hentry, hnumber⟩
  refine ⟨i, hi, fun j hj => ?_⟩
  have hle : ¬ i < j := fun hij => UInt64.lt_irrefl _ ((visit_lt_iff hi hj).mpr hij)
  have hge : ¬ j < i := fun hji => UInt64.lt_irrefl _ ((visit_lt_iff hj hi).mpr hji)
  omega

/-! ## What is displayed -/

theorem get?_visit (p : Program) (i : ℕ) : (p.visit i).bind p.get? = p.entries[i]? := by
  rw [visit_eq]
  cases h : p.entries[i]? with
  | none => rfl
  | some entry => exact mem_entries_iff.mp (List.mem_of_getElem? h)

theorem source?_visit (p : Program) (i : ℕ) : (p.visit i).bind p.source? = p.sources[i]? := by
  rw [sources, List.getElem?_map, ← get?_visit, Option.map_bind]
  rfl

theorem flatMap_range_getElem? {α β : Type} (l : List α) (f : α → List β) :
    (List.range l.length).flatMap (fun i => l[i]?.elim [] f) = l.flatMap f := by
  induction l with
  | nil => rfl
  | cons a l ih =>
    rw [List.length_cons, List.range_succ_eq_map, List.flatMap_cons, List.flatMap_map]
    simp [ih]

theorem outline_eq_flatMap_visit (p : Program) :
    p.outline = (List.range p.size).flatMap fun i =>
      ((p.visit i).bind p.get?).elim [] fun entry => entry.line.outline := by
  simp only [get?_visit]
  exact (flatMap_range_getElem? _ _).symm

/-! ## After any changes -/

theorem hasLine_changes_iff {cs : List Change} :
    (empty.changes cs).HasLine number ↔
      ∃ entry, Stands (cs.flatMap Change.touches) entry ∧ entry.number = number := by
  simp only [hasLine_iff, mem_changes_iff]

/-- After any changes the program has the lines that the changes left standing, and the sequence
from the first line on visits each of them once and nothing else, in ascending order. It ends when
all have been visited. The texts and the outlines of the lines are displayed in the same order.
After any number, be it a line or not, comes the least line above it. -/
theorem sequence_enumerates (cs : List Change) :
    let p := empty.changes cs
    (∀ number, p.HasLine number ↔
      ∃ entry, Stands (cs.flatMap Change.touches) entry ∧ entry.number = number) ∧
    (∀ i number, p.visit i = some number → p.HasLine number) ∧
    (∀ number, p.HasLine number → ∃! i, p.visit i = some number) ∧
    (∀ i j a b, p.visit i = some a → p.visit j = some b → (a < b ↔ i < j)) ∧
    (∀ i, p.visit i = none ↔ p.size ≤ i) ∧
    (∀ i, (p.visit i).bind p.source? = p.sources[i]?) ∧
    (p.outline = (List.range p.size).flatMap fun i =>
      ((p.visit i).bind p.get?).elim [] fun entry => entry.line.outline) ∧
    ∀ number, p.LeastLine (number < ·) (p.after? number) := by
  intro p
  exact ⟨fun number => hasLine_changes_iff, fun i number => hasLine_of_visit,
    fun number => existsUnique_visit, fun i j a b => visit_lt_iff, fun i => visit_eq_none_iff,
    p.source?_visit, p.outline_eq_flatMap_visit, p.leastLine_after?⟩

/-- Lines that were overwritten, deleted and loaded, up to the largest number. -/
theorem sequence_enumerates_to_largest_number :
    let cs : List Change :=
      [.enter "5 END", .load ["20 PRINT 2", "18446744073709551615 END", "10 END", "20 PRINT 3"],
        .enter "10", .enter "7 REM"]
    let p := empty.changes cs
    p.visit 0 = some 7 ∧ p.visit 2 = some 18446744073709551615 ∧
    (7 < (18446744073709551615 : LineNumber) ↔ 0 < 2) ∧ p.HasLine 18446744073709551615 ∧
    (∃! i, p.visit i = some 18446744073709551615) ∧ p.visit 3 = none ∧
    (p.visit 1).bind p.source? = some "20 PRINT 3" := by
  intro cs p
  obtain ⟨_, hlines, honce, hascending, hends, htexts, _⟩ := sequence_enumerates cs
  have hfirst : (empty.changes cs).visit 0 = some 7 := by cbv
  have hlast : (empty.changes cs).visit 2 = some 18446744073709551615 := by cbv
  have hsize : (empty.changes cs).size = 3 := by cbv
  have htext : (empty.changes cs).sources[1]? = some "20 PRINT 3" := by cbv
  have hline := hlines 2 _ hlast
  exact ⟨hfirst, hlast, hascending 0 2 _ _ hfirst hlast, hline, honce _ hline,
    (hends 3).mpr hsize.le, (htexts 1).trans htext⟩

end Program

end LineBasic
