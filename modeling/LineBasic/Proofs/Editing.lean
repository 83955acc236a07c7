import Mathlib
import LineBasic.Program

/-!
# Programs and their last edits

A program is changed by entering lines, by loading lines in its place, and by dropping it. The three
treat the same line differently: a bare number deletes a line where it is typed and counts for
nothing where it is loaded. What is left of all changes can still be said line by line: a number has
the statement of the last text that gave it one, unless something after that text took it away. The
whole program is the list of these entries in ascending order.
-/
namespace LineBasic

/-! ## Programs by their entries -/

namespace Program

variable {p q : Program} {entry other : Entry} {number : LineNumber}

theorem mem_entries_iff : entry ∈ p.entries ↔ p.get? entry.number = some entry := by
  obtain ⟨entries, ascending⟩ := p
  unfold get?
  dsimp only
  induction entries with
  | nil => simp
  | cons first rest ih =>
    obtain ⟨above, tail⟩ := List.pairwise_cons.mp ascending
    by_cases hnumber : first.number = entry.number
    · have hnot : entry ∉ rest := fun hmem =>
        UInt64.lt_irrefl _ (hnumber ▸ above entry hmem)
      simp [hnumber, hnot, eq_comm]
    · have hne : entry ≠ first := fun heq => hnumber (heq ▸ rfl)
      rw [List.find?_cons_of_neg (by simp [hnumber])]
      simp [hne, ih tail]

theorem get?_eq_some_iff :
    p.get? number = some entry ↔ entry ∈ p.entries ∧ entry.number = number := by
  constructor
  · intro h
    have hnumber : entry.number = number := by simpa using List.find?_some h
    exact ⟨mem_entries_iff.mpr (hnumber ▸ h), hnumber⟩
  · rintro ⟨hmem, rfl⟩
    exact mem_entries_iff.mp hmem

theorem ext_mem (h : ∀ entry, entry ∈ p.entries ↔ entry ∈ q.entries) : p = q := by
  obtain ⟨entries, ascending⟩ := p
  obtain ⟨entries', ascending'⟩ := q
  have : Std.Irrefl fun a b : Entry => a.number < b.number := ⟨fun a => UInt64.lt_irrefl a.number⟩
  have : Std.Antisymm fun a b : Entry => a.number < b.number :=
    ⟨fun a b hab hba => absurd hba (UInt64.lt_asymm hab)⟩
  congr 1
  exact List.Pairwise.eq_of_mem_iff ascending ascending' h

theorem mem_insert_iff : other ∈ (p.insert entry).entries ↔
    other = entry ∨ other ∈ p.entries ∧ other.number ≠ entry.number := by
  rw [mem_entries_iff, get?_insert, mem_entries_iff]
  by_cases hnumber : other.number = entry.number
  · simp [hnumber, eq_comm]
  · have hne : other ≠ entry := fun heq => hnumber (heq ▸ rfl)
    simp [hnumber, hne]

theorem mem_erase_iff :
    entry ∈ (p.erase number).entries ↔ entry ∈ p.entries ∧ entry.number ≠ number := by
  simp [erase]

end Program

/-! ## Changes -/

inductive Change
  | enter (s : String)
  | load (lines : List String)
  | clear
  deriving DecidableEq

/-- What a change does with one line: it is typed or loaded, or all lines are dropped. -/
inductive Touch
  | typed (s : String)
  | loaded (s : String)
  | dropped
  deriving DecidableEq

/-- A change touch by touch. Loading drops the old lines first. -/
def Change.touches : Change → List Touch
  | enter s => [.typed s]
  | load lines => .dropped :: lines.map .loaded
  | clear => [.dropped]

namespace Program

def change (p : Program) : Change → Program
  | .enter s => (p.enter s).2
  | .load lines => .ofLines lines
  | .clear => .empty

def changes (p : Program) (cs : List Change) : Program :=
  cs.foldl change p

def touch (p : Program) : Touch → Program
  | .typed s => (p.enter s).2
  | .loaded s => p.store s
  | .dropped => .empty

theorem change_eq_foldl (p : Program) (c : Change) : p.change c = c.touches.foldl touch p := by
  cases c with
  | enter s | clear => rfl
  | load lines =>
    simp only [change, ofLines, Change.touches, List.foldl_cons, List.foldl_map]
    rfl

theorem changes_eq_foldl (p : Program) (cs : List Change) :
    p.changes cs = (cs.flatMap Change.touches).foldl touch p := by
  rw [List.foldl_flatMap, changes]
  congr 1
  funext q c
  exact change_eq_foldl q c

end Program

def Line.isNumbered : Line → Bool
  | numbered _ _ => true
  | _ => false

namespace Touch

def text? : Touch → Option String
  | typed s => some s
  | loaded s => some s
  | dropped => none

/-- The text that was typed or loaded is read as the statement of the entry. -/
def Stores (t : Touch) (entry : Entry) : Prop :=
  ∃ s, t.text? = some s ∧ Line.ofText s = entry.line ∧ Line.source s = entry.source

/-- After the touch, an older line of the number is no longer there. Bare numbers count where they
are typed only. -/
def Concerns (t : Touch) (number : LineNumber) : Prop :=
  match t with
  | typed s => (∃ st, Line.ofText s = .numbered number st) ∨ Line.ofText s = .delete number
  | loaded s => ∃ st, Line.ofText s = .numbered number st
  | dropped => True

variable {t : Touch} {entry : Entry}

theorem Stores.concerns (h : t.Stores entry) : t.Concerns entry.number := by
  obtain ⟨s, htext, hline, _⟩ := h
  cases t with
  | typed _ =>
    cases htext
    exact .inl ⟨_, hline⟩
  | loaded _ =>
    cases htext
    exact ⟨_, hline⟩
  | dropped => cases htext

theorem stores_iff_of_numbered {s : String} {number : LineNumber} {st : Statement}
    (htext : t.text? = some s) (hline : Line.ofText s = .numbered number st) :
    t.Stores entry ↔ entry = ⟨number, Line.source s, st⟩ := by
  obtain ⟨number', source', st'⟩ := entry
  simp only [Stores, htext, Option.some.injEq, exists_eq_left', hline, Entry.line,
    Line.numbered.injEq, Entry.mk.injEq]
  constructor
  · rintro ⟨⟨rfl, rfl⟩, rfl⟩
    exact ⟨rfl, rfl, rfl⟩
  · rintro ⟨rfl, rfl, rfl⟩
    exact ⟨⟨rfl, rfl⟩, rfl⟩

theorem not_stores_of_not_numbered {s : String} (htext : t.text? = some s)
    (hline : (Line.ofText s).isNumbered = false) : ¬ t.Stores entry := by
  rintro ⟨s', htext', hline', _⟩
  cases htext.symm.trans htext'
  rw [hline'] at hline
  cases hline

end Touch

namespace Program

variable {p : Program} {t u : Touch} {entry : Entry}

/-- What one touch leaves: the entry it stores, and the older ones that it does not concern. -/
theorem mem_touch_iff : entry ∈ (p.touch t).entries ↔
    t.Stores entry ∨ entry ∈ p.entries ∧ ¬ t.Concerns entry.number := by
  cases t with
  | dropped => simp [touch, empty, Touch.Stores, Touch.text?, Touch.Concerns]
  | typed s =>
    cases hline : Line.ofText s with
    | numbered number st =>
      rw [Touch.stores_iff_of_numbered rfl hline]
      simp [touch, enter, hline, mem_insert_iff, Touch.Concerns, eq_comm]
    | delete number =>
      simp [touch, enter, hline, mem_erase_iff, Touch.Concerns, eq_comm,
        Touch.not_stores_of_not_numbered (t := .typed s) rfl (by rw [hline]; rfl)]
    | command _ | blank | invalid _ =>
      simp [touch, enter, hline, Touch.Concerns,
        Touch.not_stores_of_not_numbered (t := .typed s) rfl (by rw [hline]; rfl)]
  | loaded s =>
    cases hline : Line.ofText s with
    | numbered number st =>
      rw [Touch.stores_iff_of_numbered rfl hline]
      simp [touch, store, hline, mem_insert_iff, Touch.Concerns, eq_comm]
    | delete _ | command _ | blank | invalid _ =>
      simp [touch, store, hline, Touch.Concerns,
        Touch.not_stores_of_not_numbered (t := .loaded s) rfl (by rw [hline]; rfl)]

theorem touch_comm (h : ∀ number, t.Concerns number → ¬ u.Concerns number) :
    (p.touch t).touch u = (p.touch u).touch t := by
  apply ext_mem
  intro entry
  have ht : t.Stores entry → ¬ u.Concerns entry.number := fun hstores => h _ hstores.concerns
  have hu : u.Stores entry → ¬ t.Concerns entry.number := fun hstores hconcerns =>
    h _ hconcerns hstores.concerns
  simp only [mem_touch_iff]
  tauto

end Program

/-! ## The last edit -/

/-- The entry comes from a text of the history, and nothing after that text concerns its number. -/
def Stands (history : List Touch) (entry : Entry) : Prop :=
  ∃ earlier t later, history = earlier ++ t :: later ∧ t.Stores entry ∧
    ∀ other ∈ later, ¬ other.Concerns entry.number

theorem not_stands_nil (entry : Entry) : ¬ Stands [] entry := by
  rintro ⟨earlier, t, later, hnil, _⟩
  simp at hnil

theorem stands_concat_iff {history : List Touch} {t : Touch} {entry : Entry} :
    Stands (history ++ [t]) entry ↔
      t.Stores entry ∨ Stands history entry ∧ ¬ t.Concerns entry.number := by
  constructor
  · rintro ⟨earlier, first, later, hhistory, hstores, hlater⟩
    rcases List.eq_nil_or_concat later with rfl | ⟨later, last, rfl⟩
    · obtain ⟨_, hlast⟩ := List.append_inj' hhistory rfl
      cases hlast
      exact .inl hstores
    · rw [List.concat_eq_append] at hhistory hlater
      rw [← List.cons_append, ← List.append_assoc] at hhistory
      obtain ⟨hearlier, hlast⟩ := List.append_inj' hhistory rfl
      cases hlast
      refine .inr ⟨⟨earlier, first, later, hearlier, hstores, fun other hother => ?_⟩, ?_⟩
      · exact hlater other (List.mem_append_left _ hother)
      · exact hlater t (by simp)
  · rintro (hstores | ⟨⟨earlier, first, later, rfl, hstores, hlater⟩, hlast⟩)
    · exact ⟨history, t, [], rfl, hstores, by simp⟩
    · refine ⟨earlier, first, later ++ [t], by simp, hstores, fun other hother => ?_⟩
      rcases List.mem_append.mp hother with hother | hother
      · exact hlater other hother
      · cases List.mem_singleton.mp hother
        exact hlast

namespace Program

/-- After any history, the entries of the program are those that stand. -/
theorem mem_touches_iff {history : List Touch} {entry : Entry} :
    entry ∈ (history.foldl touch empty).entries ↔ Stands history entry := by
  induction history using List.reverseRecOn with
  | nil => simp [empty, not_stands_nil]
  | append_singleton history t ih =>
    rw [List.foldl_concat, mem_touch_iff, ih, stands_concat_iff]

theorem mem_changes_iff {cs : List Change} {entry : Entry} :
    entry ∈ (empty.changes cs).entries ↔ Stands (cs.flatMap Change.touches) entry := by
  rw [changes_eq_foldl, mem_touches_iff]

theorem source?_and_statement?_eq_some_iff {p : Program} {number : LineNumber} {text : String}
    {st : Statement} :
    p.source? number = some text ∧ p.statement? number = some st ↔
      (⟨number, text, st⟩ : Entry) ∈ p.entries := by
  rw [mem_entries_iff, source?, statement?]
  cases hget : p.get? number with
  | none => simp
  | some entry =>
    obtain ⟨_, hnumber⟩ := get?_eq_some_iff.mp hget
    obtain ⟨number', text', st'⟩ := entry
    cases hnumber
    simp

/-! ## Loading and entering -/

theorem store_eq (p : Program) (s : String) :
    p.store s = if (Line.ofText s).isNumbered then (p.enter s).2 else p := by
  unfold store enter
  cases Line.ofText s <;> rfl

/-- Loading is entering just the numbered statements, one by one. -/
theorem ofLines_eq_foldl_enter (lines : List String) :
    ofLines lines = (lines.filter fun s => (Line.ofText s).isNumbered).foldl
      (fun p s => (p.enter s).2) empty := by
  rw [List.foldl_filter, ofLines]
  congr 1
  funext p s
  exact store_eq p s

theorem load_eq_changes (p : Program) (lines : List String) :
    p.change (.load lines) = p.changes
      (.clear :: (lines.filter fun s => (Line.ofText s).isNumbered).map .enter) := by
  rw [changes, List.foldl_cons, List.foldl_map]
  exact ofLines_eq_foldl_enter lines

theorem ofLines_filter (lines : List String) :
    ofLines (lines.filter fun s => (Line.ofText s).isNumbered) = ofLines lines := by
  rw [ofLines_eq_foldl_enter, ofLines_eq_foldl_enter, List.filter_filter]
  simp only [Bool.and_self]

end Program

def Edit.number? : Edit → Option LineNumber
  | updated number => some number
  | deleted number => some number
  | _ => none

namespace Program

variable {p : Program} {s t : String} {number other : LineNumber}

/-- What a typed line is called does not depend on the program. -/
theorem edit_enter_eq (p q : Program) (s : String) : (p.enter s).1 = (q.enter s).1 := by
  unfold enter
  cases Line.ofText s <;> rfl

theorem enter_of_number?_eq_none (h : (p.enter s).1.number? = none) : (p.enter s).2 = p := by
  unfold enter at h ⊢
  cases hline : Line.ofText s with
  | numbered _ _ | delete _ => simp [hline, Edit.number?] at h
  | command _ | blank | invalid _ => rfl

theorem concerns_typed_iff (h : (p.enter s).1.number? = some number) :
    (Touch.typed s).Concerns other ↔ other = number := by
  unfold enter at h
  cases hline : Line.ofText s with
  | numbered _ _ | delete _ =>
    simp only [hline, Edit.number?, Option.some.injEq] at h
    simp [Touch.Concerns, hline, h, eq_comm]
  | command _ | blank | invalid _ => simp [hline, Edit.number?] at h

theorem enter_comm (hs : (p.enter s).1.number? = some number)
    (ht : (p.enter t).1.number? = some other) (hne : number ≠ other) :
    ((p.enter s).2.enter t).2 = ((p.enter t).2.enter s).2 := by
  have h : ∀ n, (Touch.typed s).Concerns n → ¬ (Touch.typed t).Concerns n := by
    intro n hn hn'
    rw [concerns_typed_iff hs] at hn
    rw [concerns_typed_iff ht] at hn'
    exact hne (hn.symm.trans hn')
  exact touch_comm h

/-- A program made by any changes is what their last edits leave, number by number, and all that is
seen of it is seen of the list of these entries in ascending order. Loading skips all but numbered
statements, and a typed line that is neither a statement nor a bare number changes nothing. So edits
of different lines commute, and loading is entering the numbered statements into nothing. -/
theorem determined_by_last_edits (cs : List Change) :
    let p := empty.changes cs
    let history := cs.flatMap Change.touches
    (∀ number text st, p.source? number = some text ∧ p.statement? number = some st ↔
      Stands history ⟨number, text, st⟩) ∧
    (∀ number, (∀ text st, ¬ Stands history ⟨number, text, st⟩) →
      p.source? number = none ∧ p.statement? number = none) ∧
    (∃ entries, Ascending entries ∧ (∀ entry, entry ∈ entries ↔ Stands history entry) ∧
      p.size = entries.length ∧ p.isEmpty = entries.isEmpty ∧
      p.first? = entries.head?.map Entry.number ∧ p.sources = entries.map Entry.source ∧
      p.outline = entries.flatMap fun entry => entry.line.outline) ∧
    (∀ lines, p.change (.load (lines.filter fun s => (Line.ofText s).isNumbered)) =
      p.change (.load lines)) ∧
    (∀ s, (p.enter s).1.number? = none → (p.enter s).2 = p) ∧
    (∀ s t number other, (p.enter s).1.number? = some number →
      (p.enter t).1.number? = some other → number ≠ other →
      ((p.enter s).2.enter t).2 = ((p.enter t).2.enter s).2 ∧
      ((p.enter s).2.enter t).1 = (p.enter t).1 ∧ ((p.enter t).2.enter s).1 = (p.enter s).1) ∧
    ∀ lines, p.change (.load lines) = p.changes
      (.clear :: (lines.filter fun s => (Line.ofText s).isNumbered).map .enter) := by
  intro p history
  have hmem : ∀ entry, entry ∈ p.entries ↔ Stands history entry := fun entry => mem_changes_iff
  refine ⟨fun number text st => ?_, fun number hnone => ?_, ?_, ofLines_filter,
    fun s => enter_of_number?_eq_none, fun s t number other hs ht hne => ?_, load_eq_changes p⟩
  · rw [source?_and_statement?_eq_some_iff, hmem]
  · cases hget : p.get? number with
    | none => simp [source?, statement?, hget]
    | some entry =>
      obtain ⟨hentry, rfl⟩ := get?_eq_some_iff.mp hget
      exact absurd ((hmem entry).mp hentry) (hnone entry.source entry.statement)
  · exact ⟨p.entries, p.ascending, hmem, rfl, rfl, rfl, rfl, rfl⟩
  · exact ⟨enter_comm hs ht hne, edit_enter_eq _ _ t, edit_enter_eq _ _ s⟩

/-- A bare number deletes its line where it is typed and is skipped where it is loaded. -/
theorem last_edits_after_reload :
    let cs : List Change :=
      [.enter "5 END", .load ["20 PRINT 2", "10 END", "20", "20 PRINT 3"], .enter "10"]
    let p := empty.changes cs
    let history := cs.flatMap Change.touches
    Stands history ⟨20, "20 PRINT 3", .print (.integer 3)⟩ ∧
      p.source? 5 = none ∧ p.source? 10 = none ∧
      (p.enter "30 END").1.number? = some 30 ∧ (p.enter "20").1.number? = some 20 ∧
      ((p.enter "30 END").2.enter "20").2 = ((p.enter "20").2.enter "30 END").2 := by
  intro cs p history
  obtain ⟨hstands, _, _, _, _, hcomm, _⟩ := determined_by_last_edits cs
  have hend : (p.enter "30 END").1.number? = some 30 := by cbv
  have hbare : (p.enter "20").1.number? = some 20 := by cbv
  have hdropped : (empty.changes cs).source? 5 = none := by cbv
  have hdeleted : (empty.changes cs).source? 10 = none := by cbv
  refine ⟨(hstands _ _ _).mp ⟨by cbv, by cbv⟩, hdropped, hdeleted, hend, hbare, ?_⟩
  exact (hcomm _ _ _ _ hend hbare (by decide)).1

end Program

end LineBasic
