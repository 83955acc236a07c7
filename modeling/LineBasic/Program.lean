import LineBasic.Outline

/-!
# Programs

A program holds numbered statements in ascending order of their numbers, each with the text it was
typed as. Entering a line stores a statement in place of an older one of its number, or deletes it;
every other line leaves the program as it is.
-/
namespace LineBasic

/-- A stored line: its number, the text it was typed as, and the statement in it. -/
structure Entry where
  number : LineNumber
  source : String
  statement : Statement
  deriving DecidableEq, Inhabited

/-- Line numbers go up strictly, so that no number occurs twice. -/
def Ascending (entries : List Entry) : Prop :=
  entries.Pairwise fun a b => a.number < b.number

structure Program where
  entries : List Entry
  ascending : Ascending entries

namespace Entry

/-- The entries after `entry` takes its place among them. -/
def place (entry : Entry) : List Entry → List Entry
  | [] => [entry]
  | first :: rest =>
    if entry.number < first.number then entry :: first :: rest
    else if entry.number = first.number then entry :: rest
    else first :: place entry rest

theorem mem_place {entry other : Entry} {entries : List Entry}
    (h : other ∈ place entry entries) : other = entry ∨ other ∈ entries := by
  induction entries with
  | nil => simpa [place] using h
  | cons first rest ih =>
    unfold place at h
    split at h
    · simpa using h
    · split at h
      · simp only [List.mem_cons] at h ⊢
        exact h.imp_right Or.inr
      · simp only [List.mem_cons] at h ⊢
        rcases h with h | h
        · exact Or.inr (Or.inl h)
        · exact (ih h).imp_right Or.inr

theorem ascending_place {entries : List Entry} (h : Ascending entries) (entry : Entry) :
    Ascending (place entry entries) := by
  induction entries with
  | nil => exact List.pairwise_singleton _ _
  | cons first rest ih =>
    obtain ⟨above, tail⟩ := List.pairwise_cons.1 h
    unfold place
    split
    · rename_i lt
      refine List.pairwise_cons.2 ⟨fun other mem => ?_, h⟩
      rcases List.mem_cons.1 mem with rfl | mem
      · exact lt
      · exact UInt64.lt_trans lt (above other mem)
    · split
      · rename_i eq
        exact List.pairwise_cons.2 ⟨fun other mem => eq ▸ above other mem, tail⟩
      · rename_i ge ne
        refine List.pairwise_cons.2 ⟨fun other mem => ?_, ih tail⟩
        rcases mem_place mem with rfl | mem
        · exact UInt64.lt_of_le_of_ne (UInt64.not_lt.1 ge) (Ne.symm ne)
        · exact above other mem

theorem find?_place (entry : Entry) (number : LineNumber) {entries : List Entry}
    (h : Ascending entries) :
    (place entry entries).find? (fun e => e.number == number) =
      if number = entry.number then some entry
      else entries.find? fun e => e.number == number := by
  induction entries with
  | nil =>
    by_cases hn : number = entry.number
    · simp [place, hn]
    · simp [place, hn, Ne.symm hn]
  | cons first rest ih =>
    obtain ⟨_, tail⟩ := List.pairwise_cons.1 h
    unfold place
    split
    · by_cases hn : number = entry.number
      · simp [hn]
      · simp [hn, Ne.symm hn]
    · split
      · rename_i eq
        by_cases hn : number = entry.number
        · simp [hn]
        · have hf : first.number ≠ number := fun hf => hn (hf.symm.trans eq.symm)
          simp [hn, hf, Ne.symm hn]
      · rename_i ne
        by_cases hf : first.number = number
        · have hn : number ≠ entry.number := fun eq => ne (eq.symm.trans hf.symm)
          simp [hf, hn]
        · simp [hf, ih tail]

def line (entry : Entry) : Line :=
  .numbered entry.number entry.statement

end Entry

namespace Program

def empty : Program :=
  ⟨[], List.Pairwise.nil⟩

instance : Inhabited Program := ⟨empty⟩

/-- Stores an entry in place of an older one of its number. -/
def insert (p : Program) (entry : Entry) : Program :=
  ⟨entry.place p.entries, Entry.ascending_place p.ascending entry⟩

def erase (p : Program) (number : LineNumber) : Program :=
  ⟨p.entries.filter fun entry => entry.number != number, p.ascending.filter _⟩

def get? (p : Program) (number : LineNumber) : Option Entry :=
  p.entries.find? fun entry => entry.number == number

theorem get?_insert (p : Program) (entry : Entry) (number : LineNumber) :
    (p.insert entry).get? number = if number = entry.number then some entry else p.get? number :=
  Entry.find?_place entry number p.ascending

theorem get?_erase (p : Program) (erased number : LineNumber) :
    (p.erase erased).get? number = if number = erased then none else p.get? number := by
  simp only [get?, erase, List.find?_filter]
  by_cases h : number = erased
  · simp [h]
  · simp only [h, if_false]
    congr 1
    funext entry
    by_cases he : entry.number = number <;> simp_all

def statement? (p : Program) (number : LineNumber) : Option Statement :=
  (p.get? number).map Entry.statement

def source? (p : Program) (number : LineNumber) : Option String :=
  (p.get? number).map Entry.source

/-- The least line number. -/
def first? (p : Program) : Option LineNumber :=
  p.entries.head?.map Entry.number

/-- The least line number above `number`, which need not be a line itself. -/
def after? (p : Program) (number : LineNumber) : Option LineNumber :=
  (p.entries.find? fun entry => number < entry.number).map Entry.number

def sources (p : Program) : List String :=
  p.entries.map Entry.source

def size (p : Program) : Nat :=
  p.entries.length

def isEmpty (p : Program) : Bool :=
  p.entries.isEmpty

def outline (p : Program) : Outline :=
  p.entries.flatMap fun entry => entry.line.outline

/-- Stores a typed line if it is a numbered statement. -/
def store (p : Program) (s : String) : Program :=
  match Line.ofText s with
  | .numbered number statement => p.insert ⟨number, Line.source s, statement⟩
  | _ => p

/-- The program of the numbered statements among some typed lines. Where a number occurs more than
once, its last line counts. -/
def ofLines (lines : List String) : Program :=
  lines.foldl store empty

def ofText (text : List Char) : Program :=
  ofLines ((Text.lines text).map String.ofList)

end Program

/-- What a typed line did to a program. -/
inductive Edit
  | updated (number : LineNumber)
  | deleted (number : LineNumber)
  | command (c : Command)
  | malformed (e : Error)
  | unchanged
  deriving DecidableEq, Inhabited

namespace Program

def enter (p : Program) (s : String) : Edit × Program :=
  match Line.ofText s with
  | .numbered number statement => (.updated number, p.insert ⟨number, Line.source s, statement⟩)
  | .delete number => (.deleted number, p.erase number)
  | .command c => (.command c, p)
  | .blank => (.unchanged, p)
  | .invalid e => (.malformed e, p)

end Program

end LineBasic
