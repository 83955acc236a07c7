import Mathlib
import LineBasic.Folder
import LineBasic.Proofs.Editing

/-!
# Listing a program and loading it back

The text that is kept with a statement is the text it was read from, less its line end. So it is
read as the same statement again, and the texts of a program, loaded in their order, make the same
program. In between they may stand in a file. There a text with a line feed inside would come back
as two; for all others any mixture of line ends will do, since no kept text ends as a line end
begins.
-/
namespace LineBasic

/-! ## Texts of lines -/

namespace Text

/-- The text holds the lines in order. Each is ended by a line feed, with or without a carriage
return before it, but the last may lack its line end. -/
inductive Holds : List (List Char) → List Char → Prop
  | nil : Holds [] []
  | unended (l : List Char) : Holds [l] l
  | lf {ls text} (l : List Char) : Holds ls text → Holds (l :: ls) (l ++ '\n' :: text)
  | crlf {ls text} (l : List Char) : Holds ls text → Holds (l :: ls) (l ++ '\r' :: '\n' :: text)

/-- The line is not empty, and no line end is found within it or begins with its last character. -/
structure IsSolid (l : List Char) : Prop where
  ne_nil : l ≠ []
  no_lf : '\n' ∉ l
  no_cr : l.getLast? ≠ some '\r'

theorem lines_cons {c : Char} {cs : List Char} (hlf : c ≠ '\n')
    (hcr : c = '\r' → cs.head? ≠ some '\n') :
    lines (c :: cs) = (c :: (lines cs).headD []) :: (lines cs).tail := by
  rw [lines.eq_4 _ _ hlf]
  · cases lines cs <;> rfl
  · rintro rest rfl rfl
    exact hcr rfl rfl

theorem lines_append {l rest : List Char} (hne : l ≠ []) (hlf : '\n' ∉ l)
    (hcr : l.getLast? = some '\r' → rest.head? ≠ some '\n') :
    lines (l ++ rest) = (l ++ (lines rest).headD []) :: (lines rest).tail := by
  induction l with
  | nil => exact absurd rfl hne
  | cons c l ih =>
    have hc : c ≠ '\n' := fun heq => hlf (heq ▸ List.mem_cons_self)
    have hl : '\n' ∉ l := fun hmem => hlf (List.mem_cons_of_mem c hmem)
    cases l with
    | nil => exact lines_cons hc fun heq => hcr (by simp [heq])
    | cons d l =>
      have hd : d ≠ '\n' := fun heq => hl (heq ▸ List.mem_cons_self)
      rw [List.cons_append, lines_cons hc (by simp [hd]), ih (by simp) hl (by simpa using hcr)]
      rfl

theorem Holds.lines_eq {ls : List (List Char)} {text : List Char} (h : Holds ls text)
    (hls : ∀ l ∈ ls, IsSolid l) : lines text = ls := by
  induction h with
  | nil => rfl
  | unended l =>
    have hl := hls l (by simp)
    have happend : lines (l ++ []) = [l ++ []] := lines_append hl.ne_nil hl.no_lf (by simp)
    rwa [List.append_nil] at happend
  | lf l _ ih | crlf l _ ih =>
    have hl := hls l (by simp)
    have hrest := ih fun other hother => hls other (List.mem_cons_of_mem l hother)
    rw [lines_append hl.ne_nil hl.no_lf (by simp [hl.no_cr]), lines, hrest]
    simp

end Text

theorem fileLines_toUTF8 (text : String) :
    fileLines text.toUTF8 = .ok ((Text.lines text.toList).map String.ofList) := by
  have hvalid : String.fromUTF8? text.toUTF8 = some text := dif_pos text.isValidUTF8
  rw [fileLines, hvalid]

/-! ## What is kept of a typed line -/

namespace Line

theorem source_source (s : String) : source (source s) = source s := by
  have hdrop := List.rdropWhile_idempotent Text.isLineEnd s.toList
  simp only [source, String.toList_ofList]
  exact congrArg String.ofList hdrop

theorem ofText_source (s : String) : ofText (source s) = ofText s := by
  rw [ofText, ofText, source_source]

theorem ofText_empty : ofText "" = .blank := by
  cbv

end Line

/-- The text of the entry is one that was kept, and is read as its line. -/
structure Entry.Faithful (entry : Entry) : Prop where
  kept : Line.source entry.source = entry.source
  read : Line.ofText entry.source = entry.line

theorem Touch.Stores.faithful {t : Touch} {entry : Entry} (h : t.Stores entry) :
    entry.Faithful := by
  obtain ⟨s, _, hline, hsource⟩ := h
  refine ⟨?_, ?_⟩
  · rw [← hsource, Line.source_source]
  · rw [← hsource, Line.ofText_source, hline]

namespace Entry.Faithful

variable {entry : Entry}

theorem isSolid (h : entry.Faithful) (hlf : '\n' ∉ entry.source.toList) :
    Text.IsSolid entry.source.toList where
  ne_nil := by
    intro hnil
    have hempty : entry.source = "" := String.toList_eq_nil_iff.mp hnil
    have hread := h.read
    rw [hempty, Line.ofText_empty] at hread
    cases hread
  no_lf := hlf
  no_cr := by
    intro hlast
    have hkept : List.rdropWhile Text.isLineEnd entry.source.toList = entry.source.toList := by
      have hkept := congrArg String.toList h.kept
      rwa [Line.source, String.toList_ofList] at hkept
    have hne : entry.source.toList ≠ [] := by
      intro hnil
      simp [hnil] at hlast
    rw [List.getLast?_eq_some_getLast hne, Option.some.injEq] at hlast
    apply List.rdropWhile_eq_self_iff.mp hkept hne
    rw [hlast]
    decide

end Entry.Faithful

/-! ## Loading back -/

namespace Program

variable {p : Program} {entry : Entry}

/-- The texts of all lines are kept texts of their statements. -/
def Faithful (p : Program) : Prop :=
  ∀ entry ∈ p.entries, entry.Faithful

theorem faithful_changes (cs : List Change) : (empty.changes cs).Faithful := by
  intro entry hentry
  obtain ⟨_, t, _, _, hstores, _⟩ := mem_changes_iff.mp hentry
  exact hstores.faithful

theorem eq_of_number_eq {other : Entry} (hentry : entry ∈ p.entries) (hother : other ∈ p.entries)
    (h : entry.number = other.number) : entry = other := by
  rw [mem_entries_iff] at hentry hother
  rw [h, hother] at hentry
  exact (Option.some.inj hentry).symm

theorem insert_of_mem (h : entry ∈ p.entries) : p.insert entry = p := by
  apply ext_mem
  intro other
  rw [mem_insert_iff]
  constructor
  · rintro (rfl | ⟨hother, _⟩)
    · exact h
    · exact hother
  · intro hother
    by_cases hnumber : other.number = entry.number
    · exact .inl (eq_of_number_eq hother h hnumber)
    · exact .inr ⟨hother, hnumber⟩

theorem store_source (p : Program) (h : entry.Faithful) :
    p.store entry.source = p.insert entry := by
  rw [store, h.read, h.kept]
  rfl

theorem mem_foldl_store_iff {entries : List Entry} (hascending : Ascending entries)
    (hfaithful : ∀ other ∈ entries, other.Faithful) :
    entry ∈ ((entries.map Entry.source).foldl store p).entries ↔
      entry ∈ entries ∨ entry ∈ p.entries ∧ ∀ other ∈ entries, entry.number ≠ other.number := by
  induction entries generalizing p with
  | nil => simp
  | cons first rest ih =>
    obtain ⟨above, tail⟩ := List.pairwise_cons.mp hascending
    have hfirst : first.Faithful := hfaithful first List.mem_cons_self
    have hrest : ∀ other ∈ rest, other.Faithful := fun other hother =>
      hfaithful other (List.mem_cons_of_mem first hother)
    have hdistinct : ∀ other ∈ rest, first.number ≠ other.number := fun other hother heq =>
      UInt64.lt_irrefl _ (heq ▸ above other hother)
    rw [List.map_cons, List.foldl_cons, store_source p hfirst, ih tail hrest, mem_insert_iff,
      List.mem_cons, List.forall_mem_cons]
    constructor
    · rintro (hentry | ⟨rfl | ⟨hentry, hne⟩, hothers⟩)
      · exact .inl (.inr hentry)
      · exact .inl (.inl rfl)
      · exact .inr ⟨hentry, hne, hothers⟩
    · rintro ((rfl | hentry) | ⟨hentry, hne, hothers⟩)
      · exact .inr ⟨.inl rfl, hdistinct⟩
      · exact .inl hentry
      · exact .inr ⟨.inr ⟨hentry, hne⟩, hothers⟩

namespace Faithful

theorem ofLines_sources (h : p.Faithful) : ofLines p.sources = p := by
  apply ext_mem
  intro entry
  rw [ofLines, sources, mem_foldl_store_iff p.ascending h]
  simp [empty]

theorem enter_source (h : p.Faithful) (hentry : entry ∈ p.entries) :
    p.enter entry.source = (.updated entry.number, p) := by
  obtain ⟨hkept, hread⟩ := h entry hentry
  have hinsert := insert_of_mem hentry
  rw [enter, hread, hkept]
  exact congrArg (Prod.mk _) hinsert

/-- Where no text has a line feed inside, a text that holds all of them is split into just these. -/
theorem lines_of_holds (h : p.Faithful) (hlf : ∀ s ∈ p.sources, '\n' ∉ s.toList)
    {text : List Char} (htext : Text.Holds (p.sources.map String.toList) text) :
    (Text.lines text).map String.ofList = p.sources := by
  have hsolid : ∀ l ∈ p.sources.map String.toList, Text.IsSolid l := by
    intro l hl
    obtain ⟨s, hs, rfl⟩ := List.mem_map.mp hl
    obtain ⟨entry, hentry, rfl⟩ := List.mem_map.mp hs
    exact (h entry hentry).isSolid (hlf _ hs)
  rw [htext.lines_eq hsolid, List.map_map]
  simp [Function.comp_def]

end Faithful

/-- The texts of a program, loaded in its order, make the same program, whatever was there before.
So do the lines of a file that holds them, if none has a line feed inside. Entering one of them
again changes nothing. -/
theorem reload_restores (cs : List Change) :
    let p := empty.changes cs
    (∀ q : Program, q.change (.load p.sources) = p) ∧
    ((∀ s ∈ p.sources, '\n' ∉ s.toList) →
      ∀ text : String, Text.Holds (p.sources.map String.toList) text.toList →
        ofText text.toList = p ∧
        ∃ lines, fileLines text.toUTF8 = .ok lines ∧ ∀ q : Program, q.change (.load lines) = p) ∧
    ∀ number s, p.source? number = some s → p.enter s = (.updated number, p) := by
  intro p
  have hfaithful : p.Faithful := faithful_changes cs
  have hload : ofLines p.sources = p := hfaithful.ofLines_sources
  refine ⟨fun _ => hload, fun hlf text htext => ?_, fun number s hs => ?_⟩
  · have hlines := hfaithful.lines_of_holds hlf htext
    refine ⟨?_, p.sources, ?_, fun _ => hload⟩
    · rw [ofText, hlines, hload]
    · rw [fileLines_toUTF8, hlines]
  · obtain ⟨entry, hget, rfl⟩ := Option.map_eq_some_iff.mp hs
    obtain ⟨hentry, rfl⟩ := get?_eq_some_iff.mp hget
    exact hfaithful.enter_source hentry

/-- Carriage returns inside a line stay, and those of the line ends go. -/
theorem reload_restores_crlf :
    let cs : List Change := [.load ["20 REM a\rb\r\n", "10 PRINT 1", "RUN"], .enter "30 END\n"]
    let p := empty.changes cs
    let text := "10 PRINT 1\r\n20 REM a\rb\n30 END"
    (∀ s ∈ p.sources, '\n' ∉ s.toList) ∧ Text.Holds (p.sources.map String.toList) text.toList ∧
      ofText text.toList = p ∧ p.source? 20 = some "20 REM a\rb" ∧
      p.enter "20 REM a\rb" = (.updated 20, p) := by
  intro cs p text
  have hsources : (empty.changes cs).sources = ["10 PRINT 1", "20 REM a\rb", "30 END"] := by
    cbv
  have hsource : (empty.changes cs).source? 20 = some "20 REM a\rb" := by
    cbv
  have hlf : ∀ s ∈ p.sources, '\n' ∉ s.toList := by
    rw [hsources]
    simp
  have hholds : Text.Holds (p.sources.map String.toList) text.toList := by
    have htext : text.toList = "10 PRINT 1".toList ++
        '\r' :: '\n' :: ("20 REM a\rb".toList ++ '\n' :: "30 END".toList) := by
      decide
    rw [hsources, htext]
    exact .crlf _ (.lf _ (.unended _))
  obtain ⟨_, hfile, henter⟩ := reload_restores cs
  exact ⟨hlf, hholds, (hfile hlf text hholds).1, hsource, henter 20 _ hsource⟩

end Program

end LineBasic
