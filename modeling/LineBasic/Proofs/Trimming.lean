import LineBasic.Text.Lines
import Mathlib.Data.List.DropRight

/-!
# Trimming

White space around a text makes no difference once the text is trimmed, and trimming twice is
trimming once.
-/
namespace LineBasic.Text

variable {p : Char → Bool} {cs ws : List Char}

def Blank (cs : List Char) : Prop :=
  ∀ c ∈ cs, isBlank c = true

instance (cs : List Char) : Decidable (Blank cs) :=
  decidable_of_iff (cs.all isBlank = true) List.all_eq_true

theorem blank_nil : Blank [] := by
  simp [Blank]

theorem blank_cons_iff {c : Char} : Blank (c :: cs) ↔ isBlank c = true ∧ Blank cs := by
  simp [Blank]

theorem Blank.isSpace (h : Blank cs) : ∀ c ∈ cs, isSpace c = true :=
  fun c hc => isSpace_of_isBlank (h c hc)

theorem isBlank_of_isLineEnd {c : Char} (h : isLineEnd c = true) : isBlank c = true := by
  simp only [isLineEnd, Bool.or_eq_true, beq_iff_eq] at h
  rcases h with rfl | rfl <;> decide

theorem dropEndWhile_append_of_all (h : ∀ c ∈ ws, p c = true) (cs : List Char) :
    dropEndWhile p (cs ++ ws) = dropEndWhile p cs := by
  unfold dropEndWhile
  rw [List.reverse_append, List.dropWhile_append_of_pos]
  intro c hc
  exact h c (List.mem_reverse.mp hc)

theorem exists_eq_dropEndWhile_append (p : Char → Bool) (cs : List Char) :
    ∃ ws, cs = dropEndWhile p cs ++ ws ∧ ∀ c ∈ ws, p c = true := by
  refine ⟨(cs.reverse.takeWhile p).reverse, ?_, ?_⟩
  · have hsplit := List.takeWhile_append_dropWhile (p := p) (l := cs.reverse)
    have hrev := congrArg List.reverse hsplit
    rw [List.reverse_append, List.reverse_reverse] at hrev
    exact hrev.symm
  · intro c hc
    exact List.mem_takeWhile_imp (List.mem_reverse.mp hc)

theorem trim_append_of_space (h : ∀ c ∈ ws, isSpace c = true) (cs : List Char) :
    trim (cs ++ ws) = trim cs := by
  unfold trim
  by_cases hcs : ∀ c ∈ cs, isSpace c = true
  · rw [List.dropWhile_append_of_pos hcs, List.dropWhile_eq_nil_iff.mpr hcs,
      List.dropWhile_eq_nil_iff.mpr h]
  · have hne : ¬ (cs.dropWhile isSpace).isEmpty = true := by
      rw [List.isEmpty_iff, List.dropWhile_eq_nil_iff]
      exact hcs
    rw [List.dropWhile_append, if_neg hne, dropEndWhile_append_of_all h]

theorem trim_space_append (h : ∀ c ∈ ws, isSpace c = true) (cs : List Char) :
    trim (ws ++ cs) = trim cs := by
  unfold trim
  rw [List.dropWhile_append_of_pos h]

theorem trim_eq_nil_of_space (h : ∀ c ∈ cs, isSpace c = true) : trim cs = [] := by
  unfold trim
  rw [List.dropWhile_eq_nil_iff.mpr h, dropEndWhile_nil]

theorem trim_trim (cs : List Char) : trim (trim cs) = trim cs := by
  have hfront : (trim cs).dropWhile isSpace = trim cs := by
    obtain ⟨rest, hrest⟩ : trim cs <+: cs.dropWhile isSpace := List.rdropWhile_prefix _ _
    cases htrim : trim cs with
    | nil => rfl
    | cons c text =>
      rw [htrim, List.cons_append] at hrest
      have hc : isSpace c = false := by
        have hhead := List.head?_dropWhile_not isSpace cs
        rw [← hrest] at hhead
        exact hhead
      exact List.dropWhile_cons_of_neg (by simp [hc])
  calc trim (trim cs) = dropEndWhile isSpace (trim cs) := by rw [trim, hfront]
    _ = trim cs := List.rdropWhile_idempotent isSpace (cs.dropWhile isSpace)

end LineBasic.Text
