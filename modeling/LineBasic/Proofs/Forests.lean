import Mathlib
import LineBasic.Outline
import LineBasic.Proofs.Scanning

/-!
# Rows and forests

What can be told from an outline without knowing what it is about. A row is told from what stands
behind it, as long as its text neither begins with a tab nor holds a line feed. The depths of the
rows then give back the forest that was written down, whatever its texts are.
-/
namespace LineBasic

open Text

/-! ## Rows -/

/-- The text can neither be mistaken for an indentation nor end its row early. -/
structure IsPlain (text : String) : Prop where
  no_lf : '\n' ∉ text.toList
  no_tab : text.toList.head? ≠ some '\t'

instance (text : String) : Decidable (IsPlain text) :=
  decidable_of_iff ('\n' ∉ text.toList ∧ text.toList.head? ≠ some '\t')
    ⟨fun h => ⟨h.1, h.2⟩, fun h => ⟨h.no_lf, h.no_tab⟩⟩

namespace Outline

theorem toList_rowText (row : Row) (cs : List Char) :
    (rowText row).toList ++ cs =
      List.replicate row.depth '\t' ++ (row.text.toList ++ '\n' :: cs) := by
  simp [rowText]

theorem render_cons (row : Row) (o : Outline) : render (row :: o) = rowText row ++ render o := by
  simp [render]

theorem render_cons_ne_nil (row : Row) (o : Outline) : render (row :: o) ≠ render [] := by
  intro h
  rw [render_cons, ← String.toList_inj, String.toList_append, toList_rowText] at h
  simp [render] at h

theorem head_plain {text : String} (h : IsPlain text) (cs : List Char) :
    ∀ c, (text.toList ++ '\n' :: cs).head? = some c → (c == '\t') = false := by
  intro c hc
  cases htext : text.toList with
  | nil =>
    rw [htext] at hc
    cases hc
    decide
  | cons d ds =>
    have hd := h.no_tab
    rw [htext] at hc hd
    cases hc
    simpa using hd

theorem rowText_append_inj {row row' : Row} {cs cs' : List Char} (hrow : IsPlain row.text)
    (hrow' : IsPlain row'.text)
    (h : (rowText row).toList ++ cs = (rowText row').toList ++ cs') : row = row' ∧ cs = cs' := by
  have htabs (n : Nat) : ∀ c ∈ List.replicate n '\t', (c == '\t') = true := by simp
  have htext {text : String} (h : IsPlain text) : ∀ c ∈ text.toList, (c != '\n') = true := by
    intro c hc
    simpa using ne_of_mem_of_not_mem hc h.no_lf
  have hend (cs : List Char) : ∀ c, ('\n' :: cs).head? = some c → (c != '\n') = false := by simp
  obtain ⟨depth, text⟩ := row
  obtain ⟨depth', text'⟩ := row'
  rw [toList_rowText, toList_rowText] at h
  obtain ⟨htake, hdrop⟩ := span_append (htabs depth) (head_plain hrow cs)
  obtain ⟨htake', hdrop'⟩ := span_append (htabs depth') (head_plain hrow' cs')
  rw [h] at htake hdrop
  have hdepth : depth = depth' := by
    have hlength := congrArg List.length (htake.symm.trans htake')
    simpa using hlength
  have hrest := hdrop.symm.trans hdrop'
  obtain ⟨htake, hdrop⟩ := span_append (htext hrow) (hend cs)
  obtain ⟨htake', hdrop'⟩ := span_append (htext hrow') (hend cs')
  dsimp only at hrest
  rw [hrest] at htake hdrop
  have hsame : text = text' := String.toList_inj.mp (htake.symm.trans htake')
  exact ⟨by rw [hdepth, hsame], (List.cons.inj (hdrop.symm.trans hdrop')).2⟩

theorem render_cons_inj {row row' : Row} {o o' : Outline} (hrow : IsPlain row.text)
    (hrow' : IsPlain row'.text) (h : render (row :: o) = render (row' :: o')) :
    row = row' ∧ render o = render o' := by
  rw [render_cons, render_cons, ← String.toList_inj, String.toList_append,
    String.toList_append] at h
  obtain ⟨hrow, hrest⟩ := rowText_append_inj hrow hrow' h
  exact ⟨hrow, String.toList_inj.mp hrest⟩

/-- Any text is told where it makes the only row, at a known depth. -/
theorem render_single_inj {depth : Nat} {text text' : String}
    (h : render [⟨depth, text⟩] = render [⟨depth, text'⟩]) : text = text' := by
  simpa [render, rowText] using h

theorem render_inj {o o' : Outline} (ho : ∀ row ∈ o, IsPlain row.text)
    (ho' : ∀ row ∈ o', IsPlain row.text) (h : render o = render o') : o = o' := by
  induction o generalizing o' with
  | nil =>
    cases o' with
    | nil => rfl
    | cons row' o' => exact absurd h.symm (render_cons_ne_nil row' o')
  | cons row o ih =>
    cases o' with
    | nil => exact absurd h (render_cons_ne_nil row o)
    | cons row' o' =>
      obtain ⟨hrow, hrows⟩ := List.forall_mem_cons.mp ho
      obtain ⟨hrow', hrows'⟩ := List.forall_mem_cons.mp ho'
      obtain ⟨rfl, hrest⟩ := render_cons_inj hrow hrow' h
      rw [ih hrows hrows' hrest]

@[simp]
theorem indent_nil (n : Nat) : indent n [] = [] := rfl

@[simp]
theorem indent_cons (n : Nat) (row : Row) (o : Outline) :
    indent n (row :: o) = ⟨row.depth + n, row.text⟩ :: o.indent n := rfl

@[simp]
theorem indent_append (n : Nat) (o o' : Outline) :
    indent n (o ++ o') = o.indent n ++ o'.indent n := by
  simp [indent]

theorem indent_indent (m n : Nat) (o : Outline) : indent n (indent m o) = indent (m + n) o := by
  simp [indent, Nat.add_assoc]

end Outline

/-! ## Forests -/

/-- Trees side by side: the first one, with the forest below its root, and the next ones. -/
inductive Forest
  | nil
  | node (text : String) (below next : Forest)

namespace Forest

open Outline

def leaf (text : String) : Forest :=
  node text nil nil

def append : Forest → Forest → Forest
  | nil, g => g
  | node text below next, g => node text below (next.append g)

def outline : Forest → Outline
  | nil => []
  | node text below next => above text below.outline ++ next.outline

def texts : Forest → List String
  | nil => []
  | node text below next => text :: (below.texts ++ next.texts)

variable {f g : Forest} {d : Nat} {rest rest' : Outline}

@[simp]
theorem append_nil (f : Forest) : f.append nil = f := by
  induction f with
  | nil => rfl
  | node text below next _ ih => rw [append, ih]

@[simp]
theorem outline_append (f g : Forest) : (f.append g).outline = f.outline ++ g.outline := by
  induction f with
  | nil => rfl
  | node text below next _ ih => simp [append, outline, ih]

@[simp]
theorem texts_append (f g : Forest) : (f.append g).texts = f.texts ++ g.texts := by
  induction f with
  | nil => rfl
  | node text below next _ ih => simp [append, texts, ih]

theorem text_mem_texts {row : Row} (h : row ∈ f.outline) : row.text ∈ f.texts := by
  induction f generalizing row with
  | nil => cases h
  | node text below next ihb ihn =>
    simp only [outline, above, List.cons_append, List.mem_cons, List.mem_append, indent,
      List.mem_map] at h
    rcases h with rfl | ⟨inner, hinner, rfl⟩ | hnext
    · simp [texts]
    · simp [texts, ihb hinner]
    · simp [texts, ihn hnext]

/-- The outline does not begin at the depth `d` or below it. -/
def Shallow (d : Nat) (o : Outline) : Prop :=
  ∀ row, o.head? = some row → row.depth < d

theorem outline_node_indent (text : String) (below next : Forest) (d : Nat) (rest : Outline) :
    (node text below next).outline.indent d ++ rest =
      ⟨d, text⟩ :: (below.outline.indent (d + 1) ++ (next.outline.indent d ++ rest)) := by
  simp [outline, above, indent_indent, Nat.add_comm 1 d]

theorem shallow_indent_append (f : Forest) (h : Shallow d rest) :
    Shallow (d + 1) (f.outline.indent d ++ rest) := by
  intro row hrow
  cases f with
  | nil => exact Nat.lt_succ_of_lt (h row hrow)
  | node text below next =>
    rw [outline_node_indent] at hrow
    cases hrow
    exact Nat.lt_succ_self d

/-- An outline is told from what stands behind it, unless that goes on at the same depth. -/
theorem outline_indent_inj (hrest : Shallow d rest) (hrest' : Shallow d rest')
    (h : f.outline.indent d ++ rest = g.outline.indent d ++ rest') : f = g ∧ rest = rest' := by
  induction f generalizing g d rest rest' with
  | nil =>
    cases g with
    | nil => exact ⟨rfl, h⟩
    | node text below next =>
      rw [outline_node_indent] at h
      have hhead : rest.head? = some ⟨d, text⟩ := congrArg List.head? h
      exact absurd (hrest _ hhead) (Nat.lt_irrefl d)
  | node text below next ihb ihn =>
    cases g with
    | nil =>
      rw [outline_node_indent] at h
      have hhead : rest'.head? = some ⟨d, text⟩ := congrArg List.head? h.symm
      exact absurd (hrest' _ hhead) (Nat.lt_irrefl d)
    | node text' below' next' =>
      rw [outline_node_indent, outline_node_indent] at h
      obtain ⟨hrow, htail⟩ := List.cons.inj h
      obtain ⟨rfl, hnext⟩ := ihb (shallow_indent_append next hrest)
        (shallow_indent_append next' hrest') htail
      obtain ⟨rfl, hrest⟩ := ihn hrest hrest' hnext
      exact ⟨by rw [(Row.mk.inj hrow).2], hrest⟩

theorem render_indent_inj (d : Nat) (hf : ∀ text ∈ f.texts, IsPlain text)
    (hg : ∀ text ∈ g.texts, IsPlain text)
    (h : (f.outline.indent d).render = (g.outline.indent d).render) : f = g := by
  have hplain {f : Forest} (hf : ∀ text ∈ f.texts, IsPlain text) :
      ∀ row ∈ f.outline.indent d, IsPlain row.text := by
    intro row hrow
    obtain ⟨inner, hinner, rfl⟩ := List.mem_map.mp hrow
    exact hf inner.text (text_mem_texts hinner)
  have hrows := render_inj (hplain hf) (hplain hg) h
  have hnil : Shallow d [] := by simp [Shallow]
  exact (outline_indent_inj hnil hnil (by rw [hrows])).1

end Forest

end LineBasic
