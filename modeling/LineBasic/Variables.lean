/-!
# Variables

The store of a run binds names to values. A name is bound at most once; binding it again replaces
its value.
-/
namespace LineBasic

structure Variables where
  bindings : List (String × Int64)
  distinct : (bindings.map Prod.fst).Nodup

namespace Variables

def put (name : String) (value : Int64) : List (String × Int64) → List (String × Int64)
  | [] => [(name, value)]
  | (other, old) :: rest =>
    if other = name then (name, value) :: rest else (other, old) :: put name value rest

theorem mem_names_put {name other : String} {value : Int64} {bindings : List (String × Int64)} :
    other ∈ (put name value bindings).map Prod.fst ↔
      other = name ∨ other ∈ bindings.map Prod.fst := by
  induction bindings with
  | nil => simp [put]
  | cons binding rest ih =>
    obtain ⟨first, old⟩ := binding
    unfold put
    split
    · subst first
      simp
    · simp only [List.map_cons, List.mem_cons, ih]
      exact or_left_comm

theorem nodup_names_put {bindings : List (String × Int64)} (h : (bindings.map Prod.fst).Nodup)
    (name : String) (value : Int64) : ((put name value bindings).map Prod.fst).Nodup := by
  induction bindings with
  | nil => simp [put]
  | cons binding rest ih =>
    obtain ⟨first, old⟩ := binding
    simp only [List.map_cons, List.nodup_cons] at h
    unfold put
    split
    · subst first
      simpa using h
    · simp only [List.map_cons, List.nodup_cons, mem_names_put]
      exact ⟨by simp_all, ih h.2⟩

theorem lookup_put (name other : String) (value : Int64) (bindings : List (String × Int64)) :
    (put name value bindings).lookup other =
      if other = name then some value else bindings.lookup other := by
  have step (key : String) (v : Int64) (rest : List (String × Int64)) :
      ((key, v) :: rest).lookup other = if other = key then some v else rest.lookup other := by
    by_cases h : other = key
    · simp [h]
    · simp [List.lookup_cons, beq_false_of_ne h, h]
  induction bindings with
  | nil => exact step name value []
  | cons binding rest ih =>
    obtain ⟨first, old⟩ := binding
    unfold put
    split
    · subst first
      simp only [step]
      split <;> rfl
    · simp only [step, ih]
      split <;> simp_all

def empty : Variables :=
  ⟨[], List.nodup_nil⟩

def get? (vars : Variables) (name : String) : Option Int64 :=
  vars.bindings.lookup name

def insert (vars : Variables) (name : String) (value : Int64) : Variables :=
  ⟨put name value vars.bindings, nodup_names_put vars.distinct name value⟩

def size (vars : Variables) : Nat :=
  vars.bindings.length

def isEmpty (vars : Variables) : Bool :=
  vars.bindings.isEmpty

instance : Inhabited Variables := ⟨empty⟩

theorem get?_insert (vars : Variables) (name other : String) (value : Int64) :
    (vars.insert name value).get? other = if other = name then some value else vars.get? other :=
  lookup_put name other value vars.bindings

end Variables

end LineBasic
