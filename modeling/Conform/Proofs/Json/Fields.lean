import Mathlib.Data.List.Forall2
import Conform.Json.Basic

namespace Conform.Json

def Ascending {α : Type} (fields : List (String × α)) : Prop :=
  fields.Pairwise fun f g => f.1 < g.1

theorem lookup_cons_of_ne {α : Type} {name other : String} (h : other ≠ name) (a : α)
    (fields : List (String × α)) :
    List.lookup other ((name, a) :: fields) = fields.lookup other := by
  rw [List.lookup_cons, beq_eq_false_iff_ne.2 h]

theorem lookup_eq_none_of_lt {α : Type} {name : String} {fields : List (String × α)}
    (h : ∀ f ∈ fields, name < f.1) : fields.lookup name = none := by
  refine List.lookup_eq_none_iff.2 fun f hf => bne_iff_ne.2 ?_
  rintro rfl
  exact String.lt_irrefl _ (h f hf)

theorem Ascending.le_of_lookup {α : Type} {f : String × α} {rest : List (String × α)}
    {name : String} (h : Ascending (f :: rest)) (hname : List.lookup name (f :: rest) ≠ none) :
    f.1 ≤ name := by
  refine String.not_lt.1 fun hlt => hname (lookup_eq_none_of_lt fun g hg => ?_)
  rcases List.mem_cons.1 hg with rfl | hg
  · exact hlt
  · exact String.lt_trans hlt ((List.pairwise_cons.1 h).1 g hg)

/-- Fields in order are known by what stands under each name. -/
theorem Ascending.ext {α : Type} {fields fields' : List (String × α)} (h : Ascending fields)
    (h' : Ascending fields') (hlookup : ∀ name, fields.lookup name = fields'.lookup name) :
    fields = fields' := by
  induction fields generalizing fields' with
  | nil =>
    cases fields' with
    | nil => rfl
    | cons g rest' =>
      obtain ⟨other, b⟩ := g
      simpa using hlookup other
  | cons f rest ih =>
    cases fields' with
    | nil =>
      obtain ⟨name, a⟩ := f
      simpa using hlookup name
    | cons g rest' =>
      obtain ⟨name, a⟩ := f
      obtain ⟨other, b⟩ := g
      obtain rfl : name = other := by
        refine String.le_antisymm (h.le_of_lookup ?_) (h'.le_of_lookup ?_)
        · simp [hlookup other]
        · simp [← hlookup name]
      obtain rfl : a = b := by simpa using hlookup name
      obtain ⟨hleast, hrest⟩ := List.pairwise_cons.1 h
      obtain ⟨hleast', hrest'⟩ := List.pairwise_cons.1 h'
      rw [ih hrest hrest' fun key => ?_]
      by_cases hkey : key = name
      · rw [hkey, lookup_eq_none_of_lt hleast, lookup_eq_none_of_lt hleast']
      · have := hlookup key
        rwa [lookup_cons_of_ne hkey, lookup_cons_of_ne hkey] at this

section

variable {name : String} {j : Json} {fields : List (String × Json)}

theorem mem_insertNew {f : String × Json} (h : f ∈ insertNew name j fields) :
    f = (name, j) ∨ f ∈ fields := by
  induction fields with
  | nil => exact .inl (by simpa [insertNew] using h)
  | cons g rest ih =>
    unfold insertNew at h
    split at h
    · exact .inr h
    split at h
    · exact List.mem_cons.1 h
    · rcases List.mem_cons.1 h with rfl | h
      · exact .inr (.head _)
      · exact (ih h).imp_right (List.mem_cons_of_mem _)

theorem ascending_insertNew (h : Ascending fields) : Ascending (insertNew name j fields) := by
  induction fields with
  | nil => exact List.pairwise_singleton _ _
  | cons f rest ih =>
    obtain ⟨hleast, hrest⟩ := List.pairwise_cons.1 h
    unfold insertNew
    split
    · exact h
    next hne =>
      split
      next hlt =>
        refine List.pairwise_cons.2 ⟨fun g hg => ?_, h⟩
        rcases List.mem_cons.1 hg with rfl | hg
        · exact hlt
        · exact String.lt_trans hlt (hleast g hg)
      next hnot =>
        refine List.pairwise_cons.2 ⟨fun g hg => ?_, ih hrest⟩
        rcases mem_insertNew hg with rfl | hg
        · exact Std.lt_of_le_of_ne (String.not_lt.1 hnot) (Ne.symm hne)
        · exact hleast g hg

theorem lookup_insertNew (h : Ascending fields) (other : String) :
    (insertNew name j fields).lookup other =
      (fields.lookup other).or ([(name, j)].lookup other) := by
  induction fields with
  | nil => rfl
  | cons f rest ih =>
    obtain ⟨key, k⟩ := f
    obtain ⟨hleast, hrest⟩ := List.pairwise_cons.1 h
    unfold insertNew
    split
    next hkey =>
      subst hkey
      by_cases hother : other = name
      · simp [hother]
      · simp [lookup_cons_of_ne hother]
    next hkey =>
      split
      next hlt =>
        by_cases hother : other = name
        · have habsent : List.lookup name ((key, k) :: rest) = none := by
            rw [lookup_cons_of_ne hkey, lookup_eq_none_of_lt]
            exact fun f hf => String.lt_trans hlt (hleast f hf)
          rw [hother, habsent]
          simp
        · simp [lookup_cons_of_ne hother]
      next =>
        by_cases hother : other = key
        · simp [hother]
        · rw [lookup_cons_of_ne hother, lookup_cons_of_ne hother, ih hrest]

end

theorem ascending_sortedFields (fields : List (String × Json)) :
    Ascending (sortedFields fields) := by
  induction fields with
  | nil => exact .nil
  | cons f rest ih => exact ascending_insertNew ih

/-- Among sorted fields a name stands for the last of its fields. -/
theorem lookup_sortedFields (fields : List (String × Json)) (name : String) :
    (sortedFields fields).lookup name = (fields.reverse.lookup name).map sorted := by
  induction fields with
  | nil => rfl
  | cons f rest ih =>
    obtain ⟨key, j⟩ := f
    rw [sortedFields, lookup_insertNew (ascending_sortedFields rest), ih, List.reverse_cons,
      List.lookup_append, Option.map_or]
    by_cases hname : name = key
    · simp [hname]
    · simp [lookup_cons_of_ne hname]

mutual

def reversed : Json → Json
  | .array items => .array (reversedItems items)
  | .object fields => .object (reversedFields fields)
  | j => j

def reversedItems : List Json → List Json
  | [] => []
  | j :: rest => reversed j :: reversedItems rest

def reversedFields : List (String × Json) → List (String × Json)
  | [] => []
  | (name, j) :: rest => reversedFields rest ++ [(name, reversed j)]

end

theorem lookup_reversedFields (fields : List (String × Json)) (name : String) :
    (reversedFields fields).reverse.lookup name = (fields.lookup name).map reversed := by
  induction fields with
  | nil => rfl
  | cons f rest ih =>
    obtain ⟨key, j⟩ := f
    rw [reversedFields, List.reverse_append, List.reverse_singleton, List.singleton_append]
    by_cases hname : name = key
    · simp [hname]
    · rw [lookup_cons_of_ne hname, lookup_cons_of_ne hname, ih]

end Conform.Json
