import Mathlib.Logic.Relation
import Conform.Options
import Conform.Schema.Reader

namespace Conform.Value

theorem depth_pos (v : Value) : 0 < v.depth := by
  cases v <;> simp [depth]

theorem depth_le_depthItems {items : List Value} {v : Value} (h : v ∈ items) :
    v.depth ≤ depthItems items := by
  induction items with
  | nil => simp at h
  | cons w items ih =>
    rw [depthItems]
    rcases List.mem_cons.1 h with rfl | h
    · omega
    · have := ih h
      omega

theorem depth_le_depthFields {fields : List (String × Value)} {p : String × Value}
    (h : p ∈ fields) : p.2.depth ≤ depthFields fields := by
  induction fields with
  | nil => simp at h
  | cons q fields ih =>
    rw [depthFields]
    rcases List.mem_cons.1 h with rfl | h
    · omega
    · have := ih h
      omega

theorem depth_le_depthPairs {pairs : List (Value × Value)} {p : Value × Value} (h : p ∈ pairs) :
    p.1.depth ≤ depthPairs pairs ∧ p.2.depth ≤ depthPairs pairs := by
  induction pairs with
  | nil => simp at h
  | cons q pairs ih =>
    rw [depthPairs]
    rcases List.mem_cons.1 h with rfl | h
    · omega
    · have := ih h
      omega

def children : Value → List Value
  | .list items | .tuple items => items
  | .keyword fields => fields.map Prod.snd
  | .map pairs => pairs.map Prod.fst ++ pairs.map Prod.snd
  | _ => []

theorem depth_lt_of_mem_children {v w : Value} (h : w ∈ v.children) : w.depth < v.depth := by
  cases v with
  | list items | tuple items =>
    have : w.depth ≤ depthItems items := depth_le_depthItems h
    rw [depth]
    omega
  | keyword fields =>
    obtain ⟨p, hp, rfl⟩ := List.mem_map.1 h
    have := depth_le_depthFields hp
    rw [depth]
    omega
  | map pairs =>
    rw [depth]
    rcases List.mem_append.1 h with h | h
    all_goals
      obtain ⟨p, hp, rfl⟩ := List.mem_map.1 h
      have := depth_le_depthPairs hp
      omega
  | _ => simp [children] at h

abbrev Holds : Value → Value → Prop := Relation.ReflTransGen fun v w => w ∈ v.children

theorem Holds.depth_le {v w : Value} (h : v.Holds w) : w.depth ≤ v.depth := by
  induction h with
  | refl => exact Nat.le_refl _
  | tail _ hw ih =>
    have := depth_lt_of_mem_children hw
    omega

theorem mem_children_of_options {v : Value} {o : Options} (ho : Options.ofValue? v = some o)
    {p : Value × Value} (h : p ∈ o.pairs) : p.2 ∈ v.children := by
  unfold Options.ofValue? at ho
  split at ho
  · cases ho
    obtain ⟨q, hq, rfl⟩ := List.mem_map.1 h
    exact List.mem_map_of_mem hq
  · cases ho
    exact List.mem_append_right _ (List.mem_map_of_mem h)
  · cases ho
    simp at h
  · cases ho

theorem depth_lt_of_mem_options {v : Value} {o : Options} (ho : Options.ofValue? v = some o)
    {p : Value × Value} (h : p ∈ o.pairs) : p.2.depth < v.depth :=
  depth_lt_of_mem_children (mem_children_of_options ho h)

theorem mem_children_of_asList? {v : Value} {items : List Value} (h : v.asList? = some items)
    {item : Value} (hitem : item ∈ items) : item ∈ v.children := by
  unfold asList? at h
  split at h
  · cases h
    exact hitem
  · cases h
    simp at hitem
  · cases h

end Conform.Value
