import Conform.Value.Interchange

namespace Conform

mutual

theorem Value.decode_ofJson : (j : Json) → decode (Data.ofJson j) = .ok (ofJson j)
  | .null | .bool _ | .integer _ | .float _ | .string _ => by
    simp only [Data.ofJson, decode, ofJson]
  | .array items => by
    simp only [Data.ofJson, decode, ofJson, decodeItems_ofJson items]
    rfl
  | .object fields => by
    simp only [Data.ofJson, decode, ofJson, decodeEntries_ofJson fields]
    rfl

theorem Value.decodeItems_ofJson : (items : List Json) →
    decodeItems (Data.ofJsonItems items) = .ok (ofJsonItems items)
  | [] => by simp only [Data.ofJsonItems, decodeItems, ofJsonItems]
  | j :: rest => by
    simp only [Data.ofJsonItems, decodeItems, ofJsonItems, decode_ofJson j, decodeItems_ofJson rest]
    rfl

theorem Value.decodeEntries_ofJson : (fields : List (String × Json)) →
    decodeEntries (Data.ofJsonFields fields) = .ok (ofJsonFields fields)
  | [] => by simp only [Data.ofJsonFields, decodeEntries, ofJsonFields]
  | (name, j) :: rest => by
    simp only [Data.ofJsonFields, decodeEntries, decodeKey, ofJsonFields, decode_ofJson j,
      decodeEntries_ofJson rest]
    rfl

end

namespace Value

mutual

/-- What a value becomes in a document. Atoms become strings, tuples become lists, maps and records
become keyword lists; handles and functions become their text, and so do keys without a name. -/
def canon : Value → Value
  | .nil => .nil
  | .bool b => .bool b
  | .integer n => .integer n
  | .float x => if x.isFinite then .float x else .nil
  | .atom name => .string name
  | .string text => .string text
  | .list items => .list (canonItems items)
  | .tuple items => .list (canonItems items)
  | .keyword pairs => .keyword (canonFields pairs)
  | .map pairs => .keyword (canonPairs pairs)
  | .pid id => .string (inspect (.pid id))
  | .ref id => .string (inspect (.ref id))
  | .function f => .string f.inspect
  | .struct _ fields => .keyword (canonFields fields)

def canonItems : List Value → List Value
  | [] => []
  | v :: rest => canon v :: canonItems rest

def canonFields : List (String × Value) → List (String × Value)
  | [] => []
  | (name, v) :: rest => (name, canon v) :: canonFields rest

def canonPairs : List (Value × Value) → List (String × Value)
  | [] => []
  | (k, v) :: rest => (fieldName k, canon v) :: canonPairs rest

end

/-- A value that a document can say. -/
inductive Canonical : Value → Prop where
  | nil : Canonical .nil
  | bool (b : Bool) : Canonical (.bool b)
  | integer (n : Int64) : Canonical (.integer n)
  | float {x} : x.isFinite = true → Canonical (.float x)
  | string (text : String) : Canonical (.string text)
  | list {items} : (∀ v ∈ items, Canonical v) → Canonical (.list items)
  | keyword {pairs} : (∀ p ∈ pairs, Canonical p.2) → Canonical (.keyword pairs)

theorem canonItems_eq_map (items : List Value) : canonItems items = items.map canon := by
  induction items with
  | nil => rw [canonItems, List.map_nil]
  | cons v rest ih => rw [canonItems, ih, List.map_cons]

theorem canonFields_eq_map (pairs : List (String × Value)) :
    canonFields pairs = pairs.map fun p => (p.1, canon p.2) := by
  induction pairs with
  | nil => rw [canonFields, List.map_nil]
  | cons p rest ih => rw [canonFields, ih, List.map_cons]

theorem canonPairs_eq_map (pairs : List (Value × Value)) :
    canonPairs pairs = pairs.map fun p => (fieldName p.1, canon p.2) := by
  induction pairs with
  | nil => rw [canonPairs, List.map_nil]
  | cons p rest ih => rw [canonPairs, ih, List.map_cons]

mutual

theorem ofJson_writable : (v : Value) → ofJson v.toJson.writable = v.canon
  | .nil | .bool _ | .atom _ | .string _ | .pid _ | .ref _ | .function _ => by
    simp only [toJson, Json.writable, ofJson, canon]
  | .integer n => by simp only [toJson, Json.writable, ofJson, canon, ofInt_toInt]
  | .float x => by
    simp only [toJson, Json.writable, canon]
    split <;> simp only [ofJson]
  | .list items | .tuple items => by
    simp only [toJson, Json.writable, ofJson, canon, ofJsonItems_writable items]
  | .keyword fields | .struct _ fields => by
    simp only [toJson, Json.writable, ofJson, canon, ofJsonFields_writable fields]
  | .map pairs => by
    simp only [toJson, Json.writable, ofJson, canon, ofJsonPairs_writable pairs]

theorem ofJsonItems_writable : (items : List Value) →
    ofJsonItems (Json.writableItems (toJsonItems items)) = canonItems items
  | [] => by simp only [toJsonItems, Json.writableItems, ofJsonItems, canonItems]
  | v :: rest => by
    simp only [toJsonItems, Json.writableItems, ofJsonItems, canonItems, ofJson_writable v,
      ofJsonItems_writable rest]

theorem ofJsonFields_writable : (fields : List (String × Value)) →
    ofJsonFields (Json.writableFields (toJsonFields fields)) = canonFields fields
  | [] => by simp only [toJsonFields, Json.writableFields, ofJsonFields, canonFields]
  | (_, v) :: rest => by
    simp only [toJsonFields, Json.writableFields, ofJsonFields, canonFields, ofJson_writable v,
      ofJsonFields_writable rest]

theorem ofJsonPairs_writable : (pairs : List (Value × Value)) →
    ofJsonFields (Json.writableFields (toJsonPairs pairs)) = canonPairs pairs
  | [] => by simp only [toJsonPairs, Json.writableFields, ofJsonFields, canonPairs]
  | (_, v) :: rest => by
    simp only [toJsonPairs, Json.writableFields, ofJsonFields, canonPairs, ofJson_writable v,
      ofJsonPairs_writable rest]

end

mutual

theorem canonical_canon : (v : Value) → v.canon.Canonical
  | .nil => .nil
  | .bool b => .bool b
  | .integer n => .integer n
  | .float x => by
    rw [canon]
    split
    next hfinite => exact .float hfinite
    next => exact .nil
  | .atom _ | .string _ | .pid _ | .ref _ | .function _ => .string _
  | .list items | .tuple items => .list (canonical_canonItems items)
  | .keyword fields | .struct _ fields => .keyword (canonical_canonFields fields)
  | .map pairs => .keyword (canonical_canonPairs pairs)

theorem canonical_canonItems : (items : List Value) → ∀ v ∈ canonItems items, v.Canonical
  | [] => by simp [canonItems]
  | v :: rest => List.forall_mem_cons.2 ⟨canonical_canon v, canonical_canonItems rest⟩

theorem canonical_canonFields : (fields : List (String × Value)) →
    ∀ p ∈ canonFields fields, p.2.Canonical
  | [] => by simp [canonFields]
  | (_, v) :: rest => List.forall_mem_cons.2 ⟨canonical_canon v, canonical_canonFields rest⟩

theorem canonical_canonPairs : (pairs : List (Value × Value)) →
    ∀ p ∈ canonPairs pairs, p.2.Canonical
  | [] => by simp [canonPairs]
  | (_, v) :: rest => List.forall_mem_cons.2 ⟨canonical_canon v, canonical_canonPairs rest⟩

end

theorem Canonical.canon_eq {v : Value} (h : v.Canonical) : v.canon = v := by
  induction h with
  | nil | bool | integer | string => rw [canon]
  | float hfinite => rw [canon, if_pos hfinite]
  | list _ ih => rw [canon, canonItems_eq_map, List.map_congr_left ih, List.map_id']
  | keyword _ ih =>
    rw [canon, canonFields_eq_map, List.map_congr_left fun p hp => by rw [ih p hp], List.map_id']

/-- A value that is written to a document and read again comes back as its canonical form. That form
comes back as it is, and no other value does. -/
theorem decode_written (v : Value) :
    decode (Data.ofJson v.toJson.writable) = .ok v.canon ∧ v.canon.canon = v.canon ∧
      (v.canon = v ↔ v.Canonical) := by
  refine ⟨?_, (canonical_canon v).canon_eq, fun h => ?_, Canonical.canon_eq⟩
  · rw [decode_ofJson, ofJson_writable]
  · rw [← h]
    exact canonical_canon v

example : canon (.map [(.tuple [.atom "a"], .float .nan), (.atom "a", .struct "B" [])]) =
    .keyword [("\x7b:a\x7d", .nil), ("a", .keyword [])] := by
  with_unfolding_all rfl

end Value

end Conform
