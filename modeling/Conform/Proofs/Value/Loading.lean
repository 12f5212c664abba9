import Conform.Proofs.Json.Fields
import Conform.Proofs.Pairs.Storage
import Conform.Proofs.Value.Canonical

namespace Conform

namespace Json

def first? : Json → Value → Option Json
  | .object fields, .atom name => fields.lookup name
  | _, _ => none

def last? : Json → Value → Option Json
  | .object fields, .atom name => fields.reverse.lookup name
  | _, _ => none

def at? (find : Json → Value → Option Json) (j : Json) (path : List Value) : Option Json :=
  path.foldlM find j

inductive Unrepeated : Json → Prop where
  | null : Unrepeated .null
  | bool (b : Bool) : Unrepeated (.bool b)
  | integer (n : Int) : Unrepeated (.integer n)
  | float (x : Number.Binary64) : Unrepeated (.float x)
  | string (text : String) : Unrepeated (.string text)
  | array {items} : (∀ j ∈ items, Unrepeated j) → Unrepeated (.array items)
  | object {fields} : Pairs.Distinct fields → (∀ f ∈ fields, Unrepeated f.2) →
      Unrepeated (.object fields)

attribute [simp] Unrepeated.integer Unrepeated.string

@[simp] theorem unrepeated_array {items : List Json} :
    (array items).Unrepeated ↔ ∀ j ∈ items, j.Unrepeated := by
  refine ⟨fun h => ?_, .array⟩
  cases h with
  | array hitems => exact hitems

@[simp] theorem unrepeated_object {fields : List (String × Json)} :
    (object fields).Unrepeated ↔ Pairs.Distinct fields ∧ ∀ f ∈ fields, f.2.Unrepeated := by
  refine ⟨fun h => ?_, fun h => .object h.1 h.2⟩
  cases h with
  | object hdistinct hfields => exact ⟨hdistinct, hfields⟩

theorem sortedItems_eq_map (items : List Json) : sortedItems items = items.map sorted := by
  induction items with
  | nil => rfl
  | cons j rest ih => rw [sortedItems, ih, List.map_cons]

theorem reversedItems_eq_map (items : List Json) : reversedItems items = items.map reversed := by
  induction items with
  | nil => rfl
  | cons j rest ih => rw [reversedItems, ih, List.map_cons]

theorem lookup_reverse {fields : List (String × Json)} (h : Pairs.Distinct fields)
    (name : String) : fields.reverse.lookup name = fields.lookup name := by
  rw [← Pairs.find?_eq_lookup, ← Pairs.find?_eq_lookup]
  exact (Pairs.find?_perm h (List.reverse_perm fields).symm name).symm

theorem mem_of_lookup {fields : List (String × Json)} {name : String} {j : Json}
    (h : fields.lookup name = some j) : (name, j) ∈ fields :=
  Pairs.mem_of_mem_firsts (Pairs.mem_firsts_iff.2 h)

theorem Unrepeated.sorted_reversed {j : Json} (h : j.Unrepeated) :
    j.reversed.sorted = j.sorted := by
  induction h with
  | array _ ih =>
    rw [reversed, sorted, sorted, reversedItems_eq_map, sortedItems_eq_map, sortedItems_eq_map,
      List.map_map]
    exact congrArg _ (List.map_congr_left ih)
  | @object fields hdistinct _ ih =>
    rw [reversed, sorted, sorted]
    congr 1
    refine (ascending_sortedFields _).ext (ascending_sortedFields _) fun name => ?_
    rw [lookup_sortedFields, lookup_sortedFields, lookup_reversedFields, lookup_reverse hdistinct]
    cases hname : fields.lookup name with
    | none => rfl
    | some j => exact congrArg some (ih _ (mem_of_lookup hname))
  | _ => rfl

end Json

namespace Value

def at? (v : Value) (path : List Value) : Option Value :=
  path.foldlM get? v

/-- Two values are the same to someone who looks up keys: what is no keyword list is equal, lists
item by item, and keyword lists give such values for every key. -/
inductive Alike : Value → Value → Prop where
  | same (v : Value) : Alike v v
  | list {vs ws} : List.Forall₂ Alike vs ws → Alike (.list vs) (.list ws)
  | keyword {ps qs} : (∀ key, Option.Rel Alike ((keyword ps).get? key) ((keyword qs).get? key)) →
      Alike (.keyword ps) (.keyword qs)

theorem lookup_ofJsonFields (fields : List (String × Json)) (name : String) :
    (ofJsonFields fields).lookup name = (fields.lookup name).map ofJson := by
  induction fields with
  | nil => rfl
  | cons f rest ih =>
    obtain ⟨key, j⟩ := f
    rw [ofJsonFields]
    by_cases hname : name = key
    · simp [hname]
    · rw [Json.lookup_cons_of_ne hname, Json.lookup_cons_of_ne hname, ih]

theorem ofJsonItems_eq_map (items : List Json) : ofJsonItems items = items.map ofJson := by
  induction items with
  | nil => rfl
  | cons j rest ih => rw [ofJsonItems, ih, List.map_cons]

theorem ofSortedJson_array (items : List Json) :
    ofSortedJson (.array items) = .list (items.map ofSortedJson) := by
  rw [ofSortedJson, Json.sorted, ofJson, ofJsonItems_eq_map, Json.sortedItems_eq_map, List.map_map]
  rfl

theorem ofSortedJson_object (fields : List (String × Json)) :
    ofSortedJson (.object fields) = .keyword (ofJsonFields (Json.sortedFields fields)) := by
  rw [ofSortedJson, Json.sorted, ofJson]

theorem lookup_ofSortedFields (fields : List (String × Json)) (name : String) :
    (ofJsonFields (Json.sortedFields fields)).lookup name =
      (fields.reverse.lookup name).map ofSortedJson := by
  rw [lookup_ofJsonFields, Json.lookup_sortedFields, Option.map_map]
  rfl

theorem get?_ofJson (j : Json) (key : Value) :
    (ofJson j).get? key = (j.first? key).map ofJson := by
  cases j with
  | object fields =>
    rw [ofJson]
    cases key with
    | atom name => exact lookup_ofJsonFields fields name
    | _ => rfl
  | integer n =>
    rw [ofJson, ofInt]
    split <;> rfl
  | _ => rfl

theorem get?_ofSortedJson (j : Json) (key : Value) :
    (ofSortedJson j).get? key = (j.last? key).map ofSortedJson := by
  cases j with
  | object fields =>
    rw [ofSortedJson_object]
    cases key with
    | atom name => exact lookup_ofSortedFields fields name
    | _ => rfl
  | integer n =>
    change (ofInt n).get? key = _
    rw [ofInt]
    split <;> rfl
  | _ => rfl

theorem at?_load {load : Json → Value} {find : Json → Value → Option Json}
    (h : ∀ j key, (load j).get? key = (find j key).map load) (j : Json) (path : List Value) :
    (load j).at? path = (j.at? find path).map load := by
  induction path generalizing j with
  | nil => rfl
  | cons key path ih =>
    unfold at? Json.at? at ih ⊢
    rw [List.foldlM_cons, List.foldlM_cons, h]
    cases hfind : find j key with
    | none => rfl
    | some k => exact ih k

theorem Alike.get? {v w : Value} (h : Alike v w) (key : Value) :
    Option.Rel Alike (v.get? key) (w.get? key) := by
  cases h with
  | same v =>
    cases v.get? key with
    | none => exact .none
    | some u => exact .some (.same u)
  | list => exact .none
  | keyword hget => exact hget key

/-- To be alike is to be alike at the end of every path. -/
theorem alike_iff_at? {v w : Value} :
    Alike v w ↔ ∀ path, Option.Rel Alike (v.at? path) (w.at? path) := by
  constructor
  · intro h path
    induction path generalizing v w with
    | nil => exact .some h
    | cons key path ih =>
      unfold at? at ih ⊢
      rw [List.foldlM_cons, List.foldlM_cons]
      have hget := h.get? key
      generalize v.get? key = found at hget ⊢
      generalize w.get? key = found' at hget ⊢
      cases hget with
      | none => exact .none
      | some h => exact ih h
  · intro h
    cases h [] with
    | some h => exact h

theorem alike_list {vs : List Value} {w : Value} :
    Alike (.list vs) w ↔ ∃ ws, w = .list ws ∧ List.Forall₂ Alike vs ws := by
  constructor
  · intro h
    cases h with
    | same => exact ⟨vs, rfl, List.forall₂_same.2 fun v _ => .same v⟩
    | list h => exact ⟨_, rfl, h⟩
  · rintro ⟨ws, rfl, h⟩
    exact .list h

theorem alike_keyword {ps : List (String × Value)} {w : Value} :
    Alike (.keyword ps) w ↔
      ∃ qs, w = .keyword qs ∧ ∀ name, Option.Rel Alike (ps.lookup name) (qs.lookup name) := by
  constructor
  · intro h
    have hget := fun name => h.get? (.atom name)
    cases h with
    | same => exact ⟨ps, rfl, hget⟩
    | keyword => exact ⟨_, rfl, hget⟩
  · rintro ⟨qs, rfl, h⟩
    refine .keyword fun key => ?_
    cases key with
    | atom name => exact h name
    | _ => exact .none

theorem alike_of_ne {v w : Value} (hlist : ∀ vs, v ≠ .list vs) (hkeyword : ∀ ps, v ≠ .keyword ps) :
    Alike v w ↔ v = w := by
  constructor
  · intro h
    cases h with
    | same => rfl
    | list => exact absurd rfl (hlist _)
    | keyword => exact absurd rfl (hkeyword _)
  · rintro rfl
    exact .same v

theorem ofSortedJson_eq_list {j : Json} {vs : List Value} :
    ofSortedJson j = .list vs ↔ ∃ items, j = .array items ∧ vs = items.map ofSortedJson := by
  constructor
  · intro h
    cases j with
    | array items =>
      rw [ofSortedJson_array] at h
      exact ⟨items, rfl, (list.inj h).symm⟩
    | integer n =>
      change ofInt n = _ at h
      unfold ofInt at h
      split at h <;> cases h
    | object fields =>
      rw [ofSortedJson_object] at h
      cases h
    | _ => cases h
  · rintro ⟨items, rfl, rfl⟩
    exact ofSortedJson_array items

theorem ofSortedJson_eq_keyword {j : Json} {ps : List (String × Value)} :
    ofSortedJson j = .keyword ps ↔
      ∃ fields, j = .object fields ∧ ps = ofJsonFields (Json.sortedFields fields) := by
  constructor
  · intro h
    cases j with
    | object fields =>
      rw [ofSortedJson_object] at h
      exact ⟨fields, rfl, (keyword.inj h).symm⟩
    | integer n =>
      change ofInt n = _ at h
      unfold ofInt at h
      split at h <;> cases h
    | array items =>
      rw [ofSortedJson_array] at h
      cases h
    | _ => cases h
  · rintro ⟨fields, rfl, rfl⟩
    exact ofSortedJson_object fields

theorem ascending_ofJsonFields {fields : List (String × Json)} (h : Json.Ascending fields) :
    Json.Ascending (ofJsonFields fields) := by
  have hmap : ofJsonFields fields = fields.map fun f => (f.1, ofJson f.2) := by
    clear h
    induction fields with
    | nil => rfl
    | cons f rest ih => rw [ofJsonFields, ih, List.map_cons]
  rw [hmap]
  exact List.pairwise_map.2 h

/-- The document, read with the first field of each name, is like another one, read with the last
field of each name, if and only if reversing the fields makes the two equal. -/
def LikeReversed (j : Json) : Prop :=
  ∀ k, Alike (ofJson j) (ofSortedJson k) ↔ ofSortedJson j.reversed = ofSortedJson k

theorem likeReversed_array {items : List Json} (h : ∀ j ∈ items, LikeReversed j) :
    LikeReversed (.array items) := by
  intro k
  have hitems : ∀ ks : List Json, List.Forall₂ Alike (items.map ofJson) (ks.map ofSortedJson) ↔
      (items.map Json.reversed).map ofSortedJson = ks.map ofSortedJson := by
    intro ks
    induction items generalizing ks with
    | nil => cases ks <;> simp
    | cons j rest ih =>
      obtain ⟨hj, hrest⟩ := List.forall_mem_cons.1 h
      cases ks with
      | nil => simp
      | cons k ks =>
        simp only [List.map_cons, List.forall₂_cons, List.cons.injEq]
        exact and_congr (hj k) (ih hrest ks)
  rw [ofJson, ofJsonItems_eq_map, alike_list, Json.reversed, ofSortedJson_array,
    Json.reversedItems_eq_map]
  constructor
  · rintro ⟨ws, hk, hws⟩
    obtain ⟨ks, rfl, rfl⟩ := ofSortedJson_eq_list.1 hk
    rw [hk, (hitems ks).1 hws]
  · intro hk
    obtain ⟨ks, rfl, hks⟩ := ofSortedJson_eq_list.1 hk.symm
    exact ⟨_, ofSortedJson_array ks, (hitems ks).2 hks⟩

theorem likeReversed_object {fields : List (String × Json)} (h : ∀ f ∈ fields, LikeReversed f.2) :
    LikeReversed (.object fields) := by
  intro k
  have hname : ∀ name (gs : List (String × Json)),
      Option.Rel Alike ((ofJsonFields fields).lookup name)
          ((ofJsonFields (Json.sortedFields gs)).lookup name) ↔
        (ofJsonFields (Json.sortedFields (Json.reversedFields fields))).lookup name =
          (ofJsonFields (Json.sortedFields gs)).lookup name := by
    intro name gs
    rw [lookup_ofJsonFields, lookup_ofSortedFields, lookup_ofSortedFields,
      Json.lookup_reversedFields]
    cases hfirst : fields.lookup name with
    | none => cases gs.reverse.lookup name <;> simp
    | some j =>
      have hj := h _ (Json.mem_of_lookup hfirst)
      cases gs.reverse.lookup name with
      | none => simp
      | some k => simpa using hj k
  rw [ofJson, alike_keyword, Json.reversed, ofSortedJson_object]
  constructor
  · rintro ⟨qs, hk, hqs⟩
    obtain ⟨gs, rfl, rfl⟩ := ofSortedJson_eq_keyword.1 hk
    rw [hk]
    congr 1
    refine Json.Ascending.ext (ascending_ofJsonFields (Json.ascending_sortedFields _))
      (ascending_ofJsonFields (Json.ascending_sortedFields _)) fun name => ?_
    exact (hname name gs).1 (hqs name)
  · intro hk
    obtain ⟨gs, rfl, hgs⟩ := ofSortedJson_eq_keyword.1 hk.symm
    refine ⟨_, ofSortedJson_object gs, fun name => (hname name gs).2 ?_⟩
    rw [hgs]

mutual

theorem likeReversed : (j : Json) → LikeReversed j
  | .array items => likeReversed_array (likeReversedItems items)
  | .object fields => likeReversed_object (likeReversedFields fields)
  | .integer n => fun k => by
    refine alike_of_ne (fun vs => ?_) (fun ps => ?_) <;>
    · rw [ofJson, ofInt]
      split <;> nofun
  | .null | .bool _ | .float _ | .string _ => fun k => alike_of_ne nofun nofun

theorem likeReversedItems : (items : List Json) → ∀ j ∈ items, LikeReversed j
  | [] => by simp
  | j :: rest => List.forall_mem_cons.2 ⟨likeReversed j, likeReversedItems rest⟩

theorem likeReversedFields : (fields : List (String × Json)) → ∀ f ∈ fields, LikeReversed f.2
  | [] => by simp
  | (_, j) :: rest => List.forall_mem_cons.2 ⟨likeReversed j, likeReversedFields rest⟩

end

/-- Two ways to load a document whose text has been read: both are given the same pieces, and the
second one gets them through a map that is sorted by name and keeps the last of repeated names, as
`Json.sorted` does. Along every path of keys the first way finds what stands in the first field of
each name, and the second what stands in the last. They agree everywhere if and only if the order of
the fields makes no difference to the second way, so always if no name is repeated. -/
theorem loaded_alike_iff (j : Json) : ∃ v, decode (Data.ofJson j) = .ok v ∧
    (∀ path, v.at? path = (j.at? Json.first? path).map ofJson) ∧
    (∀ path, (ofSortedJson j).at? path = (j.at? Json.last? path).map ofSortedJson) ∧
    ((∀ path, Option.Rel Alike (v.at? path) ((ofSortedJson j).at? path)) ↔
      ofSortedJson j.reversed = ofSortedJson j) ∧
    (j.Unrepeated → ∀ path, Option.Rel Alike (v.at? path) ((ofSortedJson j).at? path)) := by
  have hiff : (∀ path, Option.Rel Alike ((ofJson j).at? path) ((ofSortedJson j).at? path)) ↔
      ofSortedJson j.reversed = ofSortedJson j := by
    rw [← alike_iff_at?]
    exact likeReversed j j
  refine ⟨ofJson j, decode_ofJson j, at?_load get?_ofJson j, at?_load get?_ofSortedJson j, hiff, ?_⟩
  intro h
  refine hiff.2 ?_
  rw [ofSortedJson, ofSortedJson, h.sorted_reversed]

end Value

/-- A replica with two addresses. One of the numbers is too large for an integer value. -/
def replicaDocument : Json := .object [
  ("name", .string "replica"),
  ("limits", .object [("bytes", .integer 18446744073709551615), ("rows", .integer 1000)]),
  ("hosts", .array [.object [("port", .integer 80)], .object [("port", .integer 8080)]])]

theorem replicaDocument_alike : replicaDocument.Unrepeated ∧
    ∃ v, Value.decode (Data.ofJson replicaDocument) = .ok v ∧
      v.at? [.atom "limits", .atom "rows"] = some (.integer 1000) ∧
      ∀ path, Option.Rel Value.Alike (v.at? path)
        ((Value.ofSortedJson replicaDocument).at? path) := by
  have hunrepeated : replicaDocument.Unrepeated := by simp [replicaDocument, Pairs.Distinct]
  obtain ⟨v, hv, hfirst, -, -, halike⟩ := Value.loaded_alike_iff replicaDocument
  refine ⟨hunrepeated, v, hv, ?_, halike hunrepeated⟩
  rw [hfirst]
  rfl

def portDocument : Json := .object [("port", .integer 80), ("port", .integer 8080)]

/-- The one way finds the first port, the other the second. -/
theorem portDocument_differs : ∃ v, Value.decode (Data.ofJson portDocument) = .ok v ∧
    v.get? (.atom "port") = some (.integer 80) ∧
    (Value.ofSortedJson portDocument).get? (.atom "port") = some (.integer 8080) ∧
    ¬∀ path, Option.Rel Value.Alike (v.at? path) ((Value.ofSortedJson portDocument).at? path) := by
  refine ⟨_, Value.decode_ofJson _, by rfl, by rfl, fun h => ?_⟩
  have hport : Option.Rel Value.Alike (some (.integer 80)) (some (.integer 8080)) :=
    h [.atom "port"]
  cases hport with
  | some halike => cases halike

end Conform
