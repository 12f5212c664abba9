import Mathlib.Data.List.Forall2
import Conform.Proofs.Compiled.Placement
import Conform.Proofs.Schema.Grammar

namespace Conform

-- Powers are those of the core library, also where more instances are in scope.
attribute [local instance (high)] instPowNat

theorem except_bind_eq_ok {ε α β : Type} {x : Except ε α} {f : α → Except ε β} {b : β} :
    x >>= f = .ok b ↔ ∃ a, x = .ok a ∧ f a = .ok b := by
  cases x <;> simp [bind, Except.bind]

theorem except_map_eq_ok {ε α β : Type} {x : Except ε α} {f : α → β} {b : β} :
    f <$> x = .ok b ↔ ∃ a, x = .ok a ∧ f a = b := by
  cases x <;> simp [Functor.map, Except.map]

theorem except_mapM_eq_ok {ε α β : Type} {f : α → Except ε β} {as : List α} {bs : List β} :
    as.mapM f = .ok bs ↔ List.Forall₂ (fun a b => f a = .ok b) as bs := by
  induction as generalizing bs with
  | nil => simp [pure, Except.pure, eq_comm]
  | cons a as ih =>
    rw [List.mapM_cons, except_bind_eq_ok]
    simp only [except_bind_eq_ok, ih, pure, Except.pure, Except.ok.injEq]
    constructor
    · rintro ⟨b, hb, bs', hbs, rfl⟩
      exact .cons hb hbs
    · rintro (_ | ⟨hb, hbs⟩)
      exact ⟨_, hb, _, hbs, rfl⟩

theorem exists_forall₂ {α β : Type} {r : α → β → Prop} {p : β → Prop} {as : List α} :
    (∃ bs, List.Forall₂ r as bs ∧ ∀ b ∈ bs, p b) ↔ ∀ a ∈ as, ∃ b, r a b ∧ p b := by
  induction as with
  | nil => simp
  | cons a as ih =>
    rw [List.forall_mem_cons, ← ih]
    constructor
    · rintro ⟨_, _ | ⟨hb, hbs⟩, hp⟩
      rw [List.forall_mem_cons] at hp
      exact ⟨⟨_, hb, hp.1⟩, _, hbs, hp.2⟩
    · rintro ⟨⟨b, hb, hpb⟩, bs, hbs, hpbs⟩
      exact ⟨b :: bs, .cons hb hbs, List.forall_mem_cons.2 ⟨hpb, hpbs⟩⟩

theorem exists_mapM_eq_ok {ε α β : Type} {f : α → Except ε β} {p : β → Prop} {as : List α} :
    (∃ bs, as.mapM f = .ok bs ∧ ∀ b ∈ bs, p b) ↔ ∀ a ∈ as, ∃ b, f a = .ok b ∧ p b := by
  simp only [except_mapM_eq_ok]
  exact exists_forall₂

theorem BasicType.name_of_ofName? {name : String} {b : BasicType} (h : ofName? name = some b) :
    b.name = name := by
  simpa using List.find?_some h

theorem TypeTag.name_of_ofName? {name : String} {tag : TypeTag} (h : ofName? name = some tag) :
    tag.name = name := by
  simpa using List.find?_some h

theorem Choices.toValue_of_ofValue? {v : Value} {c : Choices} (h : ofValue? v = some c) :
    c.toValue = v := by
  unfold ofValue? at h
  split at h
  · cases h
    rfl
  · split at h
    next hname =>
      cases h
      rw [toValue, hname]
    next => cases h
  · cases h

namespace OptionType

/-- A type as it is read: an arity is an integer of 64 bits, a validator takes the value and the
arguments, and a range is new. -/
def Readable : OptionType → Prop
  | .function arity => arity ≤ 2 ^ (63 : Nat) - 1
  | .oneOf choices => choices.renewed = choices
  | .custom f args => f.arity = args.length + 1
  | _ => True

variable {m : Type → Type} [Monad m] [LawfulMonad m] [MonadExceptOf ReadError m]
  (nested : Value → m Schema)

theorem readAll_eq_mapM (items : List Value) : readAll nested items = items.mapM (read nested) := by
  induction items with
  | nil => rw [readAll, List.mapM_nil]
  | cons item items ih => rw [readAll, ih, List.mapM_cons]

end OptionType

namespace Grammar

variable {p q : Value → Prop} {nested : Value → Except ReadError Schema} {r : Schema → Prop}

theorem isType_of_readAll {items : List Value} {ts : List OptionType}
    (h : OptionType.readAll nested items = .ok ts) (hok : ∀ s ∈ ts.flatMap OptionType.schemas, r s)
    (hread : ∀ item ∈ items, ∀ t, OptionType.read nested item = .ok t →
      (∀ s ∈ t.schemas, r s) → IsType p item) : ∀ item ∈ items, IsType p item := by
  rw [OptionType.readAll_eq_mapM] at h
  intro item hitem
  obtain ⟨t, ht, hmem⟩ := exists_mapM_eq_ok.1 ⟨ts, h, fun t ht => ht⟩ item hitem
  exact hread item hitem t ht fun s hs => hok s (List.mem_flatMap.2 ⟨t, hmem, hs⟩)

theorem isType_of_read {v : Value} {t : OptionType} (h : OptionType.read nested v = .ok t)
    (hok : ∀ s ∈ t.schemas, r s) : IsType (fun s => ∃ u, nested s = .ok u ∧ r u) v := by
  -- What stands in a type is nested less deep.
  induction hn : v.depth using Nat.strongRecOn generalizing v t with
  | ind n ih =>
  subst hn
  rw [OptionType.read.eq_def] at h
  split at h
  next name =>
    split at h
    next b hb =>
      rw [← BasicType.name_of_ofName? hb]
      exact .basic b
    next => cases h
  next name rest =>
    simp only [Value.depth, Value.depthItems] at ih
    dsimp only at h
    split at h
    all_goals try rw [← TypeTag.name_of_ofName? ‹TypeTag.ofName? name = _›]
    next n _ =>
      split at h
      next hn => exact .function hn
      next => cases h
    next choices _ =>
      split at h
      next c hc =>
        rw [← Choices.toValue_of_ofValue? hc]
        exact .oneOf c
      next => cases h
    next f args _ =>
      split at h
      next items hitems =>
        split at h
        next harity => exact .custom hitems harity
        next => cases h
      next => cases h
    next items _ =>
      obtain ⟨ts, hts, h⟩ := except_bind_eq_ok.1 h
      cases h
      rw [OptionType.schemas_union] at hok
      refine .union (isType_of_readAll hts hok fun item hitem t ht hs => ?_)
      have := Value.depth_le_depthItems hitem
      exact ih item.depth (by simp only [Value.depth, Value.depthItems]; omega) ht hs rfl
    next item _ =>
      obtain ⟨t, ht, h⟩ := except_bind_eq_ok.1 h
      cases h
      exact .list (ih item.depth (by simp only [Value.depthItems]; omega) ht hok rfl)
    next items _ =>
      obtain ⟨ts, hts, h⟩ := except_bind_eq_ok.1 h
      cases h
      rw [OptionType.schemas_tupleOf] at hok
      refine .tuple (isType_of_readAll hts hok fun item hitem t ht hs => ?_)
      have := Value.depth_le_depthItems hitem
      exact ih item.depth (by simp only [Value.depth, Value.depthItems]; omega) ht hs rfl
    next s _ =>
      obtain ⟨u, hu, h⟩ := except_bind_eq_ok.1 h
      cases h
      exact .keywordList ⟨u, hu, hok u (by simp)⟩
    next s _ =>
      obtain ⟨u, hu, h⟩ := except_bind_eq_ok.1 h
      cases h
      exact .nonEmptyKeywordList ⟨u, hu, hok u (by simp)⟩
    next s _ =>
      obtain ⟨u, hu, h⟩ := except_bind_eq_ok.1 h
      cases h
      exact .map ⟨u, hu, hok u (by simp)⟩
    next key value _ =>
      obtain ⟨tkey, hkey, h⟩ := except_bind_eq_ok.1 h
      obtain ⟨tvalue, hvalue, h⟩ := except_bind_eq_ok.1 h
      cases h
      simp only [Value.depthItems] at ih
      rw [OptionType.schemas_mapOf] at hok
      apply IsType.mapOf
      · exact ih key.depth (by omega) hkey (fun s hs => hok s (List.mem_append_left _ hs)) rfl
      · exact ih value.depth (by omega) hvalue (fun s hs => hok s (List.mem_append_right _ hs)) rfl
    next name' _ => exact .struct name'
    next => cases h
  next => cases h

theorem takesKeys_basic {b : BasicType} :
    TakesKeys (.atom b.name) ↔ b ∈ [.any, .keywordList, .nonEmptyKeywordList, .map] := by
  constructor
  · intro h
    generalize hv : Value.atom b.name = v at h
    cases h with
    | basic hb =>
      cases BasicType.name_inj.1 (Value.atom.inj hv)
      exact hb
    | list => exact absurd hv.symm TypeTag.data_ne_atom
  · exact .basic

theorem takesKeys_data {tag : TypeTag} {items : List Value} :
    TakesKeys (tag.data items) ↔ tag = .list ∧ ∃ item, items = [item] ∧ TakesKeys item := by
  constructor
  · intro h
    generalize hv : tag.data items = v at h
    cases h with
    | basic => exact absurd hv TypeTag.data_ne_atom
    | list hitem =>
      obtain ⟨htag, hitems⟩ := TypeTag.data_inj.1 hv
      exact ⟨htag, _, hitems, hitem⟩
  · rintro ⟨rfl, item, rfl, hitem⟩
    exact .list hitem

section

attribute [local simp] OptionType.read OptionType.acceptsKeys takesKeys_data OptionType.parts
  OptionType.Readable

theorem readAll_of_isType {items : List Value} (h : ∀ item ∈ items, ∃ t,
    OptionType.read nested item = .ok t ∧ (∀ u ∈ t.parts, u.Readable) ∧ ∀ s ∈ t.schemas, r s) :
    ∃ ts, OptionType.readAll nested items = .ok ts ∧ (∀ u ∈ OptionType.partsAll ts, u.Readable) ∧
      ∀ s ∈ ts.flatMap OptionType.schemas, r s := by
  simp only [OptionType.readAll_eq_mapM, OptionType.partsAll_eq_flatMap, List.forall_mem_flatMap,
    ← forall₂_and]
  exact exists_mapM_eq_ok.2 h

theorem read_of_isType {v : Value} (h : IsType (fun s => ∃ u, nested s = .ok u ∧ r u) v) :
    ∃ t, OptionType.read nested v = .ok t ∧ (t.acceptsKeys = true ↔ TakesKeys v) ∧
      (∀ u ∈ t.parts, u.Readable) ∧ ∀ s ∈ t.schemas, r s := by
  induction h with
  | basic b =>
    refine ⟨.basic b, by simp; rfl, ?_, by simp, by simp⟩
    rw [takesKeys_basic]
    cases b <;> simp
  | @function n hn =>
    have hlt : n.toInt.toNat ≤ 2 ^ (63 : Nat) - 1 := by
      have := n.toInt_lt
      omega
    exact ⟨.function n.toInt.toNat, by simp [TypeTag.data, hn]; rfl, by simp, by simpa, by simp⟩
  | oneOf choices =>
    exact ⟨.oneOf choices.renewed, by simp [TypeTag.data]; rfl, by simp, by simp, by simp⟩
  | @custom f args items hargs harity =>
    exact ⟨.custom f items, by simp [TypeTag.data, hargs, harity]; rfl, by simp, by simpa, by simp⟩
  | union _ ih =>
    obtain ⟨ts, hts, hparts, hs⟩ := readAll_of_isType fun item hitem =>
      (ih item hitem).imp fun t ht => ⟨ht.1, ht.2.2⟩
    exact ⟨.union ts, by simp [TypeTag.data, hts], by simp, by simpa using hparts,
      by simpa using hs⟩
  | tuple _ ih =>
    obtain ⟨ts, hts, hparts, hs⟩ := readAll_of_isType fun item hitem =>
      (ih item hitem).imp fun t ht => ⟨ht.1, ht.2.2⟩
    exact ⟨.tupleOf ts, by simp [TypeTag.data, hts], by simp, by simpa using hparts,
      by simpa using hs⟩
  | list _ ih =>
    obtain ⟨t, ht, hkeys, hparts, hs⟩ := ih
    exact ⟨.listOf t, by simp [TypeTag.data, ht], by simpa using hkeys, by simpa using hparts,
      by simpa using hs⟩
  | keywordList hs =>
    obtain ⟨u, hu, hok⟩ := hs
    exact ⟨.keywordListOf u, by simp [TypeTag.data, hu], by simp, by simp, by simpa using hok⟩
  | nonEmptyKeywordList hs =>
    obtain ⟨u, hu, hok⟩ := hs
    exact ⟨.nonEmptyKeywordListOf u, by simp [TypeTag.data, hu], by simp, by simp,
      by simpa using hok⟩
  | map hs =>
    obtain ⟨u, hu, hok⟩ := hs
    exact ⟨.mapOfKeys u, by simp [TypeTag.data, hu], by simp, by simp, by simpa using hok⟩
  | mapOf _ _ ihkey ihvalue =>
    obtain ⟨key, hkey, -, hkeyparts, hkeys⟩ := ihkey
    obtain ⟨value, hvalue, -, hvalueparts, hvalues⟩ := ihvalue
    refine ⟨.mapOf key value, by simp [TypeTag.data, hkey, hvalue]; rfl, by simp, ?_, ?_⟩
    · simpa [or_imp, forall_and] using ⟨hkeyparts, hvalueparts⟩
    · rw [OptionType.schemas_mapOf]
      exact fun s hs => (List.mem_append.1 hs).elim (hkeys s) (hvalues s)
  | struct name =>
    exact ⟨.struct name, by simp [TypeTag.data]; rfl, by simp, by simp, by simp⟩

end

theorem readable_of_readType {v : Value} {t : OptionType} (h : OptionType.read nested v = .ok t)
    {u : OptionType} (hu : OptionType.Part u t) : u.Readable := by
  obtain ⟨t', ht', -, hparts, -⟩ :=
    read_of_isType (isType_of_read (r := fun _ => True) h (by simp))
  cases h.symm.trans ht'
  exact hparts u hu.mem_parts

theorem schemas_of_readType {v : Value} {t : OptionType} (h : OptionType.read nested v = .ok t)
    (hr : ∀ s u, nested s = .ok u → r u) : ∀ s ∈ t.schemas, r s := by
  have hv : IsType (fun s => ∃ u, nested s = .ok u ∧ r u) v := by
    refine (isType_of_read (r := fun _ => True) h (by simp)).mono fun s _ hs => ?_
    exact hs.imp fun u hu => ⟨hu.1, hr s u hu.1⟩
  obtain ⟨t', ht', -, -, hschemas⟩ := read_of_isType hv
  cases h.symm.trans ht'
  exact hschemas

theorem acceptsKeys_iff {v : Value} {t : OptionType} (h : OptionType.read nested v = .ok t) :
    t.acceptsKeys = true ↔ TakesKeys v := by
  obtain ⟨t', ht', hkeys, -, -⟩ :=
    read_of_isType (isType_of_read (r := fun _ => True) h (by simp))
  cases h.symm.trans ht'
  exact hkeys

theorem get?_of_fields? {v : Value} {fields : List (String × Value)} (h : fields? v = some fields)
    (name : String) : v.get? (.atom name) = fields.lookup name := by
  unfold fields? at h
  split at h <;> cases h <;> rfl

theorem lookup_eq_some_iff {fields : List (String × Value)} (hd : (fields.map Prod.fst).Nodup)
    {name : String} {v : Value} : fields.lookup name = some v ↔ (name, v) ∈ fields := by
  induction fields with
  | nil => simp
  | cons f fields ih =>
    obtain ⟨key, w⟩ := f
    obtain ⟨hkey, hd⟩ := List.nodup_cons.1 hd
    rw [List.lookup_cons, List.mem_cons]
    by_cases hname : name = key
    · subst hname
      have hnot : (name, v) ∉ fields := fun h => hkey (List.mem_map.2 ⟨_, h, rfl⟩)
      simp [hnot, eq_comm]
    · simp [hname, ih hd, beq_false_of_ne hname]

theorem isField_type {t : Value} : IsField p "type" t ↔ IsType p t := by
  constructor
  · intro h
    generalize hname : "type" = name at h
    cases h <;> simp_all
  · exact .type

theorem isField_keys {s : Value} : IsField p "keys" s ↔ p s := by
  constructor
  · intro h
    generalize hname : "keys" = name at h
    cases h <;> simp_all
  · exact .keys

section

variable {v : Value} {fields : List (String × Value)} {spec : OptionSpec}

def readType (nested : Value → Except ReadError Schema) : Option Value → Except ReadError OptionType
  | some t => OptionType.read nested t
  | none => .ok (.basic .any)

def readKeys (nested : Value → Except ReadError Schema) :
    Option Value → Except ReadError (Option Schema)
  | some s => some <$> nested s
  | none => .ok none

/-- The type and the keys are read from fields of their own, and the new key comes from another. -/
theorem of_read (h : OptionSpec.read nested v = .ok spec) :
    readType nested (v.get? (.atom "type")) = .ok spec.type ∧
      readKeys nested (v.get? (.atom "keys")) = .ok spec.keys? ∧
      spec.renameTo? = v.get? (.atom "rename_to") >>= Value.asAtom? := by
  unfold OptionSpec.read at h
  dsimp only at h
  cases htype : v.get? (.atom "type") <;> cases hkeys : v.get? (.atom "keys")
  all_goals
    rw [htype, hkeys] at h
    obtain ⟨type, hread, h⟩ := except_bind_eq_ok.1 h
    obtain ⟨keys?, hreadKeys, h⟩ := except_bind_eq_ok.1 h
    cases h
    exact ⟨hread, hreadKeys, rfl⟩

theorem exists_read {type : OptionType} {keys? : Option Schema}
    (htype : readType nested (v.get? (.atom "type")) = .ok type)
    (hkeys : readKeys nested (v.get? (.atom "keys")) = .ok keys?) :
    ∃ spec, OptionSpec.read nested v = .ok spec ∧ spec.type = type ∧ spec.keys? = keys? := by
  unfold OptionSpec.read
  dsimp only
  cases ht : v.get? (.atom "type") <;> cases hs : v.get? (.atom "keys")
  all_goals
    rw [ht] at htype
    rw [hs] at hkeys
    apply Exists.intro
    constructor
    · exact except_bind_eq_ok.2 ⟨type, htype, except_bind_eq_ok.2 ⟨keys?, hkeys, rfl⟩⟩
    · exact ⟨rfl, rfl⟩

theorem schemas_of_read (h : OptionSpec.read nested v = .ok spec)
    (hr : ∀ s u, nested s = .ok u → r u) : ∀ s ∈ spec.schemas, r s := by
  obtain ⟨htype, hkeys, -⟩ := of_read h
  intro s hs
  rcases OptionSpec.mem_schemas.1 hs with hs | hs
  · cases hw : v.get? (.atom "keys") with
    | none =>
      rw [hw] at hkeys
      simp [hs, readKeys] at hkeys
    | some w =>
      rw [hw] at hkeys
      obtain ⟨u, hu, hkeys⟩ := except_map_eq_ok.1 hkeys
      rw [← hkeys] at hs
      cases hs
      exact hr w s hu
  · cases ht : v.get? (.atom "type") with
    | none =>
      rw [ht] at htype
      simp [← Except.ok.inj htype] at hs
    | some t =>
      rw [ht] at htype
      exact schemas_of_readType htype hr s hs

/-- Where rules are read, schemas are read where they stand in the first field of its name. -/
theorem nested_of_read (h : OptionSpec.read nested v = .ok spec) (hok : ∀ s ∈ spec.schemas, r s)
    {name : String} {w : Value} (hf : v.get? (.atom name) = some w) {s : Value}
    (hs : InField s name w) : ∃ u, nested s = .ok u ∧ r u := by
  obtain ⟨htype, hkeys, -⟩ := of_read h
  cases hs with
  | type hs =>
    rw [hf] at htype
    refine (isType_of_read htype fun s hs => ?_).inline hs
    exact hok s (OptionSpec.mem_schemas.2 (.inr hs))
  | keys =>
    rw [hf] at hkeys
    obtain ⟨u, hu, hkeys⟩ := except_map_eq_ok.1 hkeys
    exact ⟨u, hu, hok u (OptionSpec.mem_schemas.2 (.inl hkeys.symm))⟩

variable (hfields : fields? v = some fields) (hd : (fields.map Prod.fst).Nodup)

include hfields hd in
theorem get?_eq_some_iff {name : String} {w : Value} :
    v.get? (.atom name) = some w ↔ (name, w) ∈ fields := by
  rw [get?_of_fields? hfields, lookup_eq_some_iff hd]

include hfields hd in
theorem read_of_isRules (h : IsRules (fun s => ∃ u, nested s = .ok u ∧ r u) v) :
    ∃ spec, OptionSpec.read nested v = .ok spec ∧ ∀ s ∈ spec.schemas, r s := by
  obtain ⟨hfields', h⟩ := h
  cases hfields.symm.trans hfields'
  have htype : ∃ type, readType nested (v.get? (.atom "type")) = .ok type ∧
      ∀ s ∈ type.schemas, r s := by
    cases ht : v.get? (.atom "type") with
    | none => exact ⟨.basic .any, rfl, by simp⟩
    | some t =>
      obtain ⟨type, hread, -, -, hok⟩ :=
        read_of_isType (isField_type.1 (h _ ((get?_eq_some_iff hfields hd).1 ht)))
      exact ⟨type, hread, hok⟩
  have hkeys : ∃ keys?, readKeys nested (v.get? (.atom "keys")) = .ok keys? ∧
      ∀ s ∈ keys?, r s := by
    cases hs : v.get? (.atom "keys") with
    | none => exact ⟨none, rfl, by simp⟩
    | some s =>
      obtain ⟨u, hread, hok⟩ := isField_keys.1 (h _ ((get?_eq_some_iff hfields hd).1 hs))
      exact ⟨some u, by rw [readKeys, hread]; rfl, by simpa using hok⟩
  obtain ⟨type, htype, htypes⟩ := htype
  obtain ⟨keys?, hkeys, hkeysok⟩ := hkeys
  obtain ⟨spec, hread, rfl, rfl⟩ := exists_read htype hkeys
  refine ⟨spec, hread, fun s hs => ?_⟩
  exact (OptionSpec.mem_schemas.1 hs).elim (hkeysok s) (htypes s)

include hfields hd in
theorem keysPlaced_iff (h : OptionSpec.read nested v = .ok spec) :
    KeysPlaced v ↔ (spec.keys?.isSome = true → spec.type.acceptsKeys = true) := by
  obtain ⟨htype, hkeys, -⟩ := of_read h
  have hplaced : KeysPlaced v ↔ ∀ s, v.get? (.atom "keys") = some s →
      ∀ t, v.get? (.atom "type") = some t → TakesKeys t := by
    simp only [KeysPlaced, hfields, Option.some.injEq, forall_eq', get?_eq_some_iff hfields hd]
  rw [hplaced]
  cases hs : v.get? (.atom "keys") with
  | none =>
    rw [hs] at hkeys
    simp [← Except.ok.inj hkeys]
  | some s =>
    rw [hs] at hkeys
    obtain ⟨u, -, hkeys⟩ := except_map_eq_ok.1 hkeys
    cases ht : v.get? (.atom "type") with
    | none =>
      rw [ht] at htype
      simp [← Except.ok.inj htype, OptionType.acceptsKeys]
    | some t =>
      rw [ht] at htype
      simp [← hkeys, acceptsKeys_iff htype]

theorem key_eq_atom_iff {key : Value} {k : SchemaKey} {target : String}
    (h : SchemaKey.ofValue? key = some k) :
    k = .atom target ↔ target ≠ SchemaKey.wildcardName ∧ key = .atom target := by
  unfold SchemaKey.ofValue? at h
  split at h
  next name =>
    cases h
    by_cases hname : name = SchemaKey.wildcardName
    · rw [if_pos hname]
      simp only [reduceCtorEq, false_iff, Value.atom.injEq]
      rintro ⟨htarget, rfl⟩
      exact htarget hname
    · rw [if_neg hname]
      simp only [SchemaKey.atom.injEq, Value.atom.injEq]
      constructor
      · rintro rfl
        exact ⟨hname, rfl⟩
      · exact And.right
  next name =>
    cases h
    simp
  next => cases h

theorem atom_or_string {key : Value} {k : SchemaKey} (h : SchemaKey.ofValue? key = some k) :
    (∃ name, key = .atom name) ∨ ∃ name, key = .string name := by
  unfold SchemaKey.ofValue? at h
  split at h
  next name => exact .inl ⟨name, rfl⟩
  next name => exact .inr ⟨name, rfl⟩
  next => cases h

structure ReadAs (nested : Value → Except ReadError Schema) (p : Value × Value) (e : Entry) :
    Prop where
  key : SchemaKey.ofValue? p.1 = some e.key
  spec : OptionSpec.read nested p.2 = .ok e.spec

/-- Every pair is read as an entry, and every entry is read from a pair. -/
theorem exists_readAs {pairs : List (Value × Value)} {es : List Entry}
    (h : List.Forall₂ (ReadAs nested) pairs es) :
    (∀ p ∈ pairs, ∃ e, ReadAs nested p e ∧ e ∈ es) ∧
      ∀ e ∈ es, ∃ p, ReadAs nested p e ∧ p ∈ pairs :=
  ⟨exists_forall₂.1 ⟨es, h, fun _ he => he⟩, exists_forall₂.1 ⟨pairs, h.flip, fun _ hp => hp⟩⟩

theorem exists_target_iff {later : List (Value × Value)} {es : List Entry}
    (h : List.Forall₂ (ReadAs nested) later es) {target : String} :
    (∃ d ∈ es, d.key = .atom target) ↔
      target ≠ SchemaKey.wildcardName ∧ ∃ p ∈ later, p.1 = .atom target := by
  induction h with
  | nil => simp
  | cons hp _ ih =>
    rw [List.exists_mem_cons_iff, List.exists_mem_cons_iff, ih, key_eq_atom_iff hp.key]
    exact and_or_left.symm

include hfields hd in
theorem targetPlaced_iff (h : OptionSpec.read nested v = .ok spec) {later : List (Value × Value)}
    {es : List Entry} (hlater : List.Forall₂ (ReadAs nested) later es) :
    TargetPlaced v later ↔
      ∀ target, spec.renameTo? = some target → ∃ d ∈ es, d.key = .atom target := by
  obtain ⟨-, -, hrename⟩ := of_read h
  have htarget : ∀ target, spec.renameTo? = some target ↔ ("rename_to", .atom target) ∈ fields := by
    intro target
    rw [hrename, ← get?_eq_some_iff hfields hd]
    cases v.get? (.atom "rename_to") with
    | none => simp
    | some w => cases w <;> simp [Value.asAtom?]
  simp only [TargetPlaced, hfields, Option.some.injEq, forall_eq', htarget,
    exists_target_iff hlater]

end

theorem placed_iff {pairs : List (Value × Value)} {es : List Entry}
    (h : List.Forall₂ (ReadAs nested) pairs es)
    (hfields : ∀ p ∈ pairs, ∃ fields, fields? p.2 = some fields ∧ (fields.map Prod.fst).Nodup) :
    Entry.Placed es ↔ (∀ p ∈ pairs, KeysPlaced p.2) ∧
      ∀ before p later, pairs = before ++ p :: later → TargetPlaced p.2 later := by
  induction h with
  | nil => simp [Entry.placed_nil]
  | @cons p e pairs es hp hes ih =>
    obtain ⟨fields, hrules, hd⟩ := hfields p (by simp)
    rw [Entry.placed_cons, ih fun q hq => hfields q (List.mem_cons_of_mem _ hq),
      List.forall_mem_cons, ← keysPlaced_iff hrules hd hp.spec,
      ← targetPlaced_iff hrules hd hp.spec hes]
    constructor
    · rintro ⟨⟨hkeys, htarget⟩, hallkeys, htargets⟩
      refine ⟨⟨hkeys, hallkeys⟩, fun before q later heq => ?_⟩
      rcases List.cons_eq_append_iff.1 heq with ⟨rfl, heq⟩ | ⟨before, rfl, rfl⟩
      · cases heq
        exact htarget
      · exact htargets before q later rfl
    · rintro ⟨⟨hkeys, hallkeys⟩, htargets⟩
      refine ⟨⟨hkeys, htargets [] p pairs rfl⟩, hallkeys, ?_⟩
      rintro before q later rfl
      exact htargets (p :: before) q later rfl

theorem dataPairs_eq_ok {v : Value} {pairs : List (Value × Value)} :
    Schema.dataPairs v = .ok pairs ↔ ∃ o, Options.ofValue? v = some o ∧ o.pairs = pairs := by
  unfold Schema.dataPairs Options.ofValue?
  split <;> simp

theorem readWithin_eq_ok {fuel : Nat} {v : Value} {s : Schema} :
    Schema.readWithin (fuel + 1) v = .ok s ↔ ∃ o es, Options.ofValue? v = some o ∧
      List.Forall₂ (ReadAs (Schema.readWithin fuel)) o.pairs es ∧ s = .entries es := by
  rw [Schema.readWithin, except_bind_eq_ok]
  simp only [dataPairs_eq_ok, except_bind_eq_ok, except_mapM_eq_ok]
  constructor
  · rintro ⟨_, ⟨o, ho, rfl⟩, es, hes, h⟩
    cases h
    refine ⟨o, es, ho, hes.imp fun p e hread => ?_, rfl⟩
    split at hread
    next key hkey =>
      obtain ⟨spec, hspec, hread⟩ := except_bind_eq_ok.1 hread
      cases hread
      exact ⟨hkey, hspec⟩
    next => cases hread
  · rintro ⟨o, es, ho, hes, rfl⟩
    refine ⟨o.pairs, ⟨o, ho, rfl⟩, es, hes.imp fun p e hread => ?_, rfl⟩
    cases e
    rw [hread.key, hread.spec]
    rfl

section

variable {fuel : Nat} {v : Value} {es : List Entry} (hd : DistinctLevel v)

include hd in
/-- A level of the grammar is read, with well-placed entries. -/
theorem read_of_isLevel (h : IsLevel (fun s => ∃ u, Schema.readWithin fuel s = .ok u ∧ r u) v) :
    ∃ es, Schema.readWithin (fuel + 1) v = .ok (.entries es) ∧ Entry.Placed es ∧
      ∀ e ∈ es, ∀ s ∈ e.spec.schemas, r s := by
  obtain @⟨o, _, ho, hkeys, hrules, hkeysplaced, htargets⟩ := h
  have hentries : ∀ p ∈ o.pairs, ∃ e, ReadAs (Schema.readWithin fuel) p e ∧
      ∀ s ∈ e.spec.schemas, r s := by
    intro p hp
    obtain ⟨key, hkey⟩ : ∃ key, SchemaKey.ofValue? p.1 = some key := by
      rcases hkeys p hp with ⟨name, hname⟩ | ⟨name, hname⟩
      all_goals exact ⟨_, by rw [hname]; rfl⟩
    obtain ⟨hfields, -⟩ := hrules p hp
    have hfieldsOnce := hd.fields _ ho p hp _ hfields
    obtain ⟨spec, hspec, hok⟩ := read_of_isRules hfields hfieldsOnce (hrules p hp)
    exact ⟨⟨key, spec⟩, ⟨hkey, hspec⟩, hok⟩
  obtain ⟨es, hes, hok⟩ := exists_forall₂.2 hentries
  refine ⟨es, readWithin_eq_ok.2 ⟨_, es, ho, hes, rfl⟩, ?_, hok⟩
  refine (placed_iff hes fun p hp => ?_).2 ⟨hkeysplaced, htargets⟩
  obtain ⟨hfields, -⟩ := hrules p hp
  exact ⟨_, hfields, hd.fields _ ho p hp _ hfields⟩

include hd in
/-- What is read, with well-placed entries, is a level of the grammar if its rules are. -/
theorem isLevel_of_read (h : Schema.readWithin (fuel + 1) v = .ok (.entries es))
    (hrules : ∀ o, Options.ofValue? v = some o → ∀ pair ∈ o.pairs, IsRules p pair.2)
    (hplaced : Entry.Placed es) (hok : ∀ e ∈ es, ∀ s ∈ e.spec.schemas, r s) :
    IsLevel (fun s => p s ∧ ∃ u, Schema.readWithin fuel s = .ok u ∧ r u) v := by
  obtain ⟨o, es', ho, hes, heq⟩ := readWithin_eq_ok.1 h
  cases heq
  have hentry := (exists_readAs hes).1
  have hfields : ∀ pair ∈ o.pairs, ∃ fields, fields? pair.2 = some fields ∧
      (fields.map Prod.fst).Nodup := by
    intro pair hpair
    obtain ⟨hfields, -⟩ := hrules o ho pair hpair
    exact ⟨_, hfields, hd.fields o ho pair hpair _ hfields⟩
  obtain ⟨hkeysplaced, htargets⟩ := (placed_iff hes hfields).1 hplaced
  refine .intro ho (fun pair hpair => ?_) (fun pair hpair => ?_) hkeysplaced htargets
  · obtain ⟨e, hread, -⟩ := hentry pair hpair
    exact atom_or_string hread.key
  · obtain ⟨e, hread, he⟩ := hentry pair hpair
    obtain ⟨hfields, hrules⟩ := hrules o ho pair hpair
    have hnodup := hd.fields o ho pair hpair _ hfields
    refine .intro hfields fun f hf => (hrules f hf).mono fun s hs hp => ⟨hp, ?_⟩
    exact nested_of_read hread.spec (hok e he) ((get?_eq_some_iff hfields hnodup).2 hf) hs

end

end Grammar

end Conform
