import Conform.Proofs.Acceptance.Descent
import Conform.Proofs.Acceptance.Pointwise
import Conform.Proofs.Acceptance.Silence

namespace Conform

open Run

def OptionSpec.reports (spec : OptionSpec) (key : Value) : List Event :=
  (spec.deprecation?.map (.deprecated key)).toList

/-- A value that is matched by a type, and what is reported before. -/
structure Place where
  reports : List Event
  type : OptionType
  value : Value

def OptionSpec.toPlace (spec : OptionSpec) (key v : Value) : Place :=
  ⟨spec.reports key, spec.effectiveType, v⟩

/-- An element of a container is reported by what is in it alone. -/
def OptionType.toPlace (t : OptionType) (v : Value) : Place := ⟨[], t, v⟩

/-- The place of an option if it has a value: the first one that is given, or else the default. -/
def Options.place? (ps : List (Value × Value)) (d : Value × OptionSpec) : Option Place :=
  ((Pairs.find? ps d.1).or d.2.default?).map (d.2.toPlace d.1)

/-- The places of the options that have a value, in the order in which options are considered. -/
def Options.places (es : List Entry) (o : Options) : List Place :=
  (Entry.considered es o.firsts).filterMap (place? o.firsts)

/-- The places right inside options, by their schema. -/
inductive Schema.Opens (host : Host) : Schema → Value → List Place → Prop where
  | options {s es v o} : s.Resolves host es → Options.ofValue? v = some o →
      Opens host s v (o.places es)

/-- The places right inside a value, by its type. In a map each key stands before its value. -/
inductive OptionType.Opens (host : Host) : OptionType → Value → List Place → Prop where
  | basic {b v} : Opens host (.basic b) v []
  | options {t b s v places} : t.container? = some (b, s) → s.Opens host v places →
      Opens host t v places
  | mapOf {key value : OptionType} {pairs} : Opens host (.mapOf key value) (.map pairs)
      (pairs.flatMap fun p => [key.toPlace p.1, value.toPlace p.2])
  | function {arity v} : Opens host (.function arity) v []
  | oneOf {choices v} : Opens host (.oneOf choices) v []
  | custom {f args v} : Opens host (.custom f args) v []
  | listOf {t v items} : v.asList? = some items →
      Opens host (.listOf t) v (items.map t.toPlace)
  | tupleOf {ts items} : Opens host (.tupleOf ts) (.tuple items)
      ((ts.zip items).map fun p => p.1.toPlace p.2)
  | struct {name v} : Opens host (.struct name) v []

/-- What is reported of places in pre-order: of each of them first what is reported of itself, and
then of the places inside its value. -/
inductive Preorder (host : Host) : List Place → List Event → Prop where
  | nil : Preorder host [] []
  | cons {p ps inside below later} : p.type.Opens host p.value inside → Preorder host inside below →
      Preorder host ps later → Preorder host (p :: ps) (p.reports ++ below ++ later)

def OptionType.Lists (host : Host) (t : OptionType) (v : Value) (reports : List Event) : Prop :=
  ∃ places, t.Opens host v places ∧ Preorder host places reports

def Schema.Lists (host : Host) (s : Schema) (v : Value) (reports : List Event) : Prop :=
  ∃ places, s.Opens host v places ∧ Preorder host places reports

def OptionType.NoUnion (t : OptionType) : Prop := ∀ ts, t ≠ .union ts

variable {host : Host}

theorem Schema.Opens.unique {s : Schema} {v : Value} {places places' : List Place}
    (h : s.Opens host v places) (h' : s.Opens host v places') : places = places' := by
  obtain ⟨hes, ho⟩ := h
  obtain ⟨hes', ho'⟩ := h'
  rw [hes.unique hes', Option.some.inj (ho.symm.trans ho')]

theorem OptionType.Opens.unique {t : OptionType} {v : Value} {places places' : List Place}
    (h : t.Opens host v places) (h' : t.Opens host v places') : places = places' := by
  cases h with
  | options ht hs =>
    cases h' with
    | options ht' hs' =>
      cases ht.symm.trans ht'
      exact hs.unique hs'
    | _ => cases ht
  | listOf hitems =>
    cases h' with
    | listOf hitems' => rw [Option.some.inj (hitems.symm.trans hitems')]
    | options ht' => cases ht'
  | _ =>
    cases h' with
    | options ht' => cases ht'
    | _ => rfl

theorem Preorder.unique {places : List Place} {reports reports' : List Event}
    (h : Preorder host places reports) (h' : Preorder host places reports') :
    reports = reports' := by
  induction h generalizing reports' with
  | nil =>
    cases h'
    rfl
  | cons hopens _ _ ihbelow ihlater =>
    cases h' with
    | cons hopens' hbelow' hlater' =>
      cases hopens.unique hopens'
      rw [ihbelow hbelow', ihlater hlater']

theorem Schema.Lists.unique {s : Schema} {v : Value} {reports reports' : List Event}
    (h : s.Lists host v reports) (h' : s.Lists host v reports') : reports = reports' := by
  obtain ⟨places, hopens, hreports⟩ := h
  obtain ⟨places', hopens', hreports'⟩ := h'
  cases hopens.unique hopens'
  exact hreports.unique hreports'

namespace Preorder

theorem append {places places' : List Place} {reports reports' : List Event}
    (h : Preorder host places reports) (h' : Preorder host places' reports') :
    Preorder host (places ++ places') (reports ++ reports') := by
  induction h with
  | nil => exact h'
  | cons hopens hbelow _ _ ih =>
    rw [List.append_assoc]
    exact .cons hopens hbelow ih

theorem single {p : Place} {reports : List Event} (h : p.type.Lists host p.value reports) :
    Preorder host [p] (p.reports ++ reports) := by
  obtain ⟨inside, hopens, hreports⟩ := h
  simpa using cons hopens hreports nil

theorem element {t : OptionType} {v : Value} {reports : List Event} (h : t.Lists host v reports) :
    Preorder host [t.toPlace v] reports :=
  single (p := t.toPlace v) h

/-- A traversal reports of the places of all its elements, in order. -/
theorem of_mapM {α β : Type} {f : α → Run β} {as : List α} {bs : List β} {places : α → List Place}
    (h : (as.mapM f).result = .ok bs)
    (hf : ∀ a ∈ as, ∀ b, (f a).result = .ok b → Preorder host (places a) (f a).deprecations) :
    Preorder host (as.flatMap places) (as.mapM f).deprecations := by
  rw [deprecations_mapM h]
  rw [mapM_eq_ok] at h
  induction h with
  | nil => exact nil
  | cons ha _ ih =>
    rw [List.flatMap_cons, List.flatMap_cons]
    exact (hf _ (by simp) _ ha).append (ih fun a ha => hf a (List.mem_cons_of_mem _ ha))

theorem of_mapM_zipIdx {α β : Type} {f : α × Nat → Run β} {as : List α} {bs : List β}
    {place : α → Place} (h : (as.zipIdx.mapM f).result = .ok bs)
    (hf : ∀ a ∈ as.zipIdx, ∀ b, (f a).result = .ok b →
      Preorder host [place a.1] (f a).deprecations) :
    Preorder host (as.map place) (as.zipIdx.mapM f).deprecations := by
  have hplaces : as.map place = as.zipIdx.flatMap fun a => [place a.1] := by
    rw [← List.map_eq_flatMap, show (fun a : α × Nat => place a.1) = place ∘ Prod.fst from rfl,
      ← List.map_map, List.zipIdx_map_fst]
  rw [hplaces]
  exact of_mapM h hf

end Preorder

section

variable {acceptance : Acceptance} {redact : Bool}

/-- An option with a value is reported if it is deprecated, and then what is inside its value. -/
theorem OptionSpec.preorder_acceptValue {spec : OptionSpec} {key v w : Value}
    (hlists : ∀ label cx w, (acceptance spec.effectiveType label v cx).result = .ok w →
      spec.effectiveType.Lists host v (acceptance spec.effectiveType label v cx).deprecations)
    (h : (spec.acceptValue acceptance redact key v).result = .ok w) :
    Preorder host [spec.toPlace key v] (spec.acceptValue acceptance redact key v).deprecations := by
  have hannounce : (spec.announce key).result = .ok () ∧
      (spec.announce key).deprecations = spec.reports key := by
    unfold announce reports
    cases spec.deprecation? <;> exact ⟨rfl, rfl⟩
  rw [result_acceptValue] at h
  unfold acceptValue
  rw [deprecations_bind_of_ok hannounce.1, hannounce.2]
  exact .single (p := spec.toPlace key v) (hlists _ _ w h)

/-- A settled option is a place if it has a value. -/
theorem OptionSpec.preorder_settle {spec : OptionSpec} {key : Value} {received : List Value}
    {v? w? : Option Value}
    (hlists : ∀ label v cx w, (acceptance spec.effectiveType label v cx).result = .ok w →
      spec.effectiveType.Lists host v (acceptance spec.effectiveType label v cx).deprecations)
    (h : (spec.settle acceptance redact key received v?).result = .ok w?) :
    Preorder host ((v?.or spec.default?).map (spec.toPlace key)).toList
      (spec.settle acceptance redact key received v?).deprecations := by
  have hvalue : ∀ v, (some <$> spec.acceptValue acceptance redact key v).result = .ok w? →
      Preorder host [spec.toPlace key v]
        (some <$> spec.acceptValue acceptance redact key v).deprecations := by
    intro v hv
    obtain ⟨w, hw, -⟩ := map_eq_ok.1 hv
    rw [deprecations_map]
    exact preorder_acceptValue (fun label cx => hlists label v cx) hw
  unfold settle at h ⊢
  cases v? with
  | some v => exact hvalue v h
  | none =>
    cases hrequired : spec.required with
    | true => simp [hrequired] at h
    | false =>
      simp only [hrequired, Bool.false_eq_true, if_false] at h ⊢
      cases hdefault : spec.default? with
      | none => exact .nil
      | some v =>
        rw [hdefault] at h
        exact hvalue v h

theorem Options.preorder_settleAll {ps kvs : List (Value × Value)}
    {declared : List (Value × OptionSpec)} {received : List Value}
    (hlists : ∀ d ∈ declared, ∀ label v cx w,
      (acceptance d.2.effectiveType label v cx).result = .ok w →
      d.2.effectiveType.Lists host v (acceptance d.2.effectiveType label v cx).deprecations)
    (h : (settleAll acceptance redact ps received declared).result = .ok kvs) :
    Preorder host (declared.filterMap (place? ps))
      (settleAll acceptance redact ps received declared).deprecations := by
  induction declared generalizing received kvs with
  | nil => exact .nil
  | cons d declared ih =>
    obtain ⟨key, spec⟩ := d
    have hrest : ∀ received' kvs',
        (settleAll acceptance redact ps received' declared).result = .ok kvs' →
          Preorder host (declared.filterMap (place? ps))
            (settleAll acceptance redact ps received' declared).deprecations :=
      fun received' kvs' => ih fun d hd => hlists d (List.mem_cons_of_mem _ hd)
    have hcons : ((key, spec) :: declared).filterMap (place? ps) =
        (place? ps (key, spec)).toList ++ declared.filterMap (place? ps) := by
      rw [List.filterMap_cons]
      cases place? ps (key, spec) <;> rfl
    rw [settleAll] at h ⊢
    obtain ⟨w?, hw, h⟩ := bind_eq_ok.1 h
    have hfirst := OptionSpec.preorder_settle (hlists (key, spec) (by simp)) hw
    rw [hcons, deprecations_bind_of_ok hw]
    refine hfirst.append ?_
    cases w? with
    | none => exact hrest _ _ h
    | some w =>
      obtain ⟨kvs', hkvs, -⟩ := map_eq_ok.1 h
      rw [deprecations_map]
      exact hrest _ _ hkvs

end

/-- A type in schemas whose keys are pairwise different and where nothing is renamed, and without
unions. -/
abbrev OptionType.Linear (host : Host) : OptionType → Prop := Everywhere host Entry.Regular NoUnion

/-- The keys are pairwise different and nothing is renamed at any level, and there is no union. -/
abbrev Schema.Linear (host : Host) : Schema → Prop :=
  Everywhere host Entry.Regular OptionType.NoUnion

theorem Schema.Linear.effectiveType {s : Schema} {es : List Entry} (h : s.Linear host)
    (hes : s.Resolves host es) {e : Entry} (he : e ∈ es) : e.spec.effectiveType.Linear host := by
  refine Everywhere.effectiveType h hes he ?_ ?_
  · rintro t b u ht ts rfl
    cases ht
  · intro t ts ht
    cases ht

section

variable {fuel : Nat}
  (htype : ∀ t : OptionType, t.Linear host → ∀ label v cx w,
    (t.accept host fuel label v cx).result = .ok w →
    t.Lists host v (t.accept host fuel label v cx).deprecations)
  (hschema : ∀ s : Schema, s.Linear host → ∀ v redact n,
    (s.accept host fuel v redact).result = .ok n →
    s.Lists host v (s.accept host fuel v redact).deprecations)

include htype in
theorem Schema.lists_accept_succ {s : Schema} (hs : s.Linear host) {v n : Value} {redact : Bool}
    (h : (s.accept host (fuel + 1) v redact).result = .ok n) :
    s.Lists host v (s.accept host (fuel + 1) v redact).deprecations := by
  rw [accept_succ] at h ⊢
  cases ho : Options.ofValue? v with
  | none =>
    rw [ho] at h
    cases h
  | some o =>
    rw [ho] at h
    obtain ⟨es, hes, h⟩ := bind_eq_ok.1 h
    have hresolves := resolves_of_resolve? (ofOption_eq_ok.1 hes)
    have hregular := hs.entries hresolves
    obtain ⟨hknown, -⟩ := (Options.accept_eq_ok hregular).1 h
    dsimp only
    rw [deprecations_bind_of_ok hes, deprecations_ofOption, List.nil_append]
    rw [Options.accept_of_known hregular hknown] at h ⊢
    obtain ⟨kvs, hkvs, -⟩ := map_eq_ok.1 h
    have hplace : Options.place? o.firsts = Options.place? o.pairs := by
      funext d
      rw [Options.place?, Options.place?, Options.find?_firsts]
    refine ⟨_, .options hresolves ho, ?_⟩
    rw [deprecations_map, Options.places, ← Options.expand_eq_considered, hplace]
    refine Options.preorder_settleAll (fun d hd label v cx w hw => ?_) hkvs
    obtain ⟨e, he, hspec⟩ := Entry.spec_of_mem_expand (Pairs.pairwise_keys _) hd
    rw [← hspec] at hw ⊢
    exact htype _ (hs.effectiveType hresolves he) label v cx w hw

include hschema in
theorem OptionType.lists_accept_container {t : OptionType} (ht : t.Linear host) {b : BasicType}
    {s : Schema} (hcontainer : t.container? = some (b, s)) {label : Label} {v w : Value}
    {cx : Context} (h : (t.accept host (fuel + 1) label v cx).result = .ok w) :
    t.Lists host v (t.accept host (fuel + 1) label v cx).deprecations := by
  rw [accept_container _ _ _ _ _ hcontainer] at h ⊢
  cases hoptions : b.accept? v with
  | none =>
    rw [hoptions] at h
    cases h
  | some options =>
    rw [hoptions] at h
    dsimp only at h ⊢
    rw [accept_options hcontainer hoptions] at h ⊢
    rw [mapRejection_eq_ok] at h
    rw [deprecations_mapRejection]
    obtain ⟨places, hopens, hreports⟩ := hschema s (ht.container hcontainer) v cx.redact w h
    exact ⟨places, .options hcontainer hopens, hreports⟩

include htype hschema in
theorem OptionType.lists_accept_succ {t : OptionType} (ht : t.Linear host) {label : Label}
    {v w : Value} {cx : Context} (h : (t.accept host (fuel + 1) label v cx).result = .ok w) :
    t.Lists host v (t.accept host (fuel + 1) label v cx).deprecations := by
  -- The elements of a container are places, and what is reported of them is reported from inside.
  have helement : ∀ u : OptionType, u.Linear host → ∀ label item f w,
      ((u.accept host fuel label item cx).mapRejection f).result = .ok w →
      Preorder host [u.toPlace item]
        ((u.accept host fuel label item cx).mapRejection f).deprecations := by
    intro u hu label item f w hw
    rw [mapRejection_eq_ok] at hw
    rw [deprecations_mapRejection]
    exact .element (htype u hu label item cx w hw)
  have hleaf : t.schemas = [] →
      Preorder host [] (t.accept host (fuel + 1) label v cx).deprecations := by
    intro hschemas
    rw [quiet_accept_of_schemas hschemas (fuel + 1) label v cx]
    exact .nil
  cases t with
  | basic b => exact ⟨[], .basic, hleaf rfl⟩
  | function arity => exact ⟨[], .function, hleaf rfl⟩
  | oneOf choices => exact ⟨[], .oneOf, hleaf rfl⟩
  | custom f args => exact ⟨[], .custom, hleaf rfl⟩
  | struct name => exact ⟨[], .struct, hleaf rfl⟩
  | union ts => exact absurd rfl (ht.self ts)
  | keywordListOf s | nonEmptyKeywordListOf s | mapOfKeys s =>
    exact lists_accept_container hschema ht rfl h
  | mapOf keyType valueType =>
    rw [accept_mapOf] at h ⊢
    split at h
    next pairs =>
      obtain ⟨accepted, haccepted, -⟩ := bind_eq_ok.1 h
      refine ⟨_, .mapOf, ?_⟩
      rw [bind_pure_comp, deprecations_map]
      refine .of_mapM haccepted fun pair _ pair' hpair => ?_
      obtain ⟨key, hkey, hpair⟩ := bind_eq_ok.1 hpair
      obtain ⟨item, hitem, -⟩ := bind_eq_ok.1 hpair
      rw [deprecations_bind_of_ok hkey, bind_pure_comp, deprecations_map]
      refine Preorder.append (helement keyType (ht.part fun w hw => .mapKey hw) _ _ _ _ hkey) ?_
      exact helement valueType (ht.part fun w hw => .mapValue hw) _ _ _ _ hitem
    next => cases h
  | listOf u =>
    rw [accept_listOf] at h ⊢
    cases hitems : v.asList? with
    | none =>
      rw [hitems] at h
      cases h
    | some items =>
      rw [hitems] at h
      obtain ⟨accepted, haccepted, -⟩ := bind_eq_ok.1 h
      refine ⟨_, .listOf hitems, ?_⟩
      dsimp only
      rw [bind_pure_comp, deprecations_map]
      refine .of_mapM_zipIdx haccepted fun item _ item' hitem => ?_
      exact helement u (ht.part fun w hw => .listElement hw) _ _ _ _ hitem
  | tupleOf ts =>
    rw [accept_tupleOf] at h ⊢
    split at h
    next items =>
      by_cases hlength : items.length = ts.length
      · rw [if_pos hlength] at h
        obtain ⟨accepted, haccepted, -⟩ := bind_eq_ok.1 h
        refine ⟨_, .tupleOf, ?_⟩
        rw [if_pos hlength, bind_pure_comp, deprecations_map]
        refine .of_mapM_zipIdx haccepted fun item hmem item' hitem => ?_
        have hu : item.1.1 ∈ ts := (List.of_mem_zip (List.fst_mem_of_mem_zipIdx hmem)).1
        exact helement _ (ht.part fun w hw => .tupleElement hu hw) _ _ _ _ hitem
      · rw [if_neg hlength] at h
        cases h
    next => cases h

end

/-- Acceptance by types and by schemas are defined by one recursion, so their reports are listed
together. -/
theorem accept_lists (host : Host) (fuel : Nat) :
    (∀ t : OptionType, t.Linear host → ∀ label v cx w,
      (t.accept host fuel label v cx).result = .ok w →
      t.Lists host v (t.accept host fuel label v cx).deprecations) ∧
    ∀ s : Schema, s.Linear host → ∀ v redact n,
      (s.accept host fuel v redact).result = .ok n →
      s.Lists host v (s.accept host fuel v redact).deprecations := by
  induction fuel with
  | zero =>
    refine ⟨fun t _ label v cx w h => ?_, fun s _ v redact n h => ?_⟩
    · rw [OptionType.accept_zero] at h
      cases h
    · rw [Schema.accept_zero] at h
      cases h
  | succ fuel ih =>
    obtain ⟨htype, hschema⟩ := ih
    refine ⟨fun t ht label v cx w h => ?_, fun s hs v redact n h => ?_⟩
    · exact OptionType.lists_accept_succ htype hschema ht h
    · exact Schema.lists_accept_succ htype hs h

/-- Where keys are pairwise different, nothing is renamed and there is no union, at any level, the
deprecated options that are reported for options that validate are exactly those of the list in
pre-order: the ones that are given or filled in, in the order in which options are considered, each
before those inside its value. The check of the schema reports nothing. -/
theorem Schema.lists_iff_deprecations {fuel : Nat} {s : Schema} {v n : Value}
    (hs : s.Linear host) (h : (validate host fuel s v).result = .ok n) (reports : List Event) :
    s.Lists host v reports ↔ reports = (validate host fuel s v).deprecations := by
  unfold validate at h ⊢
  obtain ⟨c, hcompile, h⟩ := bind_eq_ok.1 h
  obtain ⟨rfl, -, -⟩ := compile_eq_ok.1 hcompile
  have hlists : s.Lists host v (s.accept host fuel v false).deprecations :=
    (accept_lists host fuel).2 s hs v false n h
  rw [deprecations_bind_of_ok hcompile, quiet_compile host fuel s, List.nil_append]
  constructor
  · exact fun hreports => hreports.unique hlists
  · rintro rfl
    exact hlists

/-- A cluster has nodes, which are clusters again. All options are deprecated. -/
def clusterEntries : List Entry := [
  ⟨.atom "name", {
    type := .basic .string
    default? := some (.string "main")
    deprecation? := some "use :title" }⟩,
  ⟨.atom "nodes", {
    type := .listOf (.keywordListOf (.deferred ⟨.function "cluster", 0⟩))
    deprecation? := some "use :peers" }⟩,
  ⟨.wildcard, { type := .basic .any, deprecation? := some "it has no effect" }⟩]

def clusterHost : Host where
  call _ _ := .nil
  produce _ := .entries clusterEntries

def cluster : Value :=
  .keyword [("zone", .integer 1), ("nodes", .list [
    .keyword [("name", .string "first")],
    .keyword [("nodes", .list [])]])]

theorem clusterEntries_linear : (Schema.entries clusterEntries).Linear clusterHost := by
  let listed : List (Schema × List Entry) := [
    (.entries clusterEntries, clusterEntries),
    (.deferred ⟨.function "cluster", 0⟩, clusterEntries)]
  let plain (es : List Entry) : Prop :=
    Entry.Regular es ∧ ∀ e ∈ es, ∀ u ∈ e.spec.type.parts, u.NoUnion
  have hplain : plain clusterEntries := by
    refine ⟨⟨by simp [Entry.DistinctKeys, clusterEntries], by simp [clusterEntries]⟩, ?_⟩
    simp [clusterEntries, OptionType.parts, OptionType.NoUnion]
  have hschemas : ∀ u ∈ clusterEntries.flatMap fun e => e.spec.schemas, ∃ y ∈ listed, y.1 = u := by
    simp [listed, clusterEntries, OptionSpec.schemas]
  have heverywhere :
      (Schema.entries clusterEntries).Everywhere clusterHost plain fun _ => True := by
    refine .of_listed listed ?_ ⟨_, .head _, rfl⟩ ?_ <;>
      simp only [listed, List.forall_mem_cons, List.not_mem_nil, false_implies, implies_true,
        and_true]
    · exact ⟨⟨.entries _, hschemas⟩, .deferred (.entries _), hschemas⟩
    · exact ⟨hplain, hplain⟩
  intro t es ht hes
  obtain ⟨⟨hregular, htypes⟩, -⟩ := heverywhere t es ht hes
  exact ⟨hregular, fun e he u hu => htypes e he u hu.mem_parts⟩

/-- The name is filled in first, and the wildcard comes last. -/
theorem clusterEntries_lists :
    (Schema.entries clusterEntries).Linear clusterHost ∧
    (∃ n, (validate clusterHost 60 (.entries clusterEntries) cluster).result = .ok n) ∧
    (Schema.entries clusterEntries).Lists clusterHost cluster [
      .deprecated (.atom "name") "use :title",
      .deprecated (.atom "nodes") "use :peers",
      .deprecated (.atom "name") "use :title",
      .deprecated (.atom "name") "use :title",
      .deprecated (.atom "nodes") "use :peers",
      .deprecated (.atom "zone") "it has no effect"] := by
  have hresult : (validate clusterHost 60 (.entries clusterEntries) cluster).result =
      .ok (.keyword [("zone", .integer 1), ("nodes", .list [
        .keyword [("name", .string "first")],
        .keyword [("nodes", .list []), ("name", .string "main")]]),
        ("name", .string "main")]) := by
    with_unfolding_all rfl
  refine ⟨clusterEntries_linear, ⟨_, hresult⟩, ?_⟩
  refine (Schema.lists_iff_deprecations clusterEntries_linear hresult _).2 ?_
  with_unfolding_all rfl

end Conform
