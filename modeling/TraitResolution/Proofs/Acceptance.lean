import Mathlib.Data.List.Nodup
import TraitResolution.Proofs.CatalogueSafety

/-!
# Documents that compile

When a document is well-formed, said about its texts alone: ids and names that must differ, texts
that spell a type or a trait reference in the scope of their declaration, and references to traits
with the right number of arguments. A document compiles exactly if it is well-formed. Its catalogue
is then closed: impls are written with their own type parameters, the bounds on a parameter are
about that parameter, obligations and receivers have no type parameters, and every reference agrees
with its trait.

## Implementation notes

What an entry stands for depends on the traits of the catalogue, while its well-formedness depends
on their ids and numbers of parameters only. Both agree as soon as no id is declared twice.
-/

namespace TraitResolution.Catalogue

open TypeExpr Compilation

/-- The text is a type. -/
def IsType (scope : Scope) (source : Text) : Prop :=
  ∃ e : Expr, Spells source e.sentence ∧ e.Fits scope

/-- The text is a trait reference with `for` and a self type. The traits are given by their ids and
numbers of parameters. -/
def IsReference (scope : Scope) (traits : List (Text × Nat)) (source : Text) : Prop :=
  ∃ x : ReferenceExpr, Spells source x.sentence ∧ x.Fits scope ∧
    (Text.ofString x.trait.id, x.trait.args.length) ∈ traits

/-- The text is a trait with its arguments, without `for`. -/
def IsBound (scope : Scope) (traits : List (Text × Nat)) (source : Text) : Prop :=
  ∃ x : TraitExpr, Spells source x.sentence ∧ x.Fits scope ∧
    (Text.ofString x.id, x.args.length) ∈ traits

/-- The names of a trait differ, its functional dependencies are one for each of them if they are
given, and its methods have different ids and self types in which those names may stand. -/
structure TraitEntry.WellFormed (e : TraitEntry) : Prop where
  names : e.names.Nodup
  fundeps : ∀ fundeps, e.fundeps = some fundeps → fundeps.length = (e.params.getD []).length + 1
  methodIds : ((e.methods.getD []).map (·.id)).Nodup
  methods : ∀ m ∈ e.methods.getD [], IsType ⟨e.names, false⟩ m.self

/-- The names of an impl differ, and may stand in its trait reference and its bounds. -/
structure ImplEntry.WellFormed (traits : List (Text × Nat)) (e : ImplEntry) : Prop where
  names : e.names.Nodup
  trait : IsReference ⟨e.names, false⟩ traits e.trait
  bounds : ∀ p ∈ e.params.getD [], ∀ b ∈ p.bounds.getD [], IsBound ⟨e.names, false⟩ traits b

/-- The ids of the traits that a document can refer to, with their numbers of parameters. -/
def Document.signatures (d : Document) : List (Text × Nat) :=
  ("Deref", 1) :: ("DerefMut", 1) ::
    (d.traits.getD []).map fun e => (e.id, (e.params.getD []).length)

/-- Every declaration of a document makes sense, and none takes the id of another one. -/
structure Document.WellFormed (d : Document) : Prop where
  traitIds : ((d.traits.getD []).map (·.id)).Nodup
  notBuiltin : ∀ e ∈ d.traits.getD [], e.id ≠ "Deref" ∧ e.id ≠ "DerefMut"
  traits : ∀ e ∈ d.traits.getD [], e.WellFormed
  implIds : ((d.impls.getD []).map (·.id)).Nodup
  impls : ∀ e ∈ d.impls.getD [], e.WellFormed d.signatures
  obligationIds : ((d.obligations.getD []).map (·.id)).Nodup
  obligations : ∀ e ∈ d.obligations.getD [], IsReference ⟨[], true⟩ d.signatures e.trait
  receivers : ∀ e ∈ d.methods.getD [], IsType ⟨[], true⟩ e.receiver
  inScope : ∀ e ∈ d.methods.getD [], ∀ id ∈ e.traits.getD [], id ∈ d.signatures.map (·.1)

variable {d : Document} {c : Catalogue} {traits new : List Trait} {scope : Scope}
  {vars : List String} {source : Text}

section Entries

theorem exists_denotes_iff (vars : List String) :
    (∃ t, Denotes scope vars source t) ↔ IsType scope source := by
  constructor
  · rintro ⟨t, e, hspells, hfits, -⟩
    exact ⟨e, hspells, hfits⟩
  · rintro ⟨e, hspells, hfits⟩
    exact ⟨_, e, hspells, hfits, rfl⟩

/-- The ids and numbers of parameters of traits. -/
def headings (traits : List Trait) : List (Text × Nat) :=
  traits.map fun t => (t.id, t.arity)

/-- If no id is declared twice, the trait found is the one with that id. -/
theorem traitNamed?_eq_some_iff (hids : (traits.map (·.id)).Nodup) {id : Text} {t : Trait} :
    traitNamed? traits id = some t ↔ t ∈ traits ∧ t.id = id := by
  constructor
  · intro h
    exact ⟨List.mem_of_find?_eq_some h, by simpa using List.find?_some h⟩
  · rintro ⟨ht, rfl⟩
    obtain ⟨found, hfound⟩ := Option.isSome_iff_exists.mp
      (traitNamed?_isSome_iff.mpr (List.mem_map_of_mem ht))
    have hid : found.id = t.id := by simpa using List.find?_some hfound
    rw [hfound, List.inj_on_of_nodup_map hids (List.mem_of_find?_eq_some hfound) ht hid]

theorem refers_iff (hids : (traits.map (·.id)).Nodup) {r : Reference} :
    Refers traits r ↔ (r.id, r.params.length) ∈ headings traits := by
  simp only [Refers, traitNamed?_eq_some_iff hids, headings, List.mem_map, Prod.mk.injEq, and_assoc,
    eq_comm]

theorem exists_denotesReference_iff (hids : (traits.map (·.id)).Nodup) (vars : List String) :
    (∃ r, DenotesReference scope vars source r ∧ Refers traits r) ↔
      IsReference scope (headings traits) source := by
  simp only [refers_iff hids]
  constructor
  · rintro ⟨_, ⟨x, hspells, hfits, rfl⟩, hrefers⟩
    refine ⟨x, hspells, hfits, ?_⟩
    simpa [ReferenceExpr.reference, TraitExpr.reference] using hrefers
  · rintro ⟨x, hspells, hfits, hrefers⟩
    refine ⟨_, ⟨x, hspells, hfits, rfl⟩, ?_⟩
    simpa [ReferenceExpr.reference, TraitExpr.reference] using hrefers

theorem exists_denotesBound_iff (hids : (traits.map (·.id)).Nodup) {self : Ty} :
    (∃ r, DenotesBound scope self source r ∧ Refers traits r) ↔
      IsBound scope (headings traits) source := by
  simp only [refers_iff hids]
  constructor
  · rintro ⟨_, ⟨x, hspells, hfits, rfl⟩, hrefers⟩
    refine ⟨x, hspells, hfits, ?_⟩
    simpa [TraitExpr.reference] using hrefers
  · rintro ⟨x, hspells, hfits, hrefers⟩
    refine ⟨_, ⟨x, hspells, hfits, rfl⟩, ?_⟩
    simpa [TraitExpr.reference] using hrefers

theorem TraitEntry.StandsFor.arity_eq {e : TraitEntry} {t : Trait} (h : e.StandsFor t) :
    t.arity = (e.params.getD []).length := by
  rw [Trait.arity, h.length_fundeps, TraitEntry.names]
  rfl

theorem TraitEntry.exists_standsFor_iff {e : TraitEntry} :
    (∃ t, e.StandsFor t) ↔ e.WellFormed := by
  have hmethods : (∃ ms, List.Forall₂ (MethodEntry.StandsFor e.names) (e.methods.getD []) ms) ↔
      ∀ m ∈ e.methods.getD [], IsType ⟨e.names, false⟩ m.self := by
    rw [exists_forall₂_iff]
    refine forall₂_congr fun m _ => ?_
    rw [← exists_denotes_iff []]
    constructor
    · rintro ⟨_, h⟩
      exact ⟨_, h.selfType⟩
    · rintro ⟨t, h⟩
      exact ⟨⟨m.id, t⟩, rfl, h⟩
  constructor
  · rintro ⟨t, h⟩
    refine ⟨h.names_nodup, fun fundeps heq => ?_, h.methodIds, hmethods.mp ⟨_, h.methods⟩⟩
    have hlen := h.length_fundeps
    rw [h.fundeps, heq] at hlen
    exact hlen
  · intro h
    obtain ⟨ms, hms⟩ := hmethods.mpr h.methods
    refine ⟨⟨e.id, e.fundeps.getD (e.names.map fun _ => false), ms⟩, rfl, h.names, rfl, ?_,
      h.methodIds, hms⟩
    cases hfundeps : e.fundeps with
    | none => simp
    | some fundeps => exact h.fundeps fundeps hfundeps

theorem ParamEntry.exists_standsFor_iff (hids : (traits.map (·.id)).Nodup) {names : List Text}
    {p : Nat × ParamEntry} :
    (∃ rs, ParamEntry.StandsFor traits names p rs) ↔
      ∀ b ∈ p.2.bounds.getD [], IsBound ⟨names, false⟩ (headings traits) b := by
  simp only [ParamEntry.StandsFor, exists_forall₂_iff, exists_denotesBound_iff hids]

theorem ImplEntry.exists_standsFor_iff (hids : (traits.map (·.id)).Nodup) {e : ImplEntry} :
    (∃ i, e.StandsFor traits i) ↔ e.WellFormed (headings traits) := by
  have hbounds : (∃ bss, List.Forall₂ (ParamEntry.StandsFor traits e.names)
        ((e.params.getD []).mapIdx fun k p => (k, p)) bss) ↔
      ∀ p ∈ e.params.getD [], ∀ b ∈ p.bounds.getD [],
        IsBound ⟨e.names, false⟩ (headings traits) b := by
    rw [exists_forall₂_iff]
    simp only [ParamEntry.exists_standsFor_iff hids]
    constructor
    · intro h p hp
      obtain ⟨k, hk, rfl⟩ := List.getElem_of_mem hp
      exact h (k, _) (List.mem_mapIdx.mpr ⟨k, hk, rfl⟩)
    · intro h p hp
      obtain ⟨k, hk, rfl⟩ := List.mem_mapIdx.mp hp
      exact h _ (List.getElem_mem hk)
  constructor
  · rintro ⟨i, h⟩
    exact ⟨h.names_nodup, (exists_denotesReference_iff hids []).mp ⟨_, h.trait⟩,
      hbounds.mp ⟨_, h.bounds⟩⟩
  · intro h
    obtain ⟨r, hr⟩ := (exists_denotesReference_iff hids []).mpr h.trait
    obtain ⟨bss, hbss⟩ := hbounds.mpr h.bounds
    exact ⟨⟨e.id, bss, r⟩, rfl, h.names, hr, hbss⟩

theorem ObligationEntry.exists_standsFor_iff (hids : (traits.map (·.id)).Nodup)
    (vars : List String) {e : ObligationEntry} :
    (∃ o, e.StandsFor traits vars o) ↔ IsReference ⟨[], true⟩ (headings traits) e.trait := by
  rw [← exists_denotesReference_iff hids vars]
  constructor
  · rintro ⟨_, h⟩
    exact ⟨_, h.trait⟩
  · rintro ⟨r, h⟩
    exact ⟨⟨e.id, r, 0⟩, rfl, rfl, h⟩

theorem QueryEntry.exists_standsFor_iff (vars : List String) {e : QueryEntry} :
    (∃ q, e.StandsFor traits vars q) ↔ IsType ⟨[], true⟩ e.receiver ∧
      ∀ id ∈ e.traits.getD [], id ∈ traits.map (·.id) := by
  have htraits : (∃ ts, List.Forall₂ (fun id t => traitNamed? traits id = some t)
      (e.traits.getD []) ts) ↔ ∀ id ∈ e.traits.getD [], id ∈ traits.map (·.id) := by
    simp only [exists_forall₂_iff, ← traitNamed?_isSome_iff, Option.isSome_iff_exists]
  rw [← exists_denotes_iff vars, ← htraits]
  constructor
  · rintro ⟨q, h⟩
    exact ⟨⟨_, h.receiver⟩, _, h.traits⟩
  · rintro ⟨⟨t, ht⟩, ts, hts⟩
    exact ⟨⟨queryId e, t, e.method, ts⟩, rfl, ht, rfl, hts⟩

end Entries

section Documents

variable {es : List TraitEntry}

theorem headings_of_standsFor (h : List.Forall₂ TraitEntry.StandsFor es new) :
    headings new = es.map fun e => (e.id, (e.params.getD []).length) :=
  map_eq_map_of_forall₂ (fun _ _ ht => Prod.ext ht.id ht.arity_eq) h

theorem ids_of_standsFor (h : List.Forall₂ TraitEntry.StandsFor es new) :
    new.map (·.id) = es.map (·.id) :=
  map_eq_map_of_forall₂ (fun _ _ ht => ht.id) h

theorem headings_append (h : List.Forall₂ TraitEntry.StandsFor (d.traits.getD []) new) :
    headings (builtinTraits ++ new) = d.signatures := by
  have hbuiltin : headings builtinTraits = [(("Deref" : Text), 1), ("DerefMut", 1)] := rfl
  rw [headings, List.map_append, ← headings, ← headings, hbuiltin, headings_of_standsFor h]
  rfl

theorem ids_append (h : List.Forall₂ TraitEntry.StandsFor (d.traits.getD []) new) :
    (builtinTraits ++ new).map (·.id) = d.signatures.map (·.1) := by
  rw [← headings_append h, headings, List.map_map]
  rfl

theorem unused_builtin_iff : Unused (builtinTraits.map (·.id)) (es.map (·.id)) ↔
    (es.map (·.id)).Nodup ∧ ∀ e ∈ es, e.id ≠ "Deref" ∧ e.id ≠ "DerefMut" := by
  have hbuiltin : builtinTraits.map (·.id) = ["Deref", "DerefMut"] := rfl
  rw [Unused, hbuiltin]
  simp

/-- No id is declared twice among the traits of a catalogue. -/
theorem nodup_ids (hids : Unused (builtinTraits.map (·.id)) (es.map (·.id)))
    (h : List.Forall₂ TraitEntry.StandsFor es new) :
    ((builtinTraits ++ new).map (·.id)).Nodup := by
  have hbuiltin : (builtinTraits.map (·.id)).Nodup := by decide
  rw [List.map_append, ids_of_standsFor h, List.nodup_append]
  exact ⟨hbuiltin, hids.1, fun id hid other hother heq => hids.2 other hother (heq ▸ hid)⟩

theorem Document.Describes.wellFormed (h : d.Describes c) : d.WellFormed := by
  obtain ⟨new, htraits, hnew⟩ := h.traits
  have hids := nodup_ids h.traitIds hnew
  have hheadings := headings_append hnew
  have hinScope := ids_append hnew
  rw [← htraits] at hids hheadings hinScope
  obtain ⟨htraitIds, hbuiltin⟩ := unused_builtin_iff.mp h.traitIds
  have hqueries := exists_forall₂_iff.mp ⟨_, h.queries⟩
  simp only [QueryEntry.exists_standsFor_iff, hinScope] at hqueries
  refine ⟨htraitIds, hbuiltin, fun e he => ?_, h.implIds, fun e he => ?_, h.obligationIds,
    fun e he => ?_, fun e he => (hqueries e he).1, fun e he => (hqueries e he).2⟩
  · exact TraitEntry.exists_standsFor_iff.mp (exists_forall₂_iff.mp ⟨_, hnew⟩ e he)
  · rw [← hheadings, ← ImplEntry.exists_standsFor_iff hids]
    exact exists_forall₂_iff.mp ⟨_, h.impls⟩ e he
  · rw [← hheadings, ← ObligationEntry.exists_standsFor_iff hids c.vars]
    exact exists_forall₂_iff.mp ⟨_, h.obligations⟩ e he

theorem Document.WellFormed.exists_describes (h : d.WellFormed) : ∃ c, d.Describes c := by
  obtain ⟨new, hnew⟩ := exists_forall₂_iff.mpr fun e he =>
    TraitEntry.exists_standsFor_iff.mpr (h.traits e he)
  have hunused := unused_builtin_iff.mpr ⟨h.traitIds, h.notBuiltin⟩
  have hids := nodup_ids hunused hnew
  have hheadings := headings_append hnew
  obtain ⟨is, his⟩ := exists_forall₂_iff.mpr fun e he =>
    (ImplEntry.exists_standsFor_iff hids).mpr (hheadings ▸ h.impls e he)
  obtain ⟨os, hos⟩ := exists_forall₂_iff.mpr fun e he =>
    (ObligationEntry.exists_standsFor_iff hids (seen [] d.unknowns)).mpr
      (hheadings ▸ h.obligations e he)
  obtain ⟨qs, hqs⟩ := exists_forall₂_iff.mpr fun e he =>
    (QueryEntry.exists_standsFor_iff (seen [] d.unknowns)).mpr
      ⟨h.receivers e he, ids_append hnew ▸ h.inScope e he⟩
  exact ⟨⟨_, ⟨_, is⟩, os, qs, _, _⟩, rfl, ⟨new, rfl, hnew⟩, hunused, his, h.implIds, rfl, hos,
    h.obligationIds, hqs, rfl⟩

/-- The bounds on a type parameter are about that parameter. -/
theorem ImplEntry.StandsFor.self_eq {e : ImplEntry} {i : Impl} (h : e.StandsFor traits i)
    {k : Nat} {rs : List Reference} (hk : i.params[k]? = some rs) {r : Reference} (hr : r ∈ rs) :
    r.self = .param k := by
  obtain ⟨hlt, rfl⟩ := List.getElem?_eq_some_iff.mp hk
  have hbounds := h.bounds.get (h.bounds.length_eq ▸ hlt) hlt
  obtain ⟨source, ⟨x, -, -, rfl⟩, -⟩ := exists_forall₂_iff.mp ⟨_, hbounds.flip⟩ r hr
  simp [TraitExpr.reference]

/-- A document compiles exactly if it is well-formed. Its catalogue is then the one that it
describes: closed, with references that agree with their traits and bounds about their own
parameters. -/
theorem Document.compile_accepts_wellFormed (d : Document) :
    ((∃ c, d.compile = .ok c) ↔ d.WellFormed) ∧
      ∀ c : Catalogue, d.compile = .ok c → d.Describes c ∧ c.Checked ∧
        ∀ i ∈ c.program.impls, ∀ (k : Nat) (bounds : List Reference), i.params[k]? = some bounds →
          ∀ r ∈ bounds, r.self = .param k := by
  refine ⟨⟨?_, fun h => ?_⟩, fun c hc => ?_⟩
  · rintro ⟨c, hc⟩
    exact (compile_iff.mp hc).wellFormed
  · obtain ⟨c, hc⟩ := h.exists_describes
    exact ⟨c, compile_iff.mpr hc⟩
  · have hdescribes := compile_iff.mp hc
    refine ⟨hdescribes, Document.checked hc, fun i hi k bounds hk r hr => ?_⟩
    obtain ⟨e, he⟩ := exists_forall₂_iff.mp ⟨_, hdescribes.impls.flip⟩ i hi
    exact he.self_eq hk hr

theorem Document.compile_accepts_wellFormed_shown :
    shown.WellFormed ∧ ∃ c, shown.compile = .ok c ∧ shown.Describes c ∧ c.Checked := by
  have hsome : shown.compile.toOption.isSome = true := by decide +kernel
  obtain ⟨c, hc⟩ := exists_ok_of_isSome hsome
  obtain ⟨hiff, hcatalogue⟩ := Document.compile_accepts_wellFormed shown
  obtain ⟨hdescribes, hchecked, -⟩ := hcatalogue c hc
  exact ⟨hiff.mp ⟨c, hc⟩, c, hc, hdescribes, hchecked⟩

end Documents

end TraitResolution.Catalogue
