import TraitResolution.Catalogue.Compilation
import TraitResolution.Proofs.RoundTrip

/-!
# What documents describe

The catalogue that a document describes, said without the compiler. An entry stands for what its
expressions denote in the scope of its declaration. References have to agree with the traits they
name, ids must not be used twice, and the inference variables are the names that follow question
marks, in the order in which the obligations and then the receivers are written. A document compiles
to a catalogue exactly if it describes it.

## Implementation notes

Expressions that are read later see more names of inference variables. An expression whose own names
are known already denotes the same type for all of them, so that what an obligation or a receiver
stands for can be said with the names of the whole document.
-/

namespace TraitResolution

namespace TypeExpr

variable {scope : Scope} {vars later : List String} {source : Text} {es : List Expr} {t : Ty}
  {r : Reference}

/-- The names that come right after a question mark. -/
def namesAsked : List TokenKind → List String
  | .symbol '?' :: .name name :: ks => name :: namesAsked ks
  | _ :: ks => namesAsked ks
  | [] => []

/-- The names of the inference variables in a text, in order and with repeats. -/
def unknownsIn (source : Text) : List String :=
  namesAsked ((tokens source).map (·.kind))

theorem namesAsked_moreSentence
    (h : ∀ e ∈ es, ∀ ks, namesAsked (e.sentence ++ ks) = e.unknowns ++ namesAsked ks)
    (ks : List TokenKind) :
    namesAsked (Expr.moreSentence es ++ ks) = es.flatMap Expr.unknowns ++ namesAsked ks := by
  induction es with
  | nil => rfl
  | cons e es ih =>
      obtain ⟨he, hes⟩ := List.forall_mem_cons.mp h
      rw [Expr.moreSentence, List.flatMap_cons, List.append_assoc, ← ih hes, ← he]
      simp [namesAsked]

/-- The names after question marks are the unknowns of an expression. -/
theorem namesAsked_sentence (e : Expr) (ks : List TokenKind) :
    namesAsked (e.sentence ++ ks) = e.unknowns ++ namesAsked ks := by
  induction e using Expr.induction generalizing ks with
  | named id args ih =>
      rw [Expr.sentence, Expr.unknowns_named]
      cases args with
      | nil => simp [Expr.argsSentence, namesAsked]
      | cons a args =>
          obtain ⟨ha, hargs⟩ := List.forall_mem_cons.mp ih
          have hmore := namesAsked_moreSentence hargs (.symbol '>' :: ks)
          have hclose : namesAsked (.symbol '>' :: ks) = namesAsked ks := by simp [namesAsked]
          rw [List.flatMap_cons, List.append_assoc, ← hclose, ← hmore, ← ha]
          simp [Expr.argsSentence, namesAsked]
  | unknown name => simp [Expr.sentence, Expr.unknowns, namesAsked]

/-- A text that spells an expression has the names of its unknowns after question marks. -/
theorem unknownsIn_of_spells {e : Expr} (h : Spells source e.sentence) :
    unknownsIn source = e.unknowns := by
  rw [unknownsIn, tokens_iff.mpr h, namesAsked_sentence]
  simp [namesAsked]

theorem unknownsIn_of_spells_reference {x : ReferenceExpr} (h : Spells source x.sentence) :
    unknownsIn source = x.unknowns := by
  have htrait : ∀ ks, namesAsked (x.trait.sentence ++ ks) = x.trait.unknowns ++ namesAsked ks := by
    intro ks
    rw [TraitExpr.unknowns, ← Expr.unknowns_named x.trait.id]
    exact namesAsked_sentence (.named x.trait.id x.trait.args) ks
  have hself : namesAsked (.name "for" :: (x.self.sentence ++ [.eof])) = x.self.unknowns := by
    have hword : namesAsked (.name "for" :: (x.self.sentence ++ [.eof])) =
        namesAsked (x.self.sentence ++ [.eof]) := by simp [namesAsked]
    rw [hword, namesAsked_sentence]
    simp [namesAsked]
  rw [unknownsIn, tokens_iff.mpr h, ReferenceExpr.sentence, List.append_assoc, htrait,
    List.cons_append, hself, ReferenceExpr.unknowns]

/-- The text is an expression for the type. -/
def Denotes (scope : Scope) (vars : List String) (source : Text) (t : Ty) : Prop :=
  ∃ e : Expr, Spells source e.sentence ∧ e.Fits scope ∧ t = e.type scope vars

/-- The text is a trait reference, with `for` and a self type. -/
def DenotesReference (scope : Scope) (vars : List String) (source : Text) (r : Reference) : Prop :=
  ∃ x : ReferenceExpr, Spells source x.sentence ∧ x.Fits scope ∧ r = x.reference scope vars

/-- The text is a trait with its arguments, for a self type that is not written. -/
def DenotesBound (scope : Scope) (self : Ty) (source : Text) (r : Reference) : Prop :=
  ∃ x : TraitExpr, Spells source x.sentence ∧ x.Fits scope ∧ r = x.reference scope self []

theorem run_type_iff :
    (Parser.type scope).run source vars = .ok (t, later) ↔
      later = seen vars (unknownsIn source) ∧ Denotes scope later source t := by
  rw [(Parser.recognizes_type scope).run_iff Expr.written_sentence]
  constructor
  · rintro ⟨e, hspells, hfits, hlater, ht⟩
    exact ⟨unknownsIn_of_spells hspells ▸ hlater, e, hspells, hfits, ht⟩
  · rintro ⟨hlater, e, hspells, hfits, ht⟩
    exact ⟨e, hspells, hfits, unknownsIn_of_spells hspells ▸ hlater, ht⟩

theorem run_reference_iff :
    (Parser.reference scope none).run source vars = .ok (r, later) ↔
      later = seen vars (unknownsIn source) ∧ DenotesReference scope later source r := by
  rw [(Parser.recognizes_reference_none scope).run_iff ReferenceExpr.written_sentence]
  constructor
  · rintro ⟨x, hspells, hfits, hlater, hr⟩
    exact ⟨unknownsIn_of_spells_reference hspells ▸ hlater, x, hspells, hfits, hr⟩
  · rintro ⟨hlater, x, hspells, hfits, hr⟩
    exact ⟨x, hspells, hfits, unknownsIn_of_spells_reference hspells ▸ hlater, hr⟩

section Closed

variable {params : List Text}

/-- Where no unknowns are allowed, the names of the inference variables stay as they are. -/
theorem run_closedType_iff :
    (Parser.type ⟨params, false⟩).run source [] = .ok (t, later) ↔
      later = [] ∧ Denotes ⟨params, false⟩ [] source t := by
  rw [run_type_iff]
  constructor
  · rintro ⟨rfl, e, hspells, hfits, rfl⟩
    rw [unknownsIn_of_spells hspells, unknowns_of_fits hfits]
    exact ⟨rfl, e, hspells, hfits, rfl⟩
  · rintro ⟨rfl, e, hspells, hfits, rfl⟩
    rw [unknownsIn_of_spells hspells, unknowns_of_fits hfits]
    exact ⟨rfl, e, hspells, hfits, rfl⟩

theorem TraitExpr.Fits.unknowns_eq_nil {x : TraitExpr} (h : x.Fits ⟨params, false⟩) :
    x.unknowns = [] :=
  List.flatMap_eq_nil_iff.mpr fun a ha => unknowns_of_fits (h a ha)

theorem ReferenceExpr.Fits.unknowns_eq_nil {x : ReferenceExpr} (h : x.Fits ⟨params, false⟩) :
    x.unknowns = [] := by
  rw [ReferenceExpr.unknowns, h.1.unknowns_eq_nil, unknowns_of_fits h.2, List.append_nil]

theorem run_closedReference_iff :
    (Parser.reference ⟨params, false⟩ none).run source [] = .ok (r, later) ↔
      later = [] ∧ DenotesReference ⟨params, false⟩ [] source r := by
  rw [run_reference_iff]
  constructor
  · rintro ⟨rfl, x, hspells, hfits, rfl⟩
    rw [unknownsIn_of_spells_reference hspells, hfits.unknowns_eq_nil]
    exact ⟨rfl, x, hspells, hfits, rfl⟩
  · rintro ⟨rfl, x, hspells, hfits, rfl⟩
    rw [unknownsIn_of_spells_reference hspells, hfits.unknowns_eq_nil]
    exact ⟨rfl, x, hspells, hfits, rfl⟩

theorem run_bound_iff {self : Ty} :
    (Parser.reference ⟨params, false⟩ (some self)).run source [] = .ok (r, later) ↔
      later = [] ∧ DenotesBound ⟨params, false⟩ self source r := by
  rw [(Parser.recognizes_reference_some _ self).run_iff TraitExpr.written_sentence]
  constructor
  · rintro ⟨x, hspells, hfits, rfl, rfl⟩
    rw [hfits.unknowns_eq_nil]
    exact ⟨rfl, x, hspells, hfits, rfl⟩
  · rintro ⟨rfl, x, hspells, hfits, rfl⟩
    exact ⟨x, hspells, hfits, by rw [hfits.unknowns_eq_nil, seen], rfl⟩

end Closed

/-- More names make no difference to a text whose own names are known. -/
theorem denotes_of_isPrefix (hle : vars <+: later) (hnames : ∀ n ∈ unknownsIn source, n ∈ vars) :
    Denotes scope later source t ↔ Denotes scope vars source t := by
  refine exists_congr fun e => and_congr_right fun hspells => and_congr_right fun _ => ?_
  rw [unknownsIn_of_spells hspells] at hnames
  rw [Expr.type_of_isPrefix hle hnames]

theorem denotesReference_of_isPrefix (hle : vars <+: later)
    (hnames : ∀ n ∈ unknownsIn source, n ∈ vars) :
    DenotesReference scope later source r ↔ DenotesReference scope vars source r := by
  refine exists_congr fun x => and_congr_right fun hspells => and_congr_right fun _ => ?_
  rw [unknownsIn_of_spells_reference hspells, ReferenceExpr.unknowns,
    List.forall_mem_append] at hnames
  have hargs : x.trait.args.map (Expr.type scope later) = x.trait.args.map (Expr.type scope vars) :=
    List.map_congr_left fun a ha => Expr.type_of_isPrefix hle fun n hn =>
      hnames.1 n (List.mem_flatMap.mpr ⟨a, ha, hn⟩)
  rw [ReferenceExpr.reference, ReferenceExpr.reference, TraitExpr.reference, TraitExpr.reference,
    hargs, Expr.type_of_isPrefix hle hnames.2]

end TypeExpr

namespace Catalogue

open TypeExpr Compilation

/-- A reference to a declared trait with the number of parameters it has. -/
def Compilation.Refers (traits : List Trait) (r : Reference) : Prop :=
  ∃ t, traitNamed? traits r.id = some t ∧ r.params.length = t.arity

/-- The method that an entry stands for, with the given names of type parameters. -/
structure MethodEntry.StandsFor (params : List Text) (e : MethodEntry) (m : Method) : Prop where
  id : m.id = e.id
  selfType : Denotes ⟨params, false⟩ [] e.self m.selfType

/-- The names of a trait's type parameters, the self type first. -/
def TraitEntry.names (e : TraitEntry) : List Text :=
  "Self" :: e.params.getD []

/-- The trait that an entry stands for. -/
structure TraitEntry.StandsFor (e : TraitEntry) (t : Trait) : Prop where
  id : t.id = e.id
  names_nodup : e.names.Nodup
  fundeps : t.fundeps = e.fundeps.getD (e.names.map fun _ => false)
  length_fundeps : t.fundeps.length = e.names.length
  methodIds : ((e.methods.getD []).map (·.id)).Nodup
  methods : List.Forall₂ (MethodEntry.StandsFor e.names) (e.methods.getD []) t.methods

/-- The bounds that stand on the type parameter at a position. -/
def ParamEntry.StandsFor (traits : List Trait) (names : List Text) (p : Nat × ParamEntry)
    (rs : List Reference) : Prop :=
  List.Forall₂
    (fun source r => DenotesBound ⟨names, false⟩ (.param p.1) source r ∧ Refers traits r)
    (p.2.bounds.getD []) rs

/-- The names of an impl's type parameters. -/
def ImplEntry.names (e : ImplEntry) : List Text :=
  (e.params.getD []).map (·.name)

/-- The impl that an entry stands for. -/
structure ImplEntry.StandsFor (traits : List Trait) (e : ImplEntry) (i : Impl) : Prop where
  id : i.id = e.id
  names_nodup : e.names.Nodup
  trait : DenotesReference ⟨e.names, false⟩ [] e.trait i.trait ∧ Refers traits i.trait
  bounds : List.Forall₂ (ParamEntry.StandsFor traits e.names)
    ((e.params.getD []).mapIdx fun k p => (k, p)) i.params

/-- The obligation that an entry stands for, with the given names of inference variables. -/
structure ObligationEntry.StandsFor (traits : List Trait) (vars : List String) (e : ObligationEntry)
    (o : Obligation) : Prop where
  id : o.id = e.id
  depth : o.depth = 0
  trait : DenotesReference ⟨[], true⟩ vars e.trait o.trait ∧ Refers traits o.trait

/-- The method call that an entry stands for, with the given names of inference variables. -/
structure QueryEntry.StandsFor (traits : List Trait) (vars : List String) (e : QueryEntry)
    (q : Query) : Prop where
  id : q.id = queryId e
  receiver : Denotes ⟨[], true⟩ vars e.receiver q.receiver
  method : q.method = e.method
  traits : List.Forall₂ (fun id t => traitNamed? traits id = some t) (e.traits.getD []) q.traits

namespace Compilation

variable {declared traits ts : List Trait} {params used ids : List Text} {vars later : List String}
  {source : Text} {r : Reference}

section Ids

/-- Ids that differ from each other and from those used before. -/
def Unused (used ids : List Text) : Prop :=
  ids.Nodup ∧ ∀ id ∈ ids, id ∉ used

theorem unused_nil : Unused used [] :=
  ⟨List.nodup_nil, by simp⟩

theorem unused_nil_iff : Unused [] ids ↔ ids.Nodup :=
  and_iff_left (by simp)

/-- A first id is new, and counts as used for the rest. -/
theorem unused_cons {id : Text} :
    Unused used (id :: ids) ↔ id ∉ used ∧ Unused (id :: used) ids := by
  rw [Unused, Unused, List.nodup_cons, List.forall_mem_cons]
  constructor
  · rintro ⟨⟨hid, hnodup⟩, hused, hids⟩
    refine ⟨hused, hnodup, fun other hother => ?_⟩
    exact List.not_mem_cons_of_ne_of_not_mem (ne_of_mem_of_not_mem hother hid) (hids other hother)
  · rintro ⟨hused, hnodup, hids⟩
    refine ⟨⟨fun hid => List.ne_of_not_mem_cons (hids id hid) rfl, hnodup⟩, hused, ?_⟩
    exact fun other hother => List.not_mem_of_not_mem_cons (hids other hother)

theorem unused_congr {other : List Text} (h : ∀ id, id ∈ used ↔ id ∈ other) :
    Unused used ids ↔ Unused other ids := by
  simp only [Unused, h]

theorem repeatedAfter?_eq_none_iff : repeatedAfter? used ids = none ↔ Unused used ids := by
  induction ids generalizing used with
  | nil => simp [repeatedAfter?, unused_nil]
  | cons id ids ih =>
      rw [repeatedAfter?, unused_cons, ← ih]
      split
      · rename_i hid
        simp [List.contains_iff_mem.mp hid]
      · rename_i hid
        simp [mt List.contains_iff_mem.mpr hid]

theorem repeated?_eq_none_iff : repeated? ids = none ↔ ids.Nodup := by
  rw [repeated?, repeatedAfter?_eq_none_iff]
  simp [Unused]

end Ids

theorem traitNamed?_isSome_iff {id : Text} :
    (traitNamed? declared id).isSome = true ↔ id ∈ declared.map (·.id) := by
  simp [traitNamed?, List.find?_isSome]

theorem checkArity_iff {u : Unit} : checkArity traits r = .ok u ↔ Refers traits r := by
  rw [checkArity]
  split
  · rename_i hnone
    simp [Refers, hnone]
  · rename_i t ht
    simp [Refers, ht]

theorem reference_iff {scope : Scope} {self? : Option Ty} :
    reference traits scope self? vars source = .ok (r, later) ↔
      (Parser.reference scope self?).run source vars = .ok (r, later) ∧ Refers traits r := by
  simp only [reference, bind_eq_ok, mapError_eq_ok, pure_eq_ok, checkArity_iff, Prod.exists]
  constructor
  · rintro ⟨r', later', hrun, -, hrefers, heq⟩
    obtain ⟨rfl, rfl⟩ := Prod.mk.inj heq
    exact ⟨hrun, hrefers⟩
  · rintro ⟨hrun, hrefers⟩
    exact ⟨r, later, hrun, (), hrefers, rfl⟩

theorem closedReference_iff {self? : Option Ty} :
    closedReference traits params self? source = .ok r ↔
      (∃ later, (Parser.reference ⟨params, false⟩ self?).run source [] = .ok (r, later)) ∧
        Refers traits r := by
  simp only [closedReference, bind_eq_ok, pure_eq_ok, reference_iff, Prod.exists]
  constructor
  · rintro ⟨r', later, ⟨hrun, hrefers⟩, rfl⟩
    exact ⟨⟨later, hrun⟩, hrefers⟩
  · rintro ⟨⟨later, hrun⟩, hrefers⟩
    exact ⟨r, later, ⟨hrun, hrefers⟩, rfl⟩

theorem methods_iff {es : List MethodEntry} {ms : List Method} :
    methods params used es = .ok ms ↔
      List.Forall₂ (MethodEntry.StandsFor params) es ms ∧ Unused used (es.map (·.id)) := by
  induction es generalizing used ms with
  | nil =>
      rw [methods, pure_eq_ok, List.forall₂_nil_left_iff, List.map_nil, and_iff_left unused_nil]
      exact eq_comm
  | cons e es ih =>
      simp only [methods, refuse_eq_ok, bind_eq_ok, mapError_eq_ok, pure_eq_ok, Prod.exists,
        run_closedType_iff, ih, List.map_cons, unused_cons, List.contains_iff_mem,
        List.forall₂_cons_left_iff]
      constructor
      · rintro ⟨hid, self, _, ⟨-, hself⟩, rest, ⟨hrest, hids⟩, rfl⟩
        exact ⟨⟨_, rest, ⟨rfl, hself⟩, hrest, rfl⟩, hid, hids⟩
      · rintro ⟨⟨⟨mid, self⟩, rest, ⟨rfl, hself⟩, hrest, rfl⟩, hid, hids⟩
        exact ⟨hid, self, [], ⟨rfl, hself⟩, rest, ⟨hrest, hids⟩, rfl⟩

theorem trait_iff {e : TraitEntry} {t : Trait} :
    trait declared e = .ok t ↔ e.id ∉ declared.map (·.id) ∧ e.StandsFor t := by
  simp only [trait, refuse_eq_ok, traitNamed?_isSome_iff]
  apply and_congr_right
  intro _
  split
  · rename_i name hrepeated
    constructor
    · intro h
      cases h
    · intro h
      have hnone : repeated? e.names = none := repeated?_eq_none_iff.mpr h.names_nodup
      cases hnone.symm.trans hrepeated
  · rename_i hrepeated
    have hnodup : e.names.Nodup := repeated?_eq_none_iff.mp hrepeated
    simp only [refuse_eq_ok, bind_eq_ok, pure_eq_ok, methods_iff, not_not]
    constructor
    · rintro ⟨hlen, ms, ⟨hms, hids⟩, rfl⟩
      exact ⟨rfl, hnodup, rfl, hlen, hids.1, hms⟩
    · rintro ⟨hid, -, hfundeps, hlen, hids, hms⟩
      obtain ⟨tid, fundeps, ms⟩ := t
      obtain rfl : tid = e.id := hid
      obtain rfl : fundeps = e.fundeps.getD (e.names.map fun _ => false) := hfundeps
      exact ⟨hlen, ms, ⟨hms, hids, by simp⟩, rfl⟩

theorem traits_iff {es : List TraitEntry} :
    Compilation.traits declared es = .ok ts ↔
      ∃ new, ts = declared ++ new ∧ List.Forall₂ TraitEntry.StandsFor es new ∧
        Unused (declared.map (·.id)) (es.map (·.id)) := by
  induction es generalizing declared with
  | nil =>
      rw [Compilation.traits, pure_eq_ok]
      simp [unused_nil, eq_comm]
  | cons e es ih =>
      have hused : ∀ t : Trait, t.id = e.id →
          (Unused ((declared ++ [t]).map (·.id)) (es.map (·.id)) ↔
            Unused (e.id :: declared.map (·.id)) (es.map (·.id))) := by
        intro t ht
        apply unused_congr
        simp [ht, or_comm]
      simp only [Compilation.traits, bind_eq_ok, mapError_eq_ok, trait_iff, ih, List.map_cons,
        unused_cons, List.forall₂_cons_left_iff]
      constructor
      · rintro ⟨t, ⟨hid, ht⟩, new, rfl, hnew, hids⟩
        exact ⟨t :: new, by simp, ⟨t, new, ht, hnew, rfl⟩, hid, (hused t ht.id).mp hids⟩
      · rintro ⟨_, rfl, ⟨t, new, ht, hnew, rfl⟩, hid, hids⟩
        exact ⟨t, ⟨hid, ht⟩, new, by simp, hnew, (hused t ht.id).mpr hids⟩

theorem bounds_iff {position : Nat} {e : ParamEntry} {rs : List Reference} :
    bounds traits params position e = .ok rs ↔
      ParamEntry.StandsFor traits params (position, e) rs := by
  rw [bounds, mapM_eq_ok_iff, ParamEntry.StandsFor]
  simp only [mapError_eq_ok, closedReference_iff, run_bound_iff, exists_eq_left]

theorem impl_iff {e : ImplEntry} {i : Impl} : impl traits e = .ok i ↔ e.StandsFor traits i := by
  rw [impl]
  split
  · rename_i name hrepeated
    constructor
    · intro h
      cases h
    · intro h
      have hnone : repeated? e.names = none := repeated?_eq_none_iff.mpr h.names_nodup
      cases hnone.symm.trans hrepeated
  · rename_i hrepeated
    have hnodup : e.names.Nodup := repeated?_eq_none_iff.mp hrepeated
    simp only [bind_eq_ok, mapError_eq_ok, pure_eq_ok, mapM_eq_ok_iff, bounds_iff,
      closedReference_iff, run_closedReference_iff, exists_eq_left]
    constructor
    · rintro ⟨ref, href, bss, hbss, rfl⟩
      exact ⟨rfl, hnodup, href, hbss⟩
    · rintro ⟨hid, -, href, hbss⟩
      obtain ⟨iid, bss, ref⟩ := i
      obtain rfl : iid = e.id := hid
      exact ⟨ref, href, bss, hbss, rfl⟩

theorem impls_iff {es : List ImplEntry} {is : List Impl} :
    impls traits used es = .ok is ↔
      List.Forall₂ (ImplEntry.StandsFor traits) es is ∧ Unused used (es.map (·.id)) := by
  induction es generalizing used is with
  | nil =>
      rw [impls, pure_eq_ok, List.forall₂_nil_left_iff, List.map_nil, and_iff_left unused_nil]
      exact eq_comm
  | cons e es ih =>
      simp only [impls, refuse_eq_ok, bind_eq_ok, mapError_eq_ok, pure_eq_ok, impl_iff, ih,
        List.map_cons, unused_cons, List.contains_iff_mem, List.forall₂_cons_left_iff]
      constructor
      · rintro ⟨hid, i, hi, rest, ⟨hrest, hids⟩, rfl⟩
        exact ⟨⟨i, rest, hi, hrest, rfl⟩, hid, hids⟩
      · rintro ⟨⟨i, rest, hi, hrest, rfl⟩, hid, hids⟩
        exact ⟨hid, i, hi, rest, ⟨hrest, hids⟩, rfl⟩

theorem standsFor_of_isPrefix {e : ObligationEntry} {o : Obligation} (hle : vars <+: later)
    (hnames : ∀ n ∈ unknownsIn e.trait, n ∈ vars) :
    e.StandsFor traits later o ↔ e.StandsFor traits vars o := by
  constructor
  · rintro ⟨hid, hdepth, hr, hrefers⟩
    exact ⟨hid, hdepth, (denotesReference_of_isPrefix hle hnames).mp hr, hrefers⟩
  · rintro ⟨hid, hdepth, hr, hrefers⟩
    exact ⟨hid, hdepth, (denotesReference_of_isPrefix hle hnames).mpr hr, hrefers⟩

theorem forall₂_standsFor_of_isPrefix {es : List ObligationEntry} {os : List Obligation}
    (hle : vars <+: later) (hnames : ∀ n ∈ es.flatMap fun e => unknownsIn e.trait, n ∈ vars) :
    List.Forall₂ (ObligationEntry.StandsFor traits later) es os ↔
      List.Forall₂ (ObligationEntry.StandsFor traits vars) es os := by
  have hiff : ∀ e ∈ es, ∀ o, e.StandsFor traits later o ↔ e.StandsFor traits vars o :=
    fun e he o => standsFor_of_isPrefix hle fun n hn =>
      hnames n (List.mem_flatMap.mpr ⟨e, he, hn⟩)
  constructor
  · intro h
    exact ((List.forall₂_and_left es os).mpr ⟨hiff, h⟩).imp fun e o ho => (ho.1 o).mp ho.2
  · intro h
    exact ((List.forall₂_and_left es os).mpr ⟨hiff, h⟩).imp fun e o ho => (ho.1 o).mpr ho.2

theorem obligations_iff {es : List ObligationEntry} {os : List Obligation} :
    obligations traits used vars es = .ok (os, later) ↔
      later = seen vars (es.flatMap fun e => unknownsIn e.trait) ∧
        List.Forall₂ (ObligationEntry.StandsFor traits later) es os ∧
        Unused used (es.map (·.id)) := by
  induction es generalizing used vars os later with
  | nil =>
      rw [obligations, pure_eq_ok, List.forall₂_nil_left_iff, List.map_nil,
        and_iff_left unused_nil, Prod.mk.injEq]
      exact ⟨fun h => ⟨h.2.symm, h.1.symm⟩, fun h => ⟨h.2.symm, h.1.symm⟩⟩
  | cons e es ih =>
      simp only [obligations, refuse_eq_ok, bind_eq_ok, mapError_eq_ok, pure_eq_ok, Prod.exists,
        reference_iff, run_reference_iff, ih, List.map_cons, List.flatMap_cons, seen_append,
        unused_cons, List.contains_iff_mem, List.forall₂_cons_left_iff]
      -- the names after the first obligation are a prefix of the names after all of them
      have hprefix := isPrefix_seen (seen vars (unknownsIn e.trait))
        (es.flatMap fun e => unknownsIn e.trait)
      have hnames : ∀ n ∈ unknownsIn e.trait, n ∈ seen vars (unknownsIn e.trait) :=
        fun n hn => mem_seen hn
      constructor
      · rintro ⟨hid, r, _, ⟨⟨rfl, hr⟩, hrefers⟩, rest, _, ⟨rfl, hrest, hids⟩, heq⟩
        obtain ⟨rfl, rfl⟩ := Prod.mk.inj heq
        have ho := (standsFor_of_isPrefix hprefix hnames).mpr
          (show e.StandsFor traits _ ⟨e.id, r, 0⟩ from ⟨rfl, rfl, hr, hrefers⟩)
        exact ⟨rfl, ⟨_, rest, ho, hrest, rfl⟩, hid, hids⟩
      · rintro ⟨rfl, ⟨⟨oid, r, depth⟩, rest, ho, hrest, rfl⟩, hid, hids⟩
        obtain ⟨hoid, hdepth, hr, hrefers⟩ := (standsFor_of_isPrefix hprefix hnames).mp ho
        obtain rfl : oid = e.id := hoid
        obtain rfl : depth = 0 := hdepth
        exact ⟨hid, r, _, ⟨⟨rfl, hr⟩, hrefers⟩, rest, _, ⟨rfl, hrest, hids⟩, rfl⟩

theorem query_iff {e : QueryEntry} {q : Query} :
    query traits vars e = .ok (q, later) ↔
      later = seen vars (unknownsIn e.receiver) ∧ e.StandsFor traits later q := by
  simp only [query, bind_eq_ok, mapError_eq_ok, pure_eq_ok, Prod.exists, run_type_iff,
    mapM_eq_ok_iff]
  constructor
  · rintro ⟨receiver, _, ⟨rfl, hreceiver⟩, ts, hts, heq⟩
    obtain ⟨rfl, rfl⟩ := Prod.mk.inj heq
    refine ⟨rfl, rfl, hreceiver, rfl, hts.imp fun id t h => ?_⟩
    split at h
    · rwa [← Except.ok.inj h]
    · cases h
  · rintro ⟨rfl, hid, hreceiver, hmethod, hts⟩
    obtain ⟨qid, receiver, method, ts⟩ := q
    obtain rfl : qid = queryId e := hid
    obtain rfl : method = e.method := hmethod
    refine ⟨receiver, _, ⟨rfl, hreceiver⟩, ts, hts.imp fun id t h => ?_, rfl⟩
    rw [h]

theorem queries_iff {n : Nat} {es : List QueryEntry} {qs : List Query} :
    queries traits n vars es = .ok (qs, later) ↔
      later = seen vars (es.flatMap fun e => unknownsIn e.receiver) ∧
        List.Forall₂ (QueryEntry.StandsFor traits later) es qs := by
  induction es generalizing n vars qs later with
  | nil =>
      rw [queries, pure_eq_ok, List.forall₂_nil_left_iff, Prod.mk.injEq]
      exact ⟨fun h => ⟨h.2.symm, h.1.symm⟩, fun h => ⟨h.2.symm, h.1.symm⟩⟩
  | cons e es ih =>
      simp only [queries, bind_eq_ok, mapError_eq_ok, pure_eq_ok, Prod.exists, query_iff, ih,
        List.flatMap_cons, seen_append, List.forall₂_cons_left_iff]
      have hprefix := isPrefix_seen (seen vars (unknownsIn e.receiver))
        (es.flatMap fun e => unknownsIn e.receiver)
      have hnames : ∀ n ∈ unknownsIn e.receiver, n ∈ seen vars (unknownsIn e.receiver) :=
        fun n hn => mem_seen hn
      constructor
      · rintro ⟨q, _, ⟨rfl, hq⟩, rest, _, ⟨rfl, hrest⟩, heq⟩
        obtain ⟨rfl, rfl⟩ := Prod.mk.inj heq
        have hreceiver := (denotes_of_isPrefix hprefix hnames).mpr hq.receiver
        exact ⟨rfl, q, rest, { hq with receiver := hreceiver }, hrest, rfl⟩
      · rintro ⟨rfl, q, rest, hq, hrest, rfl⟩
        have hreceiver := (denotes_of_isPrefix hprefix hnames).mp hq.receiver
        exact ⟨q, _, ⟨rfl, { hq with receiver := hreceiver }⟩, rest, _, ⟨rfl, hrest⟩, rfl⟩

end Compilation

/-- The names of a document's inference variables, in the order in which its obligations and then
its receivers are read, with repeats. -/
def Document.unknowns (d : Document) : List String :=
  ((d.obligations.getD []).flatMap fun e => unknownsIn e.trait) ++
    (d.methods.getD []).flatMap fun e => unknownsIn e.receiver

/-- The catalogue is what the entries of a document stand for, and no id is used twice. -/
structure Document.Describes (d : Document) (c : Catalogue) : Prop where
  config : c.config = d.config.getD .default
  traits : ∃ new, c.program.traits = builtinTraits ++ new ∧
    List.Forall₂ TraitEntry.StandsFor (d.traits.getD []) new
  traitIds : Unused (builtinTraits.map (·.id)) ((d.traits.getD []).map (·.id))
  impls : List.Forall₂ (ImplEntry.StandsFor c.program.traits) (d.impls.getD []) c.program.impls
  implIds : ((d.impls.getD []).map (·.id)).Nodup
  vars : c.vars = seen [] d.unknowns
  obligations : List.Forall₂ (ObligationEntry.StandsFor c.program.traits c.vars)
    (d.obligations.getD []) c.obligations
  obligationIds : ((d.obligations.getD []).map (·.id)).Nodup
  queries : List.Forall₂ (QueryEntry.StandsFor c.program.traits c.vars)
    (d.methods.getD []) c.queries
  expect : c.expect = d.expect

/-- A document compiles to the catalogue that it describes. -/
theorem Document.compile_iff {d : Document} {c : Catalogue} :
    d.compile = .ok c ↔ d.Describes c := by
  simp only [Document.compile, bind_eq_ok, pure_eq_ok, Prod.exists, traits_iff, impls_iff,
    obligations_iff, queries_iff]
  have hprefix := isPrefix_seen (seen [] ((d.obligations.getD []).flatMap fun e =>
    unknownsIn e.trait)) ((d.methods.getD []).flatMap fun e => unknownsIn e.receiver)
  constructor
  · rintro ⟨_, ⟨new, rfl, hnew, hids⟩, is, ⟨his, hiids⟩, os, _, ⟨rfl, hos, hoids⟩, qs, _,
      ⟨rfl, hqs⟩, rfl⟩
    have hos' := (forall₂_standsFor_of_isPrefix hprefix fun n hn => mem_seen hn).mpr hos
    exact ⟨rfl, ⟨new, rfl, hnew⟩, hids, his, hiids.1, (seen_append ..).symm, hos', hoids.1, hqs,
      rfl⟩
  · obtain ⟨config, ⟨ts, is⟩, os, qs, vars, expect⟩ := c
    rintro ⟨rfl, ⟨new, rfl, hnew⟩, hids, his, hiids, hvars, hos, hoids, hqs, rfl⟩
    obtain rfl := hvars.trans (seen_append ..)
    have hos' := (forall₂_standsFor_of_isPrefix hprefix fun n hn => mem_seen hn).mp hos
    exact ⟨_, ⟨new, rfl, hnew, hids⟩, is, ⟨his, unused_nil_iff.mpr hiids⟩, os, _,
      ⟨rfl, hos', unused_nil_iff.mpr hoids⟩, qs, _, ⟨rfl, hqs⟩, rfl⟩

end Catalogue

end TraitResolution
