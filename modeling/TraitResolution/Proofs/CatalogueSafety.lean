import TraitResolution.Catalogue.Report
import TraitResolution.Proofs.CallSafety
import TraitResolution.Proofs.Calls
import TraitResolution.Proofs.Documents
import TraitResolution.Proofs.Endlessness

/-!
# Compiled catalogues do not go wrong

Compilation reads every expression in the scope of its declaration, and refuses references to
unknown traits and those with the wrong number of parameters. What it accepts is well formed, up to
the numbers of arguments that type constructors are used with. If these agree, running the
catalogue comes across nothing malformed. It yields a report if there is a greatest depth, and may
never return if there is none.

## Implementation notes

The signature of a catalogue is read off the catalogue: a constructor takes as many arguments as
where it is used first, and a trait has as many parameters as where it is declared first.
-/

namespace TraitResolution

namespace TypeExpr

variable {scope : Scope} {params : List Text} {vars : List String} {source : Text} {t : Ty}
  {r : Reference}

/-- A type over the parameters of a scope and the inference variables with the given names. -/
structure Over (scope : Scope) (vars : List String) (t : Ty) : Prop where
  allowed : t.vars ≠ [] → scope.allowsVars = true
  live : ∀ v ∈ t.vars, v.index < vars.length ∧ v.generation = 0
  inScope : t.InScope scope.params.length

theorem Over.closed (h : Over ⟨params, false⟩ vars t) : t.Closed params.length :=
  ⟨by_contra fun hvars => Bool.false_ne_true (h.allowed hvars), h.inScope⟩

theorem over_con {id : String} {args : List Ty} (h : ∀ a ∈ args, Over scope vars a) :
    Over scope vars (.con id args) := by
  refine ⟨fun hvars => ?_, fun v hv => ?_, Ty.inScope_con.mpr fun a ha => (h a ha).inScope⟩
  · obtain ⟨v, hv⟩ := List.exists_mem_of_ne_nil _ hvars
    obtain ⟨a, ha, hv⟩ : ∃ a ∈ args, v ∈ a.vars := by simpa using hv
    exact (h a ha).allowed (List.ne_nil_of_mem hv)
  · obtain ⟨a, ha, hv⟩ : ∃ a ∈ args, v ∈ a.vars := by simpa using hv
    exact (h a ha).live v hv

theorem over_param {i : Nat} (h : i < scope.params.length) : Over scope vars (.param i) :=
  ⟨by simp, by simp, Ty.inScope_param.mpr (by simpa using h)⟩

theorem over_var {i : Nat} (hscope : scope.allowsVars = true) (h : i < vars.length) :
    Over scope vars (.var ⟨i, 0⟩) :=
  ⟨fun _ => hscope, by simpa using h, Ty.inScope_var⟩

/-- An expression stands for a type over the names of its unknowns. -/
theorem Expr.Fits.over {e : Expr} (h : e.Fits scope) (hnames : ∀ n ∈ e.unknowns, n ∈ vars) :
    Over scope vars (e.type scope vars) := by
  induction h with
  | @param id hid =>
      obtain ⟨i, hi⟩ := Expr.exists_idxOf?_eq_some hid
      rw [Expr.type_param [] hi]
      exact over_param (List.findIdx?_eq_some_iff_getElem.mp hi).1
  | @con id args hid _ ih =>
      rw [Expr.type_con args hid]
      refine over_con (List.forall_mem_map.mpr fun a ha => ih a ha fun n hn => ?_)
      exact hnames n (by simpa using ⟨a, ha, hn⟩)
  | @unknown name hallowed =>
      rw [Expr.type_unknown]
      exact over_var hallowed (List.idxOf_lt_length_of_mem (hnames name (by simp [Expr.unknowns])))

theorem Denotes.over (h : Denotes scope vars source t)
    (hnames : ∀ n ∈ unknownsIn source, n ∈ vars) : Over scope vars t := by
  obtain ⟨e, hspells, hfits, rfl⟩ := h
  rw [unknownsIn_of_spells hspells] at hnames
  exact hfits.over hnames

theorem Denotes.closed (h : Denotes ⟨params, false⟩ vars source t) : t.Closed params.length := by
  obtain ⟨e, -, hfits, rfl⟩ := h
  exact (hfits.over (by simp [unknowns_of_fits hfits])).closed

theorem ReferenceExpr.Fits.over {x : ReferenceExpr} (h : x.Fits scope)
    (hnames : ∀ n ∈ x.unknowns, n ∈ vars) :
    ∀ t ∈ (x.reference scope vars).types, Over scope vars t := by
  rw [ReferenceExpr.unknowns, List.forall_mem_append] at hnames
  refine List.forall_mem_cons.mpr ⟨h.2.over hnames.2, List.forall_mem_map.mpr fun a ha => ?_⟩
  exact (h.1 a ha).over fun n hn => hnames.1 n (List.mem_flatMap.mpr ⟨a, ha, hn⟩)

theorem DenotesReference.over (h : DenotesReference scope vars source r)
    (hnames : ∀ n ∈ unknownsIn source, n ∈ vars) : ∀ t ∈ r.types, Over scope vars t := by
  obtain ⟨x, hspells, hfits, rfl⟩ := h
  rw [unknownsIn_of_spells_reference hspells] at hnames
  exact hfits.over hnames

theorem DenotesReference.closed (h : DenotesReference ⟨params, false⟩ vars source r) :
    ∀ t ∈ r.types, t.Closed params.length := by
  obtain ⟨x, -, hfits, rfl⟩ := h
  exact fun t ht => (hfits.over (by simp [hfits.unknowns_eq_nil]) t ht).closed

theorem DenotesBound.closed {i : Nat} (hi : i < params.length)
    (h : DenotesBound ⟨params, false⟩ (.param i) source r) :
    ∀ t ∈ r.types, t.Closed params.length := by
  obtain ⟨x, -, hfits, rfl⟩ := h
  have hself : Over ⟨params, false⟩ [] (.param i) := over_param hi
  refine List.forall_mem_cons.mpr ⟨hself.closed, List.forall_mem_map.mpr fun a ha => ?_⟩
  exact ((hfits a ha).over (by simp [unknowns_of_fits (hfits a ha)])).closed

end TypeExpr

namespace Catalogue

open TypeExpr

namespace Compilation

variable {traits : List Trait} {vars : List String}

/-- A reference in a declaration with `n` type parameters. -/
def Closed (traits : List Trait) (n : Nat) (r : Reference) : Prop :=
  (∀ t ∈ r.types, t.Closed n) ∧ Refers traits r

/-- A trait whose methods are written with its self type and its parameters. -/
def ClosedTrait (t : Trait) : Prop :=
  ∀ m ∈ t.methods, m.selfType.Closed (t.arity + 1)

/-- An impl whose reference and bounds are written with its own type parameters. -/
def ClosedImpl (traits : List Trait) (i : Impl) : Prop :=
  ∀ r ∈ i.trait :: i.params.flatten, Closed traits i.params.length r

/-- An obligation over the inference variables with the given names. -/
def Asks (traits : List Trait) (vars : List String) (o : Obligation) : Prop :=
  (∀ t ∈ o.trait.types, Over ⟨[], true⟩ vars t) ∧ Refers traits o.trait

/-- A method call over the inference variables with the given names, with declared traits in
scope. -/
def Calls (traits : List Trait) (vars : List String) (q : Query) : Prop :=
  Over ⟨[], true⟩ vars q.receiver ∧ ∀ t ∈ q.traits, traitNamed? traits t.id = some t

end Compilation

open Compilation

theorem TraitEntry.StandsFor.closedTrait {e : TraitEntry} {t : Trait} (h : e.StandsFor t) :
    ClosedTrait t := by
  have harity : t.arity + 1 = e.names.length := by
    simp [Trait.arity, h.length_fundeps, TraitEntry.names]
  intro m hm
  obtain ⟨entry, -, hentry⟩ := exists_of_mem_right h.methods hm
  rw [harity]
  exact hentry.selfType.closed

theorem ImplEntry.StandsFor.closedImpl {traits : List Trait} {e : ImplEntry} {i : Impl}
    (h : e.StandsFor traits i) : ClosedImpl traits i := by
  have hlen : i.params.length = e.names.length := by
    simpa [ImplEntry.names] using h.bounds.length_eq.symm
  rw [ClosedImpl, hlen]
  refine List.forall_mem_cons.mpr ⟨⟨h.trait.1.closed, h.trait.2⟩, fun r hr => ?_⟩
  obtain ⟨rs, hrs, hr⟩ := List.mem_flatten.mp hr
  obtain ⟨p, hp, hbounds⟩ := exists_of_mem_right h.bounds hrs
  obtain ⟨k, hk, rfl⟩ := List.mem_mapIdx.mp hp
  obtain ⟨source, -, hbound, hrefers⟩ := exists_of_mem_right hbounds hr
  exact ⟨hbound.closed (by simpa [ImplEntry.names] using hk), hrefers⟩

theorem ObligationEntry.StandsFor.asks {traits : List Trait} {vars : List String}
    {e : ObligationEntry} {o : Obligation} (h : e.StandsFor traits vars o)
    (hnames : ∀ n ∈ unknownsIn e.trait, n ∈ vars) : Asks traits vars o :=
  ⟨h.trait.1.over hnames, h.trait.2⟩

theorem QueryEntry.StandsFor.calls {traits : List Trait} {vars : List String} {e : QueryEntry}
    {q : Query} (h : e.StandsFor traits vars q) (hnames : ∀ n ∈ unknownsIn e.receiver, n ∈ vars) :
    Calls traits vars q := by
  refine ⟨h.receiver.over hnames, fun t ht => ?_⟩
  obtain ⟨id, -, hid⟩ := exists_of_mem_right h.traits ht
  have hsame : t.id = id := by simpa using List.find?_some hid
  rw [hsame]
  exact hid

/-- What compilation ensures of a catalogue. -/
structure Checked (c : Catalogue) : Prop where
  builtin : ∀ kind : DerefKind,
    Compilation.traitNamed? c.program.traits kind.trait.id = some kind.trait
  traits : ∀ t ∈ c.program.traits, Compilation.ClosedTrait t
  impls : ∀ i ∈ c.program.impls, Compilation.ClosedImpl c.program.traits i
  obligations : ∀ o ∈ c.obligations, Compilation.Asks c.program.traits c.vars o
  queries : ∀ q ∈ c.queries, Compilation.Calls c.program.traits c.vars q

theorem closedTrait_builtin : ∀ t ∈ builtinTraits, Compilation.ClosedTrait t := by
  have hborrow : ∀ id, (Ty.con id [.param 0]).Closed 2 := fun id =>
    ⟨by simp, Ty.inScope_con.mpr (List.forall_mem_singleton.mpr (Ty.inScope_param.mpr (by decide)))⟩
  intro t ht m hm
  rcases List.mem_pair.mp ht with rfl | rfl
  · obtain rfl := List.mem_singleton.mp hm
    exact hborrow "Ref"
  · obtain rfl := List.mem_singleton.mp hm
    exact hborrow "RefMut"

/-- What a document describes is checked: its entries stand for what they are written as. -/
theorem Document.Describes.checked {d : Document} {c : Catalogue} (h : d.Describes c) :
    c.Checked := by
  obtain ⟨new, htraits, hnew⟩ := h.traits
  have hnames : ∀ n ∈ d.unknowns, n ∈ c.vars := fun n hn => h.vars ▸ mem_seen hn
  refine ⟨fun kind => ?_, ?_, fun i hi => ?_, fun o ho => ?_, fun q hq => ?_⟩
  · rw [htraits]
    cases kind <;> rfl
  · rw [htraits]
    refine List.forall_mem_append.mpr ⟨closedTrait_builtin, fun t ht => ?_⟩
    obtain ⟨e, -, he⟩ := exists_of_mem_right hnew ht
    exact he.closedTrait
  · obtain ⟨e, -, he⟩ := exists_of_mem_right h.impls hi
    exact he.closedImpl
  · obtain ⟨e, hmem, he⟩ := exists_of_mem_right h.obligations ho
    refine he.asks fun n hn => hnames n (List.mem_append_left _ ?_)
    exact List.mem_flatMap.mpr ⟨e, hmem, hn⟩
  · obtain ⟨e, hmem, he⟩ := exists_of_mem_right h.queries hq
    refine he.calls fun n hn => hnames n (List.mem_append_right _ ?_)
    exact List.mem_flatMap.mpr ⟨e, hmem, hn⟩

theorem Document.checked {d : Document} {c : Catalogue} (h : d.compile = .ok c) : c.Checked :=
  (Document.compile_iff.mp h).checked

/-- All types that stand in a catalogue. -/
def types (c : Catalogue) : List Ty :=
  (c.program.traits.flatMap fun t => t.methods.map (·.selfType)) ++
    c.program.types ++ (c.obligations.flatMap (·.trait.types)) ++ c.queries.map (·.receiver)

/-- The type constructors in a catalogue, each with the number of its arguments. -/
def uses (c : Catalogue) : List (String × Nat) :=
  c.types.flatMap Ty.uses

/-- Every type constructor is used with one number of arguments. The builtin traits are among the
traits of a catalogue, so references are used with one argument. -/
def UsesAgree (c : Catalogue) : Prop :=
  ∀ use ∈ c.uses, ∀ other ∈ c.uses, use.1 = other.1 → use.2 = other.2

instance (c : Catalogue) : Decidable c.UsesAgree :=
  inferInstanceAs (Decidable (∀ use ∈ c.uses, ∀ other ∈ c.uses, use.1 = other.1 → use.2 = other.2))

/-- The signature that a catalogue is written in. -/
def signature (c : Catalogue) : Signature where
  arity id := ((c.uses.find? (·.1 == id)).map (·.2)).getD 0
  params id := ((Compilation.traitNamed? c.program.traits id).map Trait.arity).getD 0

variable {c : Catalogue} {t : Ty}

theorem UsesAgree.arity_eq (h : c.UsesAgree) {use : String × Nat} (huse : use ∈ c.uses) :
    c.signature.arity use.1 = use.2 := by
  have hsome : (c.uses.find? (·.1 == use.1)).isSome = true :=
    List.find?_isSome.mpr ⟨use, huse, by simp⟩
  obtain ⟨other, hother⟩ := Option.isSome_iff_exists.mp hsome
  have hid : other.1 = use.1 := by simpa using List.find?_some hother
  simp [signature, hother, h other (List.mem_of_find?_eq_some hother) use huse hid]

theorem UsesAgree.fits (h : c.UsesAgree) (ht : t ∈ c.types) : t.Fits c.signature :=
  fun _ huse => (h.arity_eq (List.mem_flatMap.mpr ⟨t, ht, huse⟩)).symm

theorem length_params_of_refers {r : Reference} (h : Compilation.Refers c.program.traits r) :
    r.params.length = c.signature.params r.id := by
  obtain ⟨t, ht, hlen⟩ := h
  simp [signature, ht, hlen]

theorem mem_types_of_impl {i : Impl} {r : Reference} (hi : i ∈ c.program.impls)
    (hr : r ∈ i.trait :: i.params.flatten) (ht : t ∈ r.types) : t ∈ c.types := by
  simp [types, Program.mem_types hi hr ht]

theorem mem_types_of_trait {trait : Trait} {m : Method} (htrait : trait ∈ c.program.traits)
    (hm : m ∈ trait.methods) : m.selfType ∈ c.types := by
  have hselves : m.selfType ∈ c.program.traits.flatMap fun t => t.methods.map (·.selfType) :=
    List.mem_flatMap.mpr ⟨trait, htrait, List.mem_map_of_mem hm⟩
  simp [types, hselves]

theorem admits_of_over (hover : Over ⟨[], true⟩ c.vars t) (hfits : t.Fits c.signature) :
    c.env.Admits c.signature t :=
  ⟨hover.live, Ty.hasParams_of_inScope_zero hover.inScope, hfits⟩

theorem typed_env (c : Catalogue) : c.env.Typed c.signature := by
  have henv : c.env = Env.empty.grown c.vars.length := by simp [env, Env.empty, Env.grown]
  rw [henv]
  exact Env.typed_empty.grown _

namespace Checked

theorem wellFormed_program (h : c.Checked) (huses : c.UsesAgree) :
    c.program.WellFormed c.signature := by
  have href : ∀ i ∈ c.program.impls, ∀ r ∈ i.trait :: i.params.flatten,
      r.WellFormed c.signature i.params.length := by
    intro i hi r hr
    obtain ⟨hclosed, hrefers⟩ := h.impls i hi r hr
    exact ⟨fun t ht => ⟨hclosed t ht, huses.fits (mem_types_of_impl hi hr ht)⟩,
      length_params_of_refers hrefers⟩
  intro i hi
  obtain ⟨htrait, hbounds⟩ := List.forall_mem_cons.mp (href i hi)
  exact ⟨htrait, hbounds⟩

theorem wellFormed_trait (h : c.Checked) (huses : c.UsesAgree) {trait : Trait}
    (htrait : Compilation.traitNamed? c.program.traits trait.id = some trait) :
    trait.WellFormed c.signature := by
  have hmem := List.mem_of_find?_eq_some htrait
  refine ⟨by simp [signature, htrait], fun m hm => ⟨h.traits trait hmem m hm, ?_⟩⟩
  exact huses.fits (mem_types_of_trait hmem hm)

theorem admits_obligations (h : c.Checked) (huses : c.UsesAgree) :
    c.env.AdmitsAll c.signature c.obligations := by
  intro o ho
  obtain ⟨htypes, hrefers⟩ := h.obligations o ho
  refine ⟨fun t ht => admits_of_over (htypes t ht) (huses.fits ?_), length_params_of_refers hrefers⟩
  have hmem : t ∈ c.obligations.flatMap (·.trait.types) := List.mem_flatMap.mpr ⟨o, ho, ht⟩
  simp only [types, List.mem_append, hmem, true_or, or_true]

theorem admits_receiver (h : c.Checked) (huses : c.UsesAgree) {q : Query} (hq : q ∈ c.queries) :
    c.env.Admits c.signature q.receiver := by
  refine admits_of_over (h.queries q hq).1 (huses.fits ?_)
  have hmem : q.receiver ∈ c.queries.map (·.receiver) := List.mem_map_of_mem hq
  simp only [types, List.mem_append, hmem, or_true]

theorem arity_borrow (h : c.Checked) (huses : c.UsesAgree) (kind : DerefKind) {id : String}
    {m : Method} (hm : m ∈ kind.trait.methods) (hself : m.selfType = .con id [.param 0]) :
    c.signature.arity id = 1 := by
  have hmem := mem_types_of_trait (List.mem_of_find?_eq_some (h.builtin kind)) hm
  have huse : (id, 1) ∈ c.uses := List.mem_flatMap.mpr ⟨_, hmem, by simp [hself]⟩
  exact huses.arity_eq huse

theorem wellFormed_lookup (h : c.Checked) (huses : c.UsesAgree) {q : Query} (hq : q ∈ c.queries) :
    MethodCall.Lookup.WellFormed c.signature
      ⟨c.config, c.program, MethodCall.declaring q.traits q.method, q.method⟩ where
  program := h.wellFormed_program huses
  declarations d hd := by
    obtain ⟨htrait, hmethod⟩ := MethodCall.mem_declaring hd
    exact ⟨h.wellFormed_trait huses ((h.queries q hq).2 _ htrait),
      List.mem_of_find?_eq_some hmethod⟩
  deref kind := by
    simp only [signature, h.builtin kind]
    cases kind <;> rfl
  sharedRef := h.arity_borrow huses .shared (List.mem_singleton.mpr rfl) rfl
  mutRef := h.arity_borrow huses .mutable (List.mem_singleton.mpr rfl) rfl

end Checked

/-- The reason for which a run was given up. -/
def RunError.reason : RunError → Malformed
  | obligations cause => cause
  | coherence cause => cause
  | query _ cause => cause

open Operation Solver

/-- A run was given up because obligations arise without end. -/
def EndlessRun (c : Catalogue) (e : RunError) : Prop :=
  Endless c.config.maxDepth e.reason

theorem grows_answer (c : Catalogue) (q : Query) : (c.answer q).Grows :=
  (MethodCall.grows_resolve _ _ _ _ _).bind fun _ =>
    (Engine.grows_report _).bind fun _ => grows_pure _

theorem Checked.safe_answer (h : c.Checked) (huses : c.UsesAgree) {q : Query} (hq : q ∈ c.queries)
    {env : Env} (henv : env.Typed c.signature) (hextends : env.Extends c.env) :
    Safe (Endless c.config.maxDepth) (c.answer q) env
      fun _ left => left.Typed c.signature ∧ left.Extends c.env := by
  have hreceiver := (h.admits_receiver huses hq).of_extends hextends
  have hplace : env.AdmitsPlace c.signature (.receiver q.receiver) :=
    Env.admitsPlace_receiver.mpr hreceiver
  have hsearch := MethodCall.Lookup.safe_search (h.wellFormed_lookup huses hq)
    c.config.maxAutoderef.toNat henv hplace
  refine Safe.mono (Q := fun _ left => left.Typed c.signature) ?_ fun _ left hleft htyped =>
    ⟨htyped, (hleft.extends_env (c.grows_answer q)).trans hextends⟩
  exact hsearch.bind fun result left _ htyped => Engine.safe_report_bind (safe_pure htyped)

/-- Everything that a checked catalogue asks is answered, unless the search has no greatest
depth. -/
theorem Checked.safe_answerAll (h : c.Checked) (huses : c.UsesAgree) :
    Safe c.EndlessRun c.answerAll c.env fun _ _ => True := by
  have hprogram := h.wellFormed_program huses
  have hresolve : Safe (Endless c.config.maxDepth)
      (Solver.resolve c.config c.program c.obligations) c.env
      fun _ left => left.Typed c.signature ∧ left.Extends c.env :=
    (safe_resolve hprogram c.typed_env (h.admits_obligations huses)).mono
      fun _ left hleft htyped => ⟨htyped, hleft.extends_env (grows_resolve _ _ _)⟩
  -- later environments extend the first one, so they admit the receivers as well
  refine (Safe.mapError (f := .obligations) (E := c.EndlessRun) hresolve).bind
    fun resolution mid _ hmid => ?_
  refine (Safe.mapError (f := .coherence) (E := c.EndlessRun)
    (Coherence.safe_check hprogram)).bind ?_
  rintro conflicts _ - rfl
  refine (safe_mapM (Q := fun env => env.Typed c.signature ∧ env.Extends c.env) hmid
    fun q hq env henv => ?_).bind fun answers left _ _ => safe_present_bind (safe_pure trivial)
  exact Safe.mapError (f := .query q.id) (E := c.EndlessRun)
    (h.safe_answer huses hq henv.1 henv.2)

/-- The run never returns, since one of its searches does not. -/
def NeverReturns (c : Catalogue) : Prop :=
  ∃ e, c.run.outcome = .error e ∧ e.reason.cause = .endless

/-- A document that compiles and uses every type constructor with one number of arguments runs to a
report if there is a greatest depth. If there is none, the run may never return, but neither does it
come across anything malformed. -/
theorem Document.run_returns_report {d : Document} {c : Catalogue} (hc : d.compile = .ok c)
    (huses : c.UsesAgree) :
    (c.config.maxDepth + 1 < Number.signedLimit → ∃ report, c.run.outcome = .ok report) ∧
    ((∃ report, c.run.outcome = .ok report) ∨ c.NeverReturns) := by
  have hsafe := (Document.checked hc).safe_answerAll huses
  rcases safe_iff.mp hsafe with ⟨report, left, h, -⟩ | ⟨e, he, hendless⟩
  · exact ⟨fun _ => ⟨report, h.1⟩, Or.inl ⟨report, h.1⟩⟩
  · exact ⟨fun hlimit => absurd hlimit (Int.not_lt.mpr hendless.2), Or.inr ⟨e, he, hendless.1⟩⟩

/-- Lists are shown when their elements are, and boxes are dereferenced. -/
def shown : Document :=
  { Document.blank none with
    traits := some [⟨"Show", none, none, some [⟨"show", "Ref<Self>"⟩]⟩]
    impls := some [⟨"Int", none, "Show for Int"⟩,
      ⟨"List", some [⟨"T", some ["Show"]⟩], "Show for List<T>"⟩,
      ⟨"Box", some [⟨"T", none⟩], "Deref<T> for Box<T>"⟩]
    obligations := some [⟨"list", "Show for List<?x>"⟩]
    methods := some [⟨"", "Box<List<?x>>", "show", some ["Show"]⟩] }

theorem run_returns_report_shown : ∃ c, shown.compile = .ok c ∧ c.UsesAgree ∧
    ∃ report, c.run.outcome = .ok report := by
  have hcompiles : (shown.compile.toOption.any fun c =>
      decide (c.UsesAgree ∧ c.config = .default)) = true := by
    decide +kernel
  cases hc : shown.compile with
  | error e => simp [hc, Except.toOption] at hcompiles
  | ok c =>
      obtain ⟨huses, hconfig⟩ : c.UsesAgree ∧ c.config = .default := by
        simpa [hc, Except.toOption] using hcompiles
      refine ⟨c, rfl, huses, (Document.run_returns_report hc huses).1 ?_⟩
      rw [hconfig]
      decide

/-- Obligations are resolved before anything else is done. -/
theorem neverReturns_of_resolve
    (h : Engine.NeverReturns (Solver.resolve c.config c.program c.obligations) c.env) :
    c.NeverReturns := by
  obtain ⟨m, hm, hcause⟩ := h
  have hresolve := GivesUp.mapError ⟨hm, rfl⟩ RunError.obligations
  exact ⟨.obligations m, (givesUp_bind.mpr (Or.inl hresolve)).1, hcause⟩

/-- What has a length has a length, and nothing is too deep. -/
def circular : Document :=
  { Document.blank (some ⟨9223372036854775807, 8⟩) with
    traits := some [⟨"Sized", none, none, none⟩]
    impls := some [⟨"Circular", some [⟨"T", some ["Sized"]⟩], "Sized for T"⟩]
    obligations := some [⟨"int", "Sized for int"⟩] }

/-- Without a greatest depth, a document may compile and still have no report. -/
theorem run_without_report_circular :
    ∃ c, circular.compile = .ok c ∧ c.UsesAgree ∧ c.NeverReturns ∧
      ¬∃ report, c.run.outcome = .ok report := by
  let c : Catalogue := ⟨⟨9223372036854775807, 8⟩,
    ⟨builtinTraits ++ [⟨"Sized", [false], []⟩], [blanket "Circular" "Sized" "Sized"]⟩,
    [.topLevel "int" ⟨"Sized", .con "int" [], []⟩], [], [], none⟩
  have hcompile : circular.compile = .ok c := by
    have hsome : circular.compile.toOption = some c := by decide +kernel
    cases hc : circular.compile with
    | error e => simp [hc, Except.toOption] at hsome
    | ok c' => simpa [hc, Except.toOption] using hsome
  have hdemanded := demanded_con Env.typed_empty "int" "Sized" "int"
  have hnever : c.NeverReturns :=
    neverReturns_of_resolve (neverReturns_resolveWithin (by decide) rfl _ hdemanded)
  refine ⟨c, hcompile, by decide +kernel, hnever, ?_⟩
  rintro ⟨report, hreport⟩
  obtain ⟨e, he, -⟩ := hnever
  cases hreport.symm.trans he

end Catalogue

end TraitResolution
