import TraitResolution.Proofs.CallSearch
import TraitResolution.Proofs.Confinement

/-!
# What a call without a match infers

A call that finds no method takes back what it tried out: the tests of the traits, and the match of
the receiver type with a place. It does not take back the resolutions it acted on, which are those
of the dereferences and that of the trait whose method it chose. So a call without a match may infer
something, but nothing about other variables than the open ones of its receiver and of the impls.
-/

namespace TraitResolution

namespace MethodCall

open Operation Engine Relation

namespace Lookup

variable {cx : Lookup} {p q : Point} {env left : Env} {result : MethodResult}
  {own : Var → Prop} {base : Env}

/-- What a search leaves that ends at a point without a match. After the last dereference there is
at most one resolution that is not taken back. -/
inductive Unmatched (cx : Lookup) (p : Point) : MethodResult → Env → Prop
  | ambiguous {found : List Declaration} (hoffers : cx.Offers p found) (hlen : 2 ≤ found.length) :
      Unmatched cx p (.ambiguous (found.map (·.trait))) p.env
  | exhausted (hpassed : cx.Offers p []) (hlimit : p.limit = 0) :
      Unmatched cx p (.cannotDeref p.place.type) p.env
  | stuck {r : Resolution} {left : Env} (hpassed : cx.Offers p [])
      (hderef : cx.Derefs p r left) (hholds : derefHolds r = false) :
      Unmatched cx p (.cannotDeref p.place.type) left
  | unreconciled {d : Declaration} {ref : Reference} {evidence : Resolution} {selfType : Ty}
      {left : Env} (hoffers : cx.Offers p [d])
      (hresolve : (cx.resolveTrait p.place.type d.trait).Returns p.env (ref, evidence) left) :
      Unmatched cx p (.cannotReconcile selfType ref) left
  | immutable {d : Declaration} {ref : Reference} {evidence : Resolution} {place : Place}
      {left : Env} (hoffers : cx.Offers p [d]) (hplace : place ∈ p.place.chain)
      (hresolve : (cx.resolveTrait p.place.type d.trait).Returns p.env (ref, evidence) left) :
      Unmatched cx p (.cannotRefMut place) left

theorem Ends.unmatched (h : cx.Ends p result left)
    (hresult : ∀ ref m adjusted evidence, result ≠ .found ref m adjusted evidence) :
    cx.Unmatched p result left := by
  cases h with
  | exhausted hpassed hlimit => exact .exhausted hpassed hlimit
  | stuck hpassed _ hderef hholds => exact .stuck hpassed hderef hholds
  | ambiguous hoffers hlen => exact .ambiguous hoffers hlen
  | called hoffers hcall =>
      obtain ⟨ref, evidence, mid, selfType, hresolve, -, -, hreconciled⟩ := returns_call hcall
      obtain ⟨rfl, rfl | ⟨place, hplace, rfl⟩⟩ := hreconciled.unmatched hresult
      · exact .unreconciled hoffers hresolve
      · exact .immutable hoffers hplace hresolve

/-- A point that was reached by binding own variables only, at a place whose type is over them. -/
structure Confined (own : Var → Prop) (base : Env) (p : Point) : Prop where
  env : Env.Confined own base p.env
  type : p.place.type.Within own

theorem resolveRef_confined {id : Text} {ref : Reference} {r : Resolution}
    (hprogram : ∀ t ∈ cx.program.types, t.Within own) (hnew : ∀ v, ¬base.Live v → own v)
    (henv : Env.Confined own base env) (href : ref.Within own)
    (h : (cx.resolveRef id ref).Returns env r left) : Env.Confined own base left := by
  apply Solver.resolveWithin_confined hprogram hnew henv _ h
  rintro o ho
  obtain rfl := List.mem_singleton.mp ho
  exact href

theorem Derefs.confined {r : Resolution} (h : cx.Derefs p r left)
    (hprogram : ∀ t ∈ cx.program.types, t.Within own) (hnew : ∀ v, ¬base.Live v → own v)
    (hp : Confined own base p) : Env.Confined own base left := by
  refine resolveRef_confined hprogram hnew hp.env.created ?_ h
  refine List.forall_mem_cons.mpr ⟨hp.type, List.forall_mem_singleton.mpr ?_⟩
  intro v hv
  obtain rfl : v = p.env.nextVar := by simpa using hv
  exact hp.env.own_nextVar hnew

theorem resolveTrait_confined {t : Trait} {a : Reference × Resolution}
    (hprogram : ∀ t ∈ cx.program.types, t.Within own) (hnew : ∀ v, ¬base.Live v → own v)
    (hp : Confined own base p) (h : (cx.resolveTrait p.place.type t).Returns p.env a left) :
    Env.Confined own base left := by
  obtain ⟨params, mid, hparams, href, hresolve⟩ := returns_resolveTrait.mp h
  obtain ⟨hmid, hown⟩ := Solver.freshTypes_confined hnew hp.env hparams
  refine resolveRef_confined hprogram hnew hmid ?_ hresolve
  rw [href]
  exact List.forall_mem_cons.mpr ⟨hp.type, hown⟩

/-- A dereference binds own variables only. -/
theorem Goes.confined (h : cx.Goes p q) (hprogram : ∀ t ∈ cx.program.types, t.Within own)
    (hnew : ∀ v, ¬base.Live v → own v) (hp : Confined own base p) : Confined own base q := by
  cases h with
  | deref _ hderef _ =>
      refine ⟨hderef.confined hprogram hnew hp, ?_⟩
      intro v hv
      obtain rfl : v = _ := by simpa [Place.type] using hv
      exact hp.env.own_nextVar hnew

/-- A search binds own variables only, as far as it goes. -/
theorem way_confined (h : ReflTransGen cx.Goes p q)
    (hprogram : ∀ t ∈ cx.program.types, t.Within own) (hnew : ∀ v, ¬base.Live v → own v)
    (hp : Confined own base p) : Confined own base q := by
  induction h with
  | refl => exact hp
  | tail _ hgoes ih => exact hgoes.confined hprogram hnew ih

theorem Unmatched.confined (h : cx.Unmatched p result left)
    (hprogram : ∀ t ∈ cx.program.types, t.Within own) (hnew : ∀ v, ¬base.Live v → own v)
    (hp : Confined own base p) : Env.Confined own base left := by
  cases h with
  | ambiguous | exhausted => exact hp.env
  | stuck _ hderef _ => exact hderef.confined hprogram hnew hp
  | unreconciled _ hresolve => exact resolveTrait_confined hprogram hnew hp hresolve
  | immutable _ _ hresolve => exact resolveTrait_confined hprogram hnew hp hresolve

end Lookup

/-- A call without a match leaves what the dereferences on its way have inferred, and after the last
of them what one more resolution has: that of a dereference that fails, or that of the trait whose
method was chosen. A variable gets a value by that only if it was unbound and occurs in the receiver
or an impl, and the call infers nothing exactly if all such variables are unbound still. -/
theorem resolve_unmatched_infers {config : Config} {program : Program} {receiver : Ty}
    {traits : List Trait} {name : Text} {env left : Env} {result : MethodResult}
    (henv : env.Reachable)
    (h : (resolve config program receiver traits name).Returns env result left)
    (hresult : ∀ ref m adjusted evidence, result ≠ .found ref m adjusted evidence) :
    let cx : Lookup := ⟨config, program, declaring traits name, name⟩
    (∃ p, ReflTransGen cx.Goes ⟨env, .receiver receiver, config.maxAutoderef.toNat⟩ p ∧
      cx.Unmatched p result left) ∧
    (∀ v, env.Live v → left.value? v ≠ env.value? v →
      env.value? v = none ∧ ∃ t ∈ receiver :: program.types, v ∈ (env.resolve t).vars) ∧
    ((∀ v, env.Live v → left.value? v = env.value? v) ↔
      ∀ t ∈ receiver :: program.types, ∀ v ∈ (env.resolve t).vars, env.Live v →
        left.value? v = none) := by
  intro cx
  obtain ⟨p, hway, hends⟩ := Lookup.exists_way_of_search
    (p := ⟨env, .receiver receiver, config.maxAutoderef.toNat⟩) h
  have hunmatched := hends.unmatched hresult
  -- own variables are the new ones and those that the receiver and the impls lead to
  have hprogram : ∀ t ∈ program.types, t.Within (env.Touches (receiver :: program.types)) :=
    fun t ht => Env.within_touches (List.mem_cons_of_mem _ ht)
  have hnew : ∀ v, ¬env.Live v → env.Touches (receiver :: program.types) v := fun v => Or.inl
  have hstart : Lookup.Confined (env.Touches (receiver :: program.types)) env
      ⟨env, .receiver receiver, config.maxAutoderef.toNat⟩ :=
    ⟨Env.confined_refl henv.valid _, Env.within_touches List.mem_cons_self⟩
  have hleft := hunmatched.confined hprogram hnew (Lookup.way_confined hway hprogram hnew hstart)
  have hadds : left.Adds env := h.2 ▸ grows_resolve config program receiver traits name env
  have hchanged : ∀ v, env.Live v → left.value? v ≠ env.value? v →
      env.value? v = none ∧ ∃ t ∈ receiver :: program.types, v ∈ (env.resolve t).vars :=
    fun v hv hne => hleft.mem_resolve_of_changed hadds henv.valid hv hne
  refine ⟨⟨p, hway, hunmatched⟩, hchanged, ?_⟩
  constructor
  · intro hsame t ht v hv hlive
    rw [hsame v hlive]
    exact henv.valid.value?_of_mem_resolve hv
  · intro hopen v hlive
    by_contra hne
    obtain ⟨hnone, t, ht, hv⟩ := hchanged v hlive hne
    exact hne ((hopen t ht v hv hlive).trans hnone.symm)

/-- Things can be shown in a wrapper. -/
def showing : Trait :=
  ⟨"Show", [false], [⟨"show", .con "Wrapper" [.param 0]⟩]⟩

/-- Only numbers can be shown. -/
def showingInt : Program :=
  ⟨[showing], [⟨"ShowInt", [], ⟨"Show", .con "Int" [], []⟩⟩]⟩

/-- To show an unknown thing fails for want of a wrapper, after the thing was inferred to be a
number. -/
theorem exists_showing_run : ∃ selfType ref left,
    (resolve .default showingInt (.var ⟨0, 0⟩) [showing] "show").Returns Env.empty.created
      (.cannotReconcile selfType ref) left ∧ left.value? ⟨0, 0⟩ = some (.con "Int" []) :=
  ⟨_, _, _, ⟨rfl, rfl⟩, rfl⟩

theorem resolve_unmatched_infers_showing :
    ∃ result left,
      (resolve .default showingInt (.var ⟨0, 0⟩) [showing] "show").Returns Env.empty.created
        result left ∧
      result.kind = "CannotReconcileSelfType" ∧
      (∀ v, Env.empty.created.Live v → left.value? v ≠ Env.empty.created.value? v →
        Env.empty.created.value? v = none ∧
          ∃ t ∈ .var ⟨0, 0⟩ :: showingInt.types, v ∈ (Env.empty.created.resolve t).vars) ∧
      ¬∀ v, Env.empty.created.Live v → left.value? v = Env.empty.created.value? v := by
  obtain ⟨selfType, ref, left, hrun, hvalue⟩ := exists_showing_run
  obtain ⟨-, hchanged, hsame⟩ :=
    resolve_unmatched_infers ⟨[], .fresh .empty⟩ hrun (by simp)
  refine ⟨_, left, hrun, rfl, hchanged, ?_⟩
  intro hnone
  have hopen := hsame.mp hnone (.var ⟨0, 0⟩) (by simp) ⟨0, 0⟩ (by decide) (by decide)
  rw [hvalue] at hopen
  cases hopen

/-- A call may infer something without finding a method. -/
theorem unmatched_call_keeps_inference :
    ¬∀ (config : Config) (program : Program) (receiver : Ty) (traits : List Trait) (name : Text)
      (env left : Env) (result : MethodResult), env.Reachable →
      (resolve config program receiver traits name).Returns env result left →
      (∀ ref m adjusted evidence, result ≠ .found ref m adjusted evidence) →
      ∀ v, env.Live v → left.value? v = env.value? v := by
  intro h
  obtain ⟨selfType, ref, left, hrun, hvalue⟩ := exists_showing_run
  have hsame := h _ _ _ _ _ _ _ _ ⟨[], .fresh .empty⟩ hrun (by simp) ⟨0, 0⟩ (by decide)
  rw [hvalue] at hsame
  cases hsame

end MethodCall

end TraitResolution
