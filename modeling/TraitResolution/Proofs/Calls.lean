import Mathlib.Data.List.Induction
import TraitResolution.Proofs.Consistency

/-!
# Method calls, taken apart

What a method call does at each place: it goes on where no trait could provide the method, calls the
method of the one trait that could, or reports several. A call resolves the trait and then matches
the receiver type of the method with one place after the other. What does not match leaves no trace.
-/

namespace TraitResolution

namespace MethodCall

open Operation Engine

/-- A trait at the end of the scope is kept if it declares the method and its id is new. -/
theorem declaring_concat (ts : List Trait) (t : Trait) (name : Text) :
    declaring (ts ++ [t]) name =
      match t.method? name with
      | none => declaring ts name
      | some m =>
        if (declaring ts name).any (·.trait.id == t.id) then declaring ts name
        else declaring ts name ++ [⟨t, m⟩] := by
  cases hm : t.method? name with
  | none => simp [declaring, List.filterMap_append, hm]
  | some m => simp [declaring, List.filterMap_append, hm]

theorem mem_declaring_concat {ts : List Trait} {name : Text} {d : Declaration}
    (hd : d ∈ declaring ts name) (t : Trait) : d ∈ declaring (ts ++ [t]) name := by
  rw [declaring_concat]
  split
  · exact hd
  · split
    · exact hd
    · exact List.mem_append_left _ hd

/-- What declares a method is one of the traits in scope, and the method is its own of that name. -/
theorem mem_declaring {traits : List Trait} {name : Text} {d : Declaration}
    (hd : d ∈ declaring traits name) : d.trait ∈ traits ∧ d.trait.method? name = some d.method := by
  induction traits using List.reverseRecOn with
  | nil => cases hd
  | append_singleton ts t ih =>
      have hkept (h : d ∈ declaring ts name) :
          d.trait ∈ ts ++ [t] ∧ d.trait.method? name = some d.method :=
        ⟨List.mem_append_left _ (ih h).1, (ih h).2⟩
      rw [declaring_concat] at hd
      split at hd
      · exact hkept hd
      · rename_i m hm
        split at hd
        · exact hkept hd
        · rcases List.mem_append.mp hd with hd | hd
          · exact hkept hd
          · obtain rfl := List.mem_singleton.mp hd
            exact ⟨by simp, hm⟩

/-- Every id of a trait that declares the method is kept. -/
theorem exists_mem_declaring {traits : List Trait} {name : Text} {t : Trait} (ht : t ∈ traits)
    (hmethod : (t.method? name).isSome = true) :
    ∃ d ∈ declaring traits name, d.trait.id = t.id := by
  induction traits using List.reverseRecOn with
  | nil => cases ht
  | append_singleton ts u ih =>
      rcases List.mem_append.mp ht with ht | ht
      · obtain ⟨d, hd, hid⟩ := ih ht
        exact ⟨d, mem_declaring_concat hd u, hid⟩
      · obtain rfl := List.mem_singleton.mp ht
        obtain ⟨m, hm⟩ := Option.isSome_iff_exists.mp hmethod
        rw [declaring_concat, hm]
        simp only
        split
        · rename_i hany
          obtain ⟨d, hd, hid⟩ := List.any_eq_true.mp hany
          exact ⟨d, hd, by simpa using hid⟩
        · exact ⟨⟨t, m⟩, by simp, rfl⟩

namespace Lookup

variable {cx : Lookup} {place input made : Place} {d : Declaration} {env left : Env} {target : Ty}
  {evidence : Resolution} {result : MethodResult}

theorem derefHolds_eq_true {r : Resolution} :
    derefHolds r = true ↔ r.noImpl = [] ∧ r.confirmed ≠ [] := by
  simp [derefHolds]

theorem returns_resolveTrait {self : Ty} {t : Trait} {p : Reference × Resolution} :
    (cx.resolveTrait self t).Returns env p left ↔
      ∃ params mid, (freshTypes t.arity).Returns env params mid ∧ p.1 = ⟨t.id, self, params⟩ ∧
        (cx.resolveRef "method" p.1).Returns mid p.2 left := by
  simp only [resolveTrait, returns_bind, returns_pure]
  constructor
  · rintro ⟨params, mid, hparams, r, _, hresolve, rfl, rfl⟩
    exact ⟨params, mid, hparams, rfl, hresolve⟩
  · rintro ⟨params, mid, hparams, hp, hresolve⟩
    rw [hp] at hresolve
    exact ⟨params, mid, hparams, p.2, left, hresolve, by rw [← hp], rfl⟩

theorem returns_makeMutable_shared
    (h : (cx.makeMutable (.deref .shared input target evidence)).Returns env (some made) left) :
    ∃ input' mid r, (cx.makeMutable input).Returns env (some input') mid ∧
      (cx.resolveRef "deref_mut" (Place.derefRef .mutable input' target)).Returns mid r left ∧
      derefHolds r = true ∧ made = .deref .mutable input' target r := by
  rw [makeMutable, returns_bind] at h
  obtain ⟨input?, mid, hinput, h⟩ := h
  cases input? with
  | none => cases (returns_pure.mp h).1
  | some input' =>
      simp only [returns_bind, returns_ite, returns_report, returns_pure] at h
      obtain ⟨r, last, hresolve, ⟨hholds, hmade, rfl⟩ | ⟨-, _, _, -, hnone, -⟩⟩ := h
      · exact ⟨input', mid, r, hinput, hresolve, hholds, Option.some.inj hmade⟩
      · cases hnone

/-- How the receiver type of a method is matched with places: with the first of them that it
accepts as it is, shared or mutable. If a place would have to be mutable and cannot be, the match is
undone. -/
inductive Reconciled (cx : Lookup) (m : Method) (ref : Reference) (evidence : Resolution)
    (selfType : Ty) (env : Env) : List Place → MethodResult → Env → Prop
  | exhausted : Reconciled cx m ref evidence selfType env [] (.cannotReconcile selfType ref) env
  | byValue {place : Place} {rest : List Place} {left : Env}
      (hunify : (unify selfType place.type).Returns env true left) :
      Reconciled cx m ref evidence selfType env (place :: rest)
        (.found ref m ⟨place, .byValue⟩ evidence) left
  | shared {place : Place} {rest : List Place} {left : Env}
      (hunify : (unify selfType place.type.sharedRef).Returns env true left) :
      Reconciled cx m ref evidence selfType env (place :: rest)
        (.found ref m ⟨place, .shared⟩ evidence) left
  | mutable {place made : Place} {rest : List Place} {mid left : Env}
      (hunify : (unify selfType place.type.mutRef).Returns env true mid)
      (hmade : (cx.makeMutable place).Returns mid (some made) left) :
      Reconciled cx m ref evidence selfType env (place :: rest)
        (.found ref m ⟨made, .mutable⟩ evidence) left
  | immutable {place : Place} {rest : List Place} {mid gone : Env}
      (hunify : (unify selfType place.type.mutRef).Returns env true mid)
      (hmade : (cx.makeMutable place).Returns mid none gone) :
      Reconciled cx m ref evidence selfType env (place :: rest) (.cannotRefMut place) env
  | peeled {place : Place} {rest : List Place} {result : MethodResult} {left : Env}
      (hbyValue : (unify selfType place.type).Returns env false env)
      (hshared : (unify selfType place.type.sharedRef).Returns env false env)
      (hmutable : (unify selfType place.type.mutRef).Returns env false env)
      (hrest : Reconciled cx m ref evidence selfType env rest result left) :
      Reconciled cx m ref evidence selfType env (place :: rest) result left

theorem returns_unify_false {a b : Ty} (h : (unify a b).Returns env false left) : left = env := by
  have hne : ((unify a b).run env).outcome ≠ .ok true := by simp [h.1]
  exact h.2.symm.trans (allOrNothing_unify a b env hne)

theorem returns_attempt_unify_false {a b : Ty}
    (h : (attempt (unify a b)).Returns env false left) :
    (unify a b).Returns env false env ∧ left = env := by
  obtain ⟨⟨gone, hgone⟩, rfl⟩ := (returns_attempt_false (grows_unify a b)).mp h
  obtain rfl := returns_unify_false hgone
  exact ⟨hgone, rfl⟩

theorem reconciled_of_returns {m : Method} {ref : Reference} {selfType : Ty} {places : List Place}
    (h : (cx.reconcile m ref evidence selfType places).Returns env result left) :
    Reconciled cx m ref evidence selfType env places result left := by
  induction places generalizing env with
  | nil =>
      obtain ⟨rfl, rfl⟩ := returns_pure.mp h
      exact .exhausted
  | cons place rest ih =>
      rw [reconcile, returns_bind] at h
      obtain ⟨byValue, first, hbyValue, h⟩ := h
      rw [returns_ite, returns_pure] at h
      rcases h with ⟨rfl, rfl, rfl⟩ | ⟨hne, h⟩
      · exact .byValue ((returns_attempt_true (grows_unify _ _)).mp hbyValue)
      rw [Bool.eq_false_iff.mpr hne] at hbyValue
      obtain ⟨hbyValue, rfl⟩ := returns_attempt_unify_false hbyValue
      rw [returns_bind] at h
      obtain ⟨shared, second, hshared, h⟩ := h
      rw [returns_ite, returns_pure] at h
      rcases h with ⟨rfl, rfl, rfl⟩ | ⟨hne, h⟩
      · exact .shared ((returns_attempt_true (grows_unify _ _)).mp hshared)
      rw [Bool.eq_false_iff.mpr hne] at hshared
      obtain ⟨hshared, rfl⟩ := returns_attempt_unify_false hshared
      simp only [returns_bind, returns_present, returns_ite, returns_report] at h
      obtain ⟨_, _, ⟨rfl, rfl⟩, mutable, mid, hmutable,
        ⟨rfl, made?, last, hmade, h⟩ | ⟨hne, _, _, rfl, h⟩⟩ := h
      · cases made? with
        | some made =>
            obtain ⟨rfl, rfl⟩ := returns_pure.mp h
            exact .mutable hmutable hmade
        | none =>
            simp only [returns_bind, returns_rollback, returns_pure] at h
            obtain ⟨_, _, ⟨-, rfl⟩, rfl, rfl⟩ := h
            have hmid := hmutable.extends_env (grows_unify _ _)
            have hlast := hmade.extends_env (cx.grows_makeMutable place)
            rw [(hlast.trans hmid).restored_snapshot]
            exact .immutable hmutable hmade
      · rw [Bool.eq_false_iff.mpr hne] at hmutable
        obtain rfl := returns_unify_false hmutable
        exact .peeled hbyValue hshared hmutable (ih h)

/-- Matching the receiver type with places infers nothing unless a method is found. -/
theorem Reconciled.unmatched {m : Method} {ref : Reference} {evidence : Resolution} {selfType : Ty}
    {places : List Place} (h : Reconciled cx m ref evidence selfType env places result left)
    (hresult : ∀ ref m adjusted evidence, result ≠ .found ref m adjusted evidence) :
    left = env ∧ (result = .cannotReconcile selfType ref ∨
      ∃ place ∈ places, result = .cannotRefMut place) := by
  induction h with
  | exhausted => exact ⟨rfl, Or.inl rfl⟩
  | byValue | shared | mutable => exact absurd rfl (hresult _ _ _ _)
  | immutable => exact ⟨rfl, Or.inr ⟨_, List.mem_cons_self, rfl⟩⟩
  | peeled _ _ _ _ ih =>
      obtain ⟨hleft, hresult | ⟨place, hplace, hresult⟩⟩ := ih hresult
      · exact ⟨hleft, Or.inl hresult⟩
      · exact ⟨hleft, Or.inr ⟨place, List.mem_cons_of_mem _ hplace, hresult⟩⟩

theorem returns_call (h : (cx.call place d).Returns env result left) :
    ∃ ref evidence mid selfType,
      (cx.resolveTrait place.type d.trait).Returns env (ref, evidence) mid ∧ evidence.noImpl = [] ∧
      d.method.selfType.subst ref.types = .ok selfType ∧
      Reconciled cx d.method ref evidence selfType mid place.chain result left := by
  rw [call, returns_bind] at h
  obtain ⟨⟨ref, evidence⟩, mid, hresolve, h⟩ := h
  simp only [returns_ite, returns_bind, returns_ofSubst, not_returns_fail, and_false,
    or_false] at h
  obtain ⟨hempty, selfType, _, ⟨hsubst, rfl⟩, h⟩ := h
  exact ⟨ref, evidence, _, selfType, hresolve, List.isEmpty_iff.mp hempty, hsubst,
    reconciled_of_returns h⟩

/-- What a call does at a place, by how many traits could provide the method there. -/
inductive Chosen (cx : Lookup) (place : Place) (otherwise : Engine MethodResult) (env : Env) :
    MethodResult → Env → Prop
  | passed {result : MethodResult} {left : Env}
      (hnone : ∀ d ∈ cx.declarations, (cx.couldApply place d).Returns env false env)
      (hrest : otherwise.Returns env result left) : Chosen cx place otherwise env result left
  | called {d : Declaration} {result : MethodResult} {left : Env} (hd : d ∈ cx.declarations)
      (hcould : (cx.couldApply place d).Returns env true env)
      (hcall : (cx.call place d).Returns env result left) :
      Chosen cx place otherwise env result left
  | ambiguous (several : List Declaration) :
      Chosen cx place otherwise env (.ambiguous (several.map (·.trait))) env

theorem idle_couldApply (cx : Lookup) (place : Place) (d : Declaration) :
    (cx.couldApply place d).Idle env :=
  (probe_run ((cx.grows_resolveTrait _ _).bind fun _ => grows_pure _) env).2

/-- No declaration could provide the method exactly if every one is ruled out. -/
theorem returns_select_nil_iff :
    (select (cx.couldApply place) cx.declarations).Returns env [] env ↔
      ∀ d ∈ cx.declarations, (cx.couldApply place d).Returns env false env := by
  rw [returns_select_couldApply, and_iff_left rfl]
  constructor
  · rintro ⟨htests, hnil⟩ d hd
    obtain ⟨b, hb⟩ := htests d hd
    have hverdict := List.filter_eq_nil_iff.mp hnil.symm d hd
    rw [verdict_eq hb] at hverdict
    exact Bool.eq_false_iff.mpr hverdict ▸ hb
  · intro hfalse
    refine ⟨fun d hd => ⟨false, hfalse d hd⟩, (List.filter_eq_nil_iff.mpr fun d hd => ?_).symm⟩
    rw [verdict_eq (hfalse d hd)]
    exact Bool.false_ne_true

/-- What is done with the declarations that could provide the method. -/
theorem returns_choose {otherwise : Engine MethodResult} :
    (cx.choose place otherwise).Returns env result left ↔
      ∃ found, (select (cx.couldApply place) cx.declarations).Returns env found env ∧
        ((found = [] ∧ otherwise.Returns env result left) ∨
          (∃ d, found = [d] ∧ (cx.call place d).Returns env result left) ∨
          (2 ≤ found.length ∧ result = .ambiguous (found.map (·.trait)) ∧ left = env)) := by
  rw [choose, returns_bind]
  constructor
  · rintro ⟨found, mid, hselect, h⟩
    obtain rfl := (returns_select_couldApply.mp hselect).2
    refine ⟨found, hselect, ?_⟩
    rcases found with _ | ⟨d, _ | ⟨other, found⟩⟩
    · exact Or.inl ⟨rfl, h⟩
    · exact Or.inr (Or.inl ⟨d, rfl, h⟩)
    · rw [returns_report_bind, returns_pure] at h
      exact Or.inr (Or.inr ⟨by simp, h⟩)
  · rintro ⟨found, hselect, ⟨rfl, h⟩ | ⟨d, rfl, h⟩ | ⟨hlen, rfl, rfl⟩⟩
    · exact ⟨[], env, hselect, h⟩
    · exact ⟨[d], env, hselect, h⟩
    · refine ⟨found, left, hselect, ?_⟩
      rcases found with _ | ⟨d, _ | ⟨other, found⟩⟩
      · simp at hlen
      · simp at hlen
      · exact returns_report_bind.mpr (returns_pure.mpr ⟨rfl, rfl⟩)

theorem chosen_of_returns {otherwise : Engine MethodResult}
    (h : (cx.choose place otherwise).Returns env result left) :
    Chosen cx place otherwise env result left := by
  obtain ⟨found, hselect, ⟨rfl, hrest⟩ | ⟨d, rfl, hcall⟩ | ⟨-, rfl, rfl⟩⟩ := returns_choose.mp h
  · exact .passed (returns_select_nil_iff.mp hselect) hrest
  · obtain ⟨hd, hcould⟩ := couldApply_of_select hselect (List.mem_singleton_self d)
    exact .called hd hcould hcall
  · exact .ambiguous found

theorem returns_deref {next : Place → Engine MethodResult} :
    (cx.deref place next).Returns env result left ↔
      ∃ r mid, (cx.resolveRef "deref" (Place.derefRef .shared place (.var env.nextVar))).Returns
          env.created r mid ∧
        ((derefHolds r = true ∧
            (next (.deref .shared place (.var env.nextVar) r)).Returns mid result left) ∨
          (derefHolds r = false ∧ result = .cannotDeref place.type ∧ left = mid)) := by
  simp only [deref, returns_bind, returns_fresh, returns_ite, returns_report, returns_pure,
    Bool.not_eq_true, exists_eq_left, exists_const]
  constructor
  · rintro ⟨_, _, ⟨rfl, rfl⟩, r, mid, hresolve, h⟩
    exact ⟨r, mid, hresolve, h⟩
  · rintro ⟨r, mid, hresolve, h⟩
    exact ⟨_, _, ⟨rfl, rfl⟩, r, mid, hresolve, h⟩

end Lookup

end MethodCall

end TraitResolution
