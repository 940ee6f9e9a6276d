import TraitResolution.Proofs.Acyclicity
import TraitResolution.Proofs.Settling
import TraitResolution.Proofs.Speculation

/-!
# What a resolution can bind

A resolution binds variables of its obligations, of the impls, and those it creates itself. Where
such a variable is bound already, it may bind the variables of the value. Every other variable keeps
the value it had, so what a resolution infers can be read off the types it is given.

## Implementation notes

The variables that may be bound are given by a predicate `own` that contains every variable the
first environment does not have. Such a set is closed if the value of an own variable is over own
variables. This is kept while types over own variables are unified, and for the least closed set
that contains the variables of some types it holds to begin with.
-/

namespace TraitResolution

variable {own : Var → Prop}

/-- A type over some variables. -/
def Ty.Within (own : Var → Prop) (t : Ty) : Prop :=
  ∀ v ∈ t.vars, own v

/-- A reference over some variables. -/
def Reference.Within (own : Var → Prop) (r : Reference) : Prop :=
  ∀ t ∈ r.types, t.Within own

/-- Obligations over some variables. -/
def Obligation.AllWithin (own : Var → Prop) (os : List Obligation) : Prop :=
  ∀ o ∈ os, o.trait.Within own

theorem Reference.Within.subst {rs : List Ty} {r u : Reference} (hr : r.Within own)
    (hrs : ∀ t ∈ rs, t.Within own) (h : r.subst rs = .ok u) : u.Within own := by
  intro t ht v hv
  rcases mem_vars_subst h ⟨t, ht, hv⟩ with ⟨s, hs, hv⟩ | ⟨s, hs, hv⟩
  · exact hr s hs v hv
  · exact hrs s hs v hv

theorem Program.within_impl {program : Program} {impl : Impl}
    (h : ∀ t ∈ program.types, t.Within own) (himpl : impl ∈ program.impls) :
    ∀ r ∈ impl.trait :: impl.params.flatten, r.Within own :=
  fun _ hr t ht => h t (Program.mem_types himpl hr ht)

namespace Env

variable {base env later : Env} {v w : Var} {t : Ty} {ts : List Ty}

/-- All bindings made since `base` are of own variables, and own variables stand for types over own
variables. -/
structure Confined (own : Var → Prop) (base later : Env) : Prop where
  trail : ∃ newer, newer ++ base.trail = later.trail ∧ ∀ b ∈ newer, own b.var
  count : base.count ≤ later.count
  closed : ∀ b ∈ later.trail, own b.var → b.value.Within own

namespace Confined

/-- A variable that is not own keeps its value. -/
theorem value?_eq (h : Confined own base later) (hv : ¬own v) : later.value? v = base.value? v := by
  obtain ⟨newer, hnewer, hown⟩ := h.trail
  have hnone : newer.find? (·.var == v) = none := by
    rw [List.find?_eq_none]
    intro b hb heq
    obtain rfl : b.var = v := by simpa using heq
    exact hv (hown b hb)
  simp [value?, ← hnewer, List.find?_append, hnone]

theorem created (h : Confined own base env) : Confined own base env.created :=
  ⟨h.trail, Nat.le_succ_of_le h.count, h.closed⟩

theorem bound (h : Confined own base env) (hv : own v) (ht : t.Within own) :
    Confined own base (env.bound v t) where
  trail := by
    obtain ⟨newer, hnewer, hown⟩ := h.trail
    exact ⟨⟨v, t⟩ :: newer, by simp [Env.bound, hnewer], List.forall_mem_cons.mpr ⟨hv, hown⟩⟩
  count := h.count
  closed := List.forall_mem_cons.mpr ⟨fun _ => ht, h.closed⟩

theorem shallow (h : Confined own base env) (ht : t.Within own) : (env.shallow t).Within own := by
  apply shallow_of_values (P := Ty.Within own) ?_ ht
  intro v u hu hv
  exact h.closed ⟨v, u⟩ (mem_of_value? hu) (hv v (by simp))

/-- A variable that is created is own, since the first environment does not have it. -/
theorem own_nextVar (h : Confined own base env) (hnew : ∀ v, ¬base.Live v → own v) :
    own env.nextVar := by
  apply hnew
  rintro ⟨hlt, -⟩
  exact absurd h.count (Nat.not_le_of_lt hlt)

end Confined

/-- Unification binds own variables only. -/
theorem stable_confined (own : Var → Prop) (base : Env) :
    Engine.Stable (Confined own base) (Ty.Within own) where
  args _ ht a ha v hv := ht v (by simpa using ⟨a, ha, hv⟩)
  shallow henv ht := henv.shallow ht
  bound henv hv ht _ := henv.bound (hv _ (by simp)) ht

/-- The variables that may be bound where some types are resolved: those that do not exist yet, and
those that the types lead to. -/
def Touches (env : Env) (ts : List Ty) (v : Var) : Prop :=
  ¬env.Live v ∨ ∃ t ∈ ts, ∃ w ∈ t.vars, Relation.ReflTransGen env.Leads w v

theorem within_touches (ht : t ∈ ts) : t.Within (env.Touches ts) :=
  fun v hv => Or.inr ⟨t, ht, v, hv, .refl⟩

theorem confined_refl (henv : env.Valid) (ts : List Ty) : Confined (env.Touches ts) env env where
  trail := ⟨[], rfl, by simp⟩
  count := Nat.le_refl _
  closed := by
    intro b hb htouches w hw
    rcases htouches with hdead | ⟨t, ht, v, hv, hleads⟩
    · exact absurd (henv.live b hb).1 hdead
    · exact Or.inr ⟨t, ht, v, hv, hleads.tail ⟨b.value, henv.value?_of_mem hb, hw⟩⟩

/-- An unbound variable that a variable leads to occurs in what that variable stands for. -/
theorem mem_answer_of_leads (henv : env.Consistent) (hv : env.value? v = none)
    (h : Relation.ReflTransGen env.Leads w v) : v ∈ (env.answer w).vars := by
  induction h using Relation.ReflTransGen.head_induction_on with
  | refl => simp [answer_of_unbound hv]
  | head hlead _ ih =>
      obtain ⟨t, ht, hmem⟩ := hlead
      rw [henv.answer_of_value? ht, resolve_eq_replaceVars]
      exact Ty.mem_vars_replaceVars.mpr ⟨_, hmem, ih⟩

/-- A variable whose value changes was unbound, and occurs in one of the types once they are
resolved. -/
theorem Confined.mem_resolve_of_changed (h : Confined (base.Touches ts) base later)
    (hadds : later.Adds base) (hbase : base.Valid) (hv : base.Live v)
    (hne : later.value? v ≠ base.value? v) :
    base.value? v = none ∧ ∃ t ∈ ts, v ∈ (base.resolve t).vars := by
  -- newer bindings count only where there was none before
  have hnone : base.value? v = none := by
    obtain ⟨newer, -, hvalue⟩ := hadds.value?_eq
    rw [hvalue v]
    split
    · rfl
    · rename_i hold
      exact absurd (by rw [hvalue v, if_neg hold]) hne
  refine ⟨hnone, ?_⟩
  have htouches : base.Touches ts v := by
    by_contra htouches
    exact hne (h.value?_eq htouches)
  rcases htouches with hdead | ⟨t, ht, w, hw, hleads⟩
  · exact absurd hv hdead
  · refine ⟨t, ht, ?_⟩
    rw [resolve_eq_replaceVars]
    exact Ty.mem_vars_replaceVars.mpr
      ⟨w, hw, mem_answer_of_leads hbase.toConsistent hnone hleads⟩

end Env

namespace Solver

open Operation Engine

variable {program : Program} {speculate : List Obligation → Engine Resolution} {impl : Impl}
  {o : Obligation} {os : List Obligation} {base env left : Env} {maxDepth : Int} {n : Nat}

/-- Where a run leaves off that binds own variables only: the obligations that arise are over own
variables again. -/
structure Contained (own : Var → Prop) (base : Env) (nested : List Obligation) (left : Env) :
    Prop where
  confined : Env.Confined own base left
  within : Obligation.AllWithin own nested

theorem contained_nil (h : Env.Confined own base left) : Contained own base [] left :=
  ⟨h, by simp [Obligation.AllWithin]⟩

theorem freshTypes_confined {ts : List Ty} (hnew : ∀ v, ¬base.Live v → own v)
    (henv : Env.Confined own base env) (h : (freshTypes n).Returns env ts left) :
    Env.Confined own base left ∧ ∀ t ∈ ts, t.Within own := by
  induction n generalizing env ts with
  | zero =>
      obtain ⟨rfl, rfl⟩ := returns_pure.mp h
      exact ⟨henv, by simp⟩
  | succ n ih =>
      simp only [freshTypes, returns_bind, returns_fresh, returns_pure] at h
      obtain ⟨_, _, ⟨rfl, rfl⟩, ts, _, hrest, rfl, rfl⟩ := h
      obtain ⟨hleft, hts⟩ := ih henv.created hrest
      refine ⟨hleft, List.forall_mem_cons.mpr ⟨?_, hts⟩⟩
      intro v hv
      obtain rfl : v = env.nextVar := by simpa using hv
      exact henv.own_nextVar hnew

theorem unifyReferences_confined {r s : Reference} {b : Bool} (henv : Env.Confined own base env)
    (hr : r.Within own) (hs : s.Within own) (h : (unifyReferences r s).Returns env b left) :
    Env.Confined own base left := by
  cases b with
  | true => exact unifyReferences_stable (Env.stable_confined own base) henv hr hs h
  | false =>
      have hne : ((unifyReferences r s).run env).outcome ≠ .ok true := by simp [h.1]
      rw [← h.2, allOrNothing_unifyReferences r s env hne]
      exact henv

theorem apply_confined {vars : List Ty} (hnew : ∀ v, ¬base.Live v → own v)
    (henv : Env.Confined own base env) (himpl : impl.trait.Within own) (ho : o.trait.Within own)
    (h : (apply impl o).Returns env (some vars) left) :
    Env.Confined own base left ∧ ∀ t ∈ vars, t.Within own := by
  simp only [apply, instantiate, returns_bind, returns_pure, returns_ofSubst, Prod.exists] at h
  obtain ⟨_, _, _, ⟨vars', mid, hfresh, ref, _, ⟨hsubst, rfl⟩, ⟨rfl, rfl⟩, rfl⟩, b, last, hunify,
    h⟩ := h
  obtain ⟨hmid, hvars⟩ := freshTypes_confined hnew henv hfresh
  have hlast := unifyReferences_confined hmid (himpl.subst hvars hsubst) ho hunify
  simp only [returns_ite, returns_pure, Option.some.injEq, reduceCtorEq, false_and, and_false,
    or_false] at h
  obtain ⟨-, rfl, rfl⟩ := h
  exact ⟨hlast, hvars⟩

theorem Settled.contained {p : Resolution × List Obligation}
    (h : Settled maxDepth program speculate o env p left) (hs : ∀ os, (speculate os).Grows)
    (hprogram : ∀ t ∈ program.types, t.Within own) (hnew : ∀ v, ¬base.Live v → own v)
    (henv : Env.Confined own base env) (ho : o.trait.Within own) :
    Contained own base p.2 left := by
  cases h with
  | overflow hdepth => exact contained_nil henv
  | decided hdepth hcs hdecided =>
      cases hdecided with
      | @confirmed impl vars bounds _ happly hbounds =>
          obtain ⟨himpl, -⟩ := mem_impls_of_mem_candidates hs hcs (List.mem_singleton.mpr rfl)
          have hrefs := Program.within_impl hprogram himpl
          obtain ⟨hleft, hvars⟩ :=
            apply_confined hnew henv (hrefs _ List.mem_cons_self) ho happly
          refine ⟨hleft, Obligation.forall_mem_nestedAll.mpr fun b hb => ?_⟩
          obtain ⟨r, hr, hsubst⟩ := exists_of_mem_mapM hbounds hb
          exact (hrefs r (List.mem_cons_of_mem _ hr)).subst hvars hsubst
      | noImpl | notEnoughTypes | ambiguous => exact contained_nil henv

theorem settleAll_contained {settleOne : Obligation → Engine (Resolution × List Obligation)}
    (hstep : ∀ {o env p left}, Env.Confined own base env → o.trait.Within own →
      (settleOne o).Returns env p left → Contained own base p.2 left)
    (henv : Env.Confined own base env) (hos : Obligation.AllWithin own os)
    {p : Resolution × List Obligation} (h : (settleAll settleOne os).Returns env p left) :
    Contained own base p.2 left := by
  induction os generalizing env p with
  | nil =>
      obtain ⟨rfl, rfl⟩ := returns_settleAll_nil.mp h
      exact contained_nil henv
  | cons o os ih =>
      obtain ⟨r, nested, mid, rs, rest, hone, hall, rfl⟩ := returns_settleAll_cons.mp h
      obtain ⟨ho, hos⟩ := List.forall_mem_cons.mp hos
      have hfirst := hstep henv ho hone
      have hrest := ih hfirst.confined hos hall
      exact ⟨hrest.confined, List.forall_mem_append.mpr ⟨hfirst.within, hrest.within⟩⟩

/-- A resolution of obligations over own variables binds own variables only. -/
theorem resolveWithin_confined (hprogram : ∀ t ∈ program.types, t.Within own)
    (hnew : ∀ v, ¬base.Live v → own v) (henv : Env.Confined own base env)
    (hos : Obligation.AllWithin own os) {r : Resolution}
    (h : (resolveWithin maxDepth program n os).Returns env r left) :
    Env.Confined own base left := by
  induction n generalizing env os r with
  | zero =>
      obtain ⟨-, -, rfl⟩ := returns_resolveWithin_zero.mp h
      exact henv
  | succ n ih =>
      obtain ⟨first, nested, mid, rest, hall, hrest, rfl⟩ := returns_resolveWithin_succ.mp h
      have hs := grows_resolveWithin maxDepth program n
      have hmid : Contained own base nested mid :=
        settleAll_contained (fun henv ho h =>
          ((returns_settle hs).mp h).contained hs hprogram hnew henv ho) henv hos hall
      exact ih hmid.confined hmid.within hrest

end Solver

end TraitResolution
