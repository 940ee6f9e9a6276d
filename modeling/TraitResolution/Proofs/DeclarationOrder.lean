import Mathlib.Data.List.Permutation
import TraitResolution.Proofs.ImplOrder
import TraitResolution.Proofs.Overlap
import TraitResolution.Proofs.Simulation

/-!
# Conflicts and the order of declarations

When impls are declared in another order, some pairs of them are compared the other way round. The
bounds of the impl that comes first are resolved in the environment in which those of the second are
then looked at. What they infer there can turn the verdict on the bounds of the second. The reported
conflicts agree, read as unordered pairs, exactly when for each pair that is compared the other way
round either both impls turn the verdict on each other or neither does.

## Implementation notes

The two comparisons of a pair number their variables differently. They are tied by what solutions
make of the bounds of the two impls, so each verdict is one about the pair, in whatever environment
the two impls are joined.
-/

namespace TraitResolution

namespace Coherence

open Operation Engine

variable {config : Config} {program p q : Program} {impl a b : Impl} {v w v' w' : List Ty}
  {env env' next next' left left' : Env} {os os' : List Obligation} {r r' s s' : Resolution}

/-- Two references that come from one bound of an impl, with other types for its parameters. -/
def FromBound (impl : Impl) (v v' : List Ty) (x y : Reference) : Prop :=
  ∃ bound ∈ impl.params.flatten, bound.subst v = .ok x ∧ bound.subst v' = .ok y

namespace FromBound

variable {x y : Reference} (h : FromBound impl v v' x y)

include h

theorem refl : FromBound impl v v x x := by
  obtain ⟨bound, hbound, hx, -⟩ := h
  exact ⟨bound, hbound, hx, hx⟩

theorem symm : FromBound impl v' v y x := by
  obtain ⟨bound, hbound, hx, hy⟩ := h
  exact ⟨bound, hbound, hy, hx⟩

theorem covers (himpl : impl.VarFree) (hv : Usable env v) : env.CoversRef x := by
  obtain ⟨bound, hbound, hx, -⟩ := h
  exact Solver.covers_subst (himpl.2 bound hbound) (fun t ht => (hv t ht).1) hx

/-- Where the parameters stand for the same types, so do the two references. -/
theorem ref_eq (himpl : impl.VarFree) (hv : Usable env v) (hv' : Usable env' v')
    {σ τ : Assignment} (heq : v.map σ.type = v'.map τ.type) : σ.ref x = τ.ref y := by
  obtain ⟨bound, hbound, hx, hy⟩ := h
  have hinstance : ∀ {vars env ref}, Usable env vars → bound.subst vars = .ok ref →
      ∀ ρ : Assignment, bound.subst (vars.map ρ.type) = .ok (ρ.ref ref) :=
    fun hvars hsubst ρ => Reference.subst_map_replaceVars
      (fun t ht => (ρ.ground_type (hvars t ht).2).notParam) (himpl.2 bound hbound) hsubst
  apply Except.ok.inj (ε := SubstError)
  calc
    Except.ok (σ.ref x) = bound.subst (v.map σ.type) := (hinstance hv hx σ).symm
    _ = bound.subst (v'.map τ.type) := by rw [heq]
    _ = .ok (τ.ref y) := hinstance hv' hy τ

end FromBound

theorem forall₂_of_mapM {bounds : List Reference} {xs ys : List Reference}
    (hxs : bounds.mapM (·.subst v) = .ok xs) (hys : bounds.mapM (·.subst v') = .ok ys) :
    List.Forall₂ (fun x y => ∃ bound ∈ bounds, bound.subst v = .ok x ∧ bound.subst v' = .ok y)
      xs ys := by
  induction bounds generalizing xs ys with
  | nil =>
      obtain rfl : xs = [] := (Except.ok.inj hxs).symm
      obtain rfl : ys = [] := (Except.ok.inj hys).symm
      exact .nil
  | cons bound bounds ih =>
      obtain ⟨x, xs, hx, hrest, rfl⟩ := mapM_cons_eq_ok.mp hxs
      obtain ⟨y, ys, hy, hrest', rfl⟩ := mapM_cons_eq_ok.mp hys
      refine .cons ⟨bound, List.mem_cons_self, hx, hy⟩ ((ih hrest hrest').imp fun x y h => ?_)
      obtain ⟨other, hother, hsubst⟩ := h
      exact ⟨other, List.mem_cons_of_mem _ hother, hsubst⟩

/-- The obligations of the bounds of an impl match, whatever its parameters stand for. -/
theorem matches_boundObligations (hos : boundObligations impl v = .ok os)
    (hos' : boundObligations impl v' = .ok os') :
    List.Forall₂ (Matches (FromBound impl v v')) os os' := by
  obtain ⟨hbounds, hdepth⟩ := boundObligations_eq_ok hos
  obtain ⟨hbounds', hdepth'⟩ := boundObligations_eq_ok hos'
  have hrefs := forall₂_of_mapM hbounds hbounds'
  rw [List.forall₂_map_left_iff, List.forall₂_map_right_iff] at hrefs
  refine List.forall₂_iff_zip.mpr ⟨hrefs.length_eq, fun {o o'} ho => ⟨?_, ?_⟩⟩
  · rw [hdepth o (List.of_mem_zip ho).1, hdepth' o' (List.of_mem_zip ho).2]
  · exact List.forall₂_zip hrefs ho

theorem ResolvesBounds.exists_boundsWith (h : ResolvesBounds config program impl v env r left) :
    ∃ bounds, impl.boundsWith v = .ok bounds := by
  obtain ⟨os, hos, -⟩ := h
  exact ⟨_, (boundObligations_eq_ok hos).1⟩

/-- The bounds of an impl, resolved in two environments that are tied on them, get the same verdict,
and the environments that are left are tied on what they were before. -/
theorem ResolvesBounds.noImpl_iff {R : Reference → Reference → Prop} (h : Tied env env' R)
    (hR : ∀ {x y}, FromBound impl v v' x y → R x y) (hprogram : program.VarFree)
    (hr : ResolvesBounds config program impl v env r left)
    (hr' : ResolvesBounds config program impl v' env' r' left') :
    (r.noImpl = [] ↔ r'.noImpl = []) ∧ Tied left left' R := by
  obtain ⟨os, hos, hresolve⟩ := hr
  obtain ⟨os', hos', hresolve'⟩ := hr'
  have hmatches : List.Forall₂ (Matches R) os os' :=
    (matches_boundObligations hos hos').imp fun _ _ hmatch => hmatch.mono hR
  obtain ⟨hmirrors, htied⟩ := h.resolve hprogram hmatches hresolve hresolve'
  exact ⟨hmirrors.noImpl_eq_nil_iff, htied⟩

namespace Joined

theorem symm (h : Joined a b v w env) : Joined b a w v env where
  valid := h.valid
  usableFirst := h.usableSecond
  usableSecond := h.usableFirst
  implements hσ := by
    obtain ⟨ref, hfirst, hsecond⟩ := h.implements hσ
    exact ⟨ref, hsecond, hfirst⟩
  exists_solves hrs hrs' := by
    obtain ⟨σ, hσ, hfirst, hsecond⟩ := h.exists_solves hrs' hrs
    exact ⟨σ, hσ, hsecond, hfirst⟩

/-- What two impls are in one environment that joins them, they are in every other. -/
theorem forth (h : Joined a b v w env) (h' : Joined a b v' w' env') {σ : Assignment}
    (hσ : σ.Solves env) : ∃ τ : Assignment, τ.Solves env' ∧ v.map σ.type = v'.map τ.type ∧
      w.map σ.type = w'.map τ.type := by
  obtain ⟨ref, hfirst, hsecond⟩ := h.implements hσ
  obtain ⟨τ, hτ, hv, hw⟩ := h'.exists_solves hfirst hsecond
  exact ⟨τ, hτ, hv.symm, hw.symm⟩

/-- Two environments that join two impls are tied on the bounds of both. -/
theorem tied (h : Joined a b v w env) (h' : Joined a b v' w' env') (ha : a.VarFree)
    (hb : b.VarFree) :
    Tied env env' fun x y => FromBound a v v' x y ∨ FromBound b w w' x y where
  valid := h.valid
  valid' := h'.valid
  covers hxy := by
    rcases hxy with hxy | hxy
    · exact hxy.covers ha h.usableFirst
    · exact hxy.covers hb h.usableSecond
  covers' hxy := by
    rcases hxy with hxy | hxy
    · exact hxy.symm.covers ha h'.usableFirst
    · exact hxy.symm.covers hb h'.usableSecond
  forth hσ := by
    obtain ⟨τ, hτ, hv, hw⟩ := h.forth h' hσ
    refine ⟨τ, hτ, fun {x y} hxy => ?_⟩
    rcases hxy with hxy | hxy
    · exact hxy.ref_eq ha h.usableFirst h'.usableFirst hv
    · exact hxy.ref_eq hb h.usableSecond h'.usableSecond hw
  back hτ := by
    obtain ⟨σ, hσ, hv, hw⟩ := h'.forth h hτ
    refine ⟨σ, hσ, fun {x y} hxy => ?_⟩
    rcases hxy with hxy | hxy
    · exact hxy.ref_eq ha h.usableFirst h'.usableFirst hv.symm
    · exact hxy.ref_eq hb h.usableSecond h'.usableSecond hw.symm

theorem not_disjoint (h : Joined a b v w env)
    (hdisjoint : ∀ {rs rs' ref}, a.Implements rs ref → ¬b.Implements rs' ref) : False := by
  obtain ⟨σ, hσ⟩ := h.valid.exists_solves
  obtain ⟨ref, hfirst, hsecond⟩ := h.implements hσ
  exact hdisjoint hfirst hsecond

end Joined

/-- Impls that can be joined have been, and the bounds of the first have been resolved. -/
theorem Compared.exists_resolvesBounds {x : Bool} (h : Compared config program a b x)
    (hjoined : Joined a b v w env) : ∃ mid r next, Joins a b mid ∧
      ResolvesBounds config program a (leftVars a) mid r next := by
  cases h with
  | disjoint hdisjoint => exact (hjoined.not_disjoint hdisjoint).elim
  | refuted hjoins hresolves => exact ⟨_, _, _, hjoins, hresolves⟩
  | resolved hjoins hresolves => exact ⟨_, _, _, hjoins, hresolves⟩

/-- Where two impls are joined, the bounds of the first are not known to fail. -/
def BoundsHold (config : Config) (program : Program) (first second : Impl) : Prop :=
  ∃ v w env r left, Joined first second v w env ∧
    ResolvesBounds config program first v env r left ∧ r.noImpl = []

/-- Where two impls are joined and the bounds of the first have been resolved, those of the second
are not known to fail. -/
def BoundsHoldAfter (config : Config) (program : Program) (first second : Impl) : Prop :=
  ∃ v w env r next r' left, Joined first second v w env ∧
    ResolvesBounds config program first v env r next ∧
    ResolvesBounds config program second w next r' left ∧ r'.noImpl = []

section Verdicts

variable (hprogram : program.VarFree) (ha : a.VarFree) (hb : b.VarFree)
  (hjoined : Joined a b v w env) (hr : ResolvesBounds config program a v env r next)

include hprogram ha hb hjoined hr

/-- The verdict on the bounds of an impl is the same wherever it is joined with another. -/
theorem boundsHold_iff : BoundsHold config program a b ↔ r.noImpl = [] := by
  constructor
  · rintro ⟨v', w', env', r', left', hjoined', hr', hnoImpl⟩
    exact (hr.noImpl_iff (hjoined.tied hjoined' ha hb) Or.inl hprogram hr').1.mpr hnoImpl
  · intro hnoImpl
    exact ⟨v, w, env, r, next, hjoined, hr, hnoImpl⟩

theorem boundsHoldAfter_iff (hs : ResolvesBounds config program b w next s left) :
    BoundsHoldAfter config program a b ↔ s.noImpl = [] := by
  constructor
  · rintro ⟨v', w', env', r', next', s', left', hjoined', hr', hs', hnoImpl⟩
    obtain ⟨-, htied⟩ := hr.noImpl_iff (hjoined.tied hjoined' ha hb) Or.inl hprogram hr'
    exact (hs.noImpl_iff htied Or.inr hprogram hs').1.mpr hnoImpl
  · intro hnoImpl
    exact ⟨v, w, env, r, next, s, left, hjoined, hr, hs, hnoImpl⟩

end Verdicts

/-- The comparison finds an overlap when the bounds of the first impl could hold, and those of the
second could hold after them. -/
theorem Compared.eq_true_iff {x : Bool} (h : Compared config program a b x)
    (hprogram : program.VarFree) (ha : a.VarFree) (hb : b.VarFree)
    (hid : a.trait.id = b.trait.id) :
    x = true ↔ BoundsHold config program a b ∧ BoundsHoldAfter config program a b := by
  cases h with
  | disjoint hdisjoint =>
      apply iff_of_false Bool.false_ne_true
      rintro ⟨⟨v, w, env, r, left, hjoined, -⟩, -⟩
      exact hjoined.not_disjoint hdisjoint
  | refuted hjoins hresolves hnoImpl =>
      have hjoined := hjoins.joined ha hb hid
      rw [boundsHold_iff hprogram ha hb hjoined hresolves]
      exact iff_of_false Bool.false_ne_true fun h => hnoImpl h.1
  | resolved hjoins hresolves hnoImpl hresolves' =>
      have hjoined := hjoins.joined ha hb hid
      rw [boundsHold_iff hprogram ha hb hjoined hresolves,
        boundsHoldAfter_iff hprogram ha hb hjoined hresolves hresolves', List.isEmpty_iff]
      exact ⟨fun h => ⟨hnoImpl, h⟩, fun h => h.2⟩

/-- The bounds of the first impl could hold, and resolving them turns the verdict on those of the
second. -/
def Sways (config : Config) (program : Program) (first second : Impl) : Prop :=
  BoundsHold config program first second ∧
    ¬(BoundsHold config program second first ↔ BoundsHoldAfter config program first second)

/-- Resolving the bounds of the first impl rules out some instance of the bounds of the second. -/
def Narrows (config : Config) (program : Program) (first second : Impl) : Prop :=
  ∃ v w env r next, Joined first second v w env ∧
    ResolvesBounds config program first v env r next ∧ ∃ σ : Assignment, σ.Solves env ∧
      ∀ τ : Assignment, τ.Solves next →
        second.boundsWith (w.map τ.type) ≠ second.boundsWith (w.map σ.type)

section Swapped

variable (hprogram : program.VarFree) (ha : a.VarFree) (hb : b.VarFree)

include hprogram ha hb

/-- Where the bounds of one impl rule out nothing about those of another, the environments before
and after they are resolved are tied on the latter. -/
theorem tied_of_not_narrows (hnarrows : ¬Narrows config program a b) (hjoined : Joined a b v w env)
    (hr : ResolvesBounds config program a v env r next) {bounds : List Reference}
    (hbounds : b.boundsWith w = .ok bounds) : Tied next env (FromBound b w w) := by
  have hprogress := hr.progress hprogram ha hjoined.valid hjoined.usableFirst
  have hlater := hjoined.usableSecond.of_extends hprogress.extends_env
  refine ⟨hprogress.valid, hjoined.valid, fun h => h.covers hb hlater,
    fun h => h.symm.covers hb hjoined.usableSecond, fun {σ} hσ => ?_, fun {τ} hτ => ?_⟩
  · exact ⟨σ, hσ.of_extends hprogress.extends_env, fun h => h.ref_eq hb hlater hlater rfl⟩
  · by_contra hnone
    refine hnarrows ⟨v, w, env, r, next, hjoined, hr, τ, hτ, fun σ hσ heq => hnone ⟨σ, hσ, ?_⟩⟩
    rw [hlater.boundsWith_type hb hbounds, hlater.boundsWith_type hb hbounds] at heq
    have hmap := List.map_inj_left.mp (Except.ok.inj heq)
    rintro x y ⟨bound, hbound, hx, hy⟩
    obtain rfl : x = y := Except.ok.inj (hx.symm.trans hy)
    exact hmap x (mem_of_mapM hbounds hbound hx)

/-- What turns the verdict on the bounds of an impl has ruled out some instance of them. -/
theorem Sways.narrows {x y : Bool} (h : Sways config program a b)
    (hab : Compared config program a b x) (hba : Compared config program b a y)
    (hid : a.trait.id = b.trait.id) : Narrows config program a b := by
  obtain ⟨hhold, hturned⟩ := h
  by_contra hnarrows
  cases hab with
  | disjoint hdisjoint =>
      obtain ⟨v, w, env, r, left, hjoined, -⟩ := hhold
      exact hjoined.not_disjoint hdisjoint
  | refuted hjoins hresolves hnoImpl =>
      have hjoined := hjoins.joined ha hb hid
      exact hnoImpl ((boundsHold_iff hprogram ha hb hjoined hresolves).mp hhold)
  | resolved hjoins hresolves hnoImpl hresolves' =>
      have hjoined := hjoins.joined ha hb hid
      obtain ⟨mid', r', next', hjoins', hfirst⟩ := hba.exists_resolvesBounds hjoined.symm
      have hjoined' := hjoins'.joined hb ha hid.symm
      obtain ⟨bounds, hbounds⟩ := hresolves'.exists_boundsWith
      have hbefore := tied_of_not_narrows hprogram ha hb hnarrows hjoined hresolves hbounds
      have hacross := (hjoined.tied hjoined'.symm ha hb).mono Or.inr
      have hverdict := (hresolves'.noImpl_iff (hbefore.trans hacross)
        (fun h => ⟨_, h.refl, h⟩) hprogram hfirst).1
      apply hturned
      rw [boundsHold_iff hprogram hb ha hjoined' hfirst,
        boundsHoldAfter_iff hprogram ha hb hjoined hresolves hresolves', hverdict]

/-- The two comparisons of a pair of impls agree exactly when either both impls turn the verdict on
each other or neither does. -/
theorem Compared.comm_iff {x y : Bool} (hab : Compared config program a b x)
    (hba : Compared config program b a y) (hid : a.trait.id = b.trait.id) :
    x = y ↔ (Sways config program a b ↔ Sways config program b a) := by
  have hx := hab.eq_true_iff hprogram ha hb hid
  have hy := hba.eq_true_iff hprogram hb ha hid.symm
  rw [Bool.eq_iff_iff, hx, hy, Sways, Sways]
  by_cases hhold : BoundsHold config program a b
  · by_cases hhold' : BoundsHold config program b a
    · simp [hhold, hhold', not_iff_not]
    · simp [hhold, hhold']
  · simp [hhold]

/-- Impls that apply to one ground reference do not turn the verdict on each other. -/
theorem Sways.not_appliesTo {x y : Bool} (h : Sways config program a b)
    (hab : Compared config program a b x) (hba : Compared config program b a y) {ref : Reference}
    (happlies : a.AppliesTo program ref) : ¬b.AppliesTo program ref := by
  intro happlies'
  have hid : a.trait.id = b.trait.id := happlies.id_eq.symm.trans happlies'.id_eq
  have hx := hab.eq_true_of_appliesTo hprogram ha hb happlies happlies'
  have hy := hba.eq_true_of_appliesTo hprogram hb ha happlies' happlies
  obtain ⟨-, hafter⟩ := (hab.eq_true_iff hprogram ha hb hid).mp hx
  obtain ⟨hhold, -⟩ := (hba.eq_true_iff hprogram hb ha hid.symm).mp hy
  exact h.2 (iff_of_true hhold hafter)

end Swapped

section Permuted

variable {l l' : List Impl} {cs ds : List Conflict}

theorem returns_boundsCouldHold_perm (hperm : p.impls.Perm q.impls) {x : Bool} :
    (boundsCouldHold config p impl v).Returns env x left ↔
      (boundsCouldHold config q impl v).Returns env x left := by
  simp only [returns_boundsCouldHold, ResolvesBounds, Solver.returns_resolve_perm hperm]

/-- Two impls are compared the same way whatever the order of the impls around them. -/
theorem returns_overlap_perm (hperm : p.impls.Perm q.impls) {x : Bool} :
    (overlap config p a b).Returns env x left ↔ (overlap config q a b).Returns env x left := by
  rw [overlap, overlap]
  simp only [returns_bind, returns_ite, returns_boundsCouldHold_perm hperm]

/-- A conflict between two impls is reported, in whatever order. -/
def Reported (cs : List Conflict) (x y : Text) : Prop :=
  ⟨x, y⟩ ∈ cs ∨ ⟨y, x⟩ ∈ cs

theorem Reported.symm {x y : Text} (h : Reported cs x y) : Reported cs y x :=
  Or.symm h

/-- Two impls of one trait that stand the other way round in another program. -/
def Reversed (p q : Program) (a b : Impl) : Prop :=
  [a, b].Sublist p.impls ∧ [b, a].Sublist q.impls ∧ a.trait.id = b.trait.id

theorem Reversed.varFree (h : Reversed p q a b) (hp : p.VarFree) : a.VarFree ∧ b.VarFree :=
  ⟨hp a (h.1.subset (by simp)), hp b (h.1.subset (by simp))⟩

/-- The conflicts are the overlapping pairs of a list of impls. -/
def ConflictsOf (config : Config) (program : Program) (l : List Impl) (cs : List Conflict) : Prop :=
  ∀ {c : Conflict}, c ∈ cs ↔ ∃ a b : Impl, [a, b].Sublist l ∧ a.trait.id = b.trait.id ∧
    Overlaps config program a b ∧ c = ⟨a.id, b.id⟩

/-- Elements that stand in one order in a list stand in some order in a permutation of it. -/
theorem pair_sublist_of_perm (hperm : l.Perm l') (h : [a, b].Sublist l) :
    [a, b].Sublist l' ∨ [b, a].Sublist l' := by
  obtain ⟨pair, hpair, hsublist⟩ := h.subperm.trans hperm.subperm
  rcases List.perm_pair.mp hpair with rfl | rfl
  · exact Or.inl hsublist
  · exact Or.inr hsublist

/-- Without repetitions, two elements stand in one order only. -/
theorem not_sublist_swap (hnodup : l.Nodup) (h : [a, b].Sublist l) : ¬[b, a].Sublist l := by
  intro h'
  induction l with
  | nil => cases h
  | cons x l ih =>
      obtain ⟨hx, hl⟩ := List.nodup_cons.mp hnodup
      cases h with
      | cons _ h =>
          cases h' with
          | cons _ h' => exact ih hl h h'
          | cons_cons _ h' => exact hx (h.subset (by simp))
      | cons_cons _ h =>
          cases h' with
          | cons _ h' => exact hx (h'.subset (by simp))
          | cons_cons _ h' => exact hx (h.subset (by simp))

theorem reported_of_perm (hperm : l.Perm l') (hcs : ConflictsOf config program l cs)
    (hds : ConflictsOf config program l' ds)
    (hcomm : ∀ {a b : Impl}, [a, b].Sublist l → [b, a].Sublist l' → a.trait.id = b.trait.id →
      Overlaps config program a b → Overlaps config program b a) {x y : Text}
    (h : Reported cs x y) : Reported ds x y := by
  have hmem : ∀ {x y : Text}, ⟨x, y⟩ ∈ cs → Reported ds x y := by
    intro x y hxy
    obtain ⟨a, b, hab, hid, hoverlaps, heq⟩ := hcs.mp hxy
    obtain ⟨rfl, rfl⟩ := Conflict.mk.inj heq
    rcases pair_sublist_of_perm hperm hab with hsame | hswapped
    · exact Or.inl (hds.mpr ⟨a, b, hsame, hid, hoverlaps, rfl⟩)
    · exact Or.inr (hds.mpr ⟨b, a, hswapped, hid.symm, hcomm hab hswapped hid hoverlaps, rfl⟩)
  rcases h with h | h
  · exact hmem h
  · exact (hmem h).symm

/-- A reported pair of impls overlaps in the order in which it is declared. -/
theorem overlaps_of_reported (hids : (l.map (·.id)).Nodup) (hcs : ConflictsOf config program l cs)
    (hab : [a, b].Sublist l) (h : Reported cs a.id b.id) : Overlaps config program a b := by
  have ha : a ∈ l := hab.subset (by simp)
  have hb : b ∈ l := hab.subset (by simp)
  have hfound : ∀ {a b : Impl}, a ∈ l → b ∈ l → ⟨a.id, b.id⟩ ∈ cs →
      [a, b].Sublist l ∧ Overlaps config program a b := by
    intro a b ha hb hmem
    obtain ⟨c, d, hcd, -, hoverlaps, heq⟩ := hcs.mp hmem
    obtain ⟨hac, hbd⟩ := Conflict.mk.inj heq
    obtain rfl := List.inj_on_of_nodup_map hids ha (hcd.subset (by simp)) hac
    obtain rfl := List.inj_on_of_nodup_map hids hb (hcd.subset (by simp)) hbd
    exact ⟨hcd, hoverlaps⟩
  rcases h with h | h
  · exact (hfound ha hb h).2
  · exact absurd (hfound hb ha h).1 (not_sublist_swap hids.of_map hab)

theorem overlaps_perm (hperm : p.impls.Perm q.impls) :
    Overlaps config p a b ↔ Overlaps config q a b :=
  exists_congr fun _ => returns_overlap_perm hperm

theorem overlaps_iff {x : Bool} {own : Env} (h : (overlap config p a b).Returns .empty x own) :
    Overlaps config p a b ↔ x = true := by
  constructor
  · rintro ⟨own', h'⟩
    exact (h.unique h').1
  · rintro rfl
    exact ⟨own, h⟩

section Checked

variable (hp : p.VarFree) (hperm : p.impls.Perm q.impls)
  (hcs : (check config p).Returns env cs left) (hds : (check config q).Returns env' ds left')

include hp hperm hcs hds

/-- Impls that stand the other way round are compared both ways. -/
theorem Reversed.compared (h : Reversed p q a b) : ∃ x y, Compared config p a b x ∧
    Compared config p b a y ∧ (Overlaps config p a b ↔ x = true) ∧
    (Overlaps config p b a ↔ y = true) := by
  obtain ⟨ha, hb⟩ := h.varFree hp
  obtain ⟨hab, hba, hid⟩ := h
  obtain ⟨x, own, hx⟩ := (returns_check hcs).1 hab hid
  obtain ⟨y, own', hy⟩ := (returns_check hds).1 hba hid.symm
  rw [← returns_overlap_perm hperm] at hy
  exact ⟨x, y, compared_of_returns ha hb hx, compared_of_returns hb ha hy, overlaps_iff hx,
    overlaps_iff hy⟩

theorem Reversed.overlaps_comm_iff (h : Reversed p q a b) :
    (Overlaps config p a b ↔ Overlaps config p b a) ↔
      (Sways config p a b ↔ Sways config p b a) := by
  obtain ⟨ha, hb⟩ := h.varFree hp
  obtain ⟨x, y, hab, hba, hx, hy⟩ := h.compared hp hperm hcs hds
  rw [hx, hy, ← Bool.eq_iff_iff]
  exact hab.comm_iff hp ha hb hba h.2.2

end Checked

/-- Conflicts and the order of declarations. With the impls in another order, the check reports the
same conflicts exactly when for each pair of impls that is compared the other way round either both
turn the verdict on each other's bounds or neither does, and pair by pair this is when the two
comparisons agree. An impl turns that verdict only where resolving its bounds rules out some
instance of the other's, and never if both impls apply to one ground reference. -/
theorem conflicts_agree_iff (hp : p.VarFree) (hids : (p.impls.map (·.id)).Nodup)
    (hperm : p.impls.Perm q.impls) (hcs : (check config p).Returns env cs left)
    (hds : (check config q).Returns env' ds left') :
    ((∀ x y, Reported cs x y ↔ Reported ds x y) ↔
      ∀ a b, Reversed p q a b → (Sways config p a b ↔ Sways config p b a)) ∧
    (∀ a b, Reversed p q a b → ((Overlaps config p a b ↔ Overlaps config p b a) ↔
      (Sways config p a b ↔ Sways config p b a))) ∧
    ∀ a b, Reversed p q a b ∨ Reversed p q b a → Sways config p a b →
      Narrows config p a b ∧ ∀ ref, a.AppliesTo p ref → ¬b.AppliesTo p ref := by
  have hlisted : ConflictsOf config p p.impls cs := (returns_check hcs).2
  have hlisted' : ConflictsOf config p q.impls ds := by
    intro c
    simp only [overlaps_perm hperm]
    exact (returns_check hds).2
  have hids' : (q.impls.map (·.id)).Nodup := (hperm.map _).nodup_iff.mp hids
  have hcomm : ∀ a b, Reversed p q a b → ((Overlaps config p a b ↔ Overlaps config p b a) ↔
      (Sways config p a b ↔ Sways config p b a)) :=
    fun a b h => h.overlaps_comm_iff hp hperm hcs hds
  refine ⟨⟨?_, ?_⟩, hcomm, ?_⟩
  -- a pair that one list reports is found again in the other, in the order in which it stands there
  · intro hagree a b hreversed
    obtain ⟨hab, hba, hid⟩ := hreversed
    rw [← hcomm a b ⟨hab, hba, hid⟩]
    constructor
    · intro hoverlaps
      have hreported : Reported cs a.id b.id :=
        Or.inl (hlisted.mpr ⟨a, b, hab, hid, hoverlaps, rfl⟩)
      exact overlaps_of_reported hids' hlisted' hba ((hagree _ _).mp hreported).symm
    · intro hoverlaps
      have hreported : Reported ds a.id b.id :=
        Or.inr (hlisted'.mpr ⟨b, a, hba, hid.symm, hoverlaps, rfl⟩)
      exact overlaps_of_reported hids hlisted hab ((hagree _ _).mpr hreported)
  · intro hsways x y
    have hboth : ∀ {a b}, Reversed p q a b → (Overlaps config p a b ↔ Overlaps config p b a) :=
      fun h => (hcomm _ _ h).mpr (hsways _ _ h)
    constructor
    · exact reported_of_perm hperm hlisted hlisted'
        fun hab hba hid => (hboth ⟨hab, hba, hid⟩).mp
    · exact reported_of_perm hperm.symm hlisted' hlisted
        fun hba hab hid => (hboth ⟨hab, hba, hid.symm⟩).mpr
  · rintro a b (hreversed | hreversed) hsways
    · obtain ⟨ha, hb⟩ := hreversed.varFree hp
      obtain ⟨x, y, hab, hba, -⟩ := hreversed.compared hp hperm hcs hds
      exact ⟨hsways.narrows hp ha hb hab hba hreversed.2.2,
        fun ref => hsways.not_appliesTo hp ha hb hab hba⟩
    · obtain ⟨hb, ha⟩ := hreversed.varFree hp
      obtain ⟨y, x, hba, hab, -⟩ := hreversed.compared hp hperm hcs hds
      exact ⟨hsways.narrows hp ha hb hab hba hreversed.2.2.symm,
        fun ref => hsways.not_appliesTo hp ha hb hab hba⟩

/-- What is copied is stored as it is. -/
def storePlain : Impl :=
  ⟨"Plain", [[⟨"Copy", .param 0, []⟩]], ⟨"Store", .param 0, []⟩⟩

/-- What lives on the heap is stored in a box. -/
def storeBoxed : Impl :=
  ⟨"Boxed", [[⟨"Heap", .param 0, []⟩]], ⟨"Store", .param 0, []⟩⟩

def copyInt : Impl :=
  ⟨"CopyInt", [], ⟨"Copy", .con "Int" [], []⟩⟩

def heapText : Impl :=
  ⟨"HeapText", [], ⟨"Heap", .con "Text" [], []⟩⟩

def heapBytes : Impl :=
  ⟨"HeapBytes", [], ⟨"Heap", .con "Bytes" [], []⟩⟩

/-- A program in which one bound names a type at once and another leaves a choice. -/
def storing : Program :=
  ⟨[], [storePlain, storeBoxed, copyInt, heapText, heapBytes]⟩

/-- The same program with its first two impls exchanged. -/
def storingBoxedFirst : Program :=
  ⟨[], [storeBoxed, storePlain, copyInt, heapText, heapBytes]⟩

/-- The conflicts depend on the order of declarations: two impls are reported in one order and not
in the other. -/
theorem check_depends_on_declaration_order :
    storing.VarFree ∧ (storing.impls.map (·.id)).Nodup ∧
      storing.impls.Perm storingBoxedFirst.impls ∧
      (check .default storing).Returns .empty [] .empty ∧
      (check .default storingBoxedFirst).Returns .empty [⟨"Boxed", "Plain"⟩] .empty :=
  ⟨by decide, by decide, by decide, by decide +kernel, by decide +kernel⟩

/-- Of the two impls whose order matters, exactly one turns the verdict on the other's bounds. -/
theorem conflicts_agree_iff_storing : ¬(Sways .default storing storePlain storeBoxed ↔
    Sways .default storing storeBoxed storePlain) := by
  intro hsways
  have hcs : (check .default storing).Returns .empty [] .empty := by decide +kernel
  have hds : (check .default storingBoxedFirst).Returns .empty [⟨"Boxed", "Plain"⟩] .empty := by
    decide +kernel
  have honly : ∀ pair ∈ pairs storing.impls, (pair.2, pair.1) ∈ pairs storingBoxedFirst.impls →
      pair = (storePlain, storeBoxed) := by decide
  have hagree := (conflicts_agree_iff (by decide) (by decide) (by decide) hcs hds).1.mpr
    fun a b h => by
      obtain ⟨rfl, rfl⟩ := Prod.mk.inj (honly (a, b) (mem_pairs.mpr h.1) (mem_pairs.mpr h.2.1))
      exact hsways
  have hreported := (hagree "Boxed" "Plain").mpr (Or.inl List.mem_cons_self)
  exact hreported.elim List.not_mem_nil List.not_mem_nil

end Permuted

end Coherence

end TraitResolution
