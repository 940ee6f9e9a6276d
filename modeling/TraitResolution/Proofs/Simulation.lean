import Mathlib.Data.List.Forall2
import TraitResolution.Proofs.Settling

/-!
# Resolution depends on solutions only

How an obligation is settled does not depend on the numbers of variables or on the order of
bindings. Two environments are tied by a relation of references when they have solutions that make
the same of all related references. Resolving related obligations then confirms the same impls and
finds the same obligations without an impl, and the environments that are left are tied again.

## Implementation notes

The relation grows along a run: the bounds of an impl that is applied on both sides are related from
then on, and what was related before stays so. Whether the types of a reference are known, which
looks at bindings, is expressed by solutions too: all of them make the same of the reference.
-/

namespace TraitResolution

variable {env env' left left' : Env} {R S : Reference → Reference → Prop} {r s : Reference}

/-- The types of a reference are known exactly when all solutions make the same of it. -/
theorem Env.Valid.fullyBound_iff_unique (h : env.Valid) : env.fullyBound r.types = true ↔
    ∀ {σ τ : Assignment}, σ.Solves env → τ.Solves env → σ.ref r = τ.ref r := by
  rw [Env.fullyBound_iff]
  constructor
  · intro hknown σ τ hσ hτ
    refine Reference.replaceVars_eq_iff.mpr ⟨rfl, List.map_congr_left fun t ht => ?_⟩
    rw [← hσ.resolve t, ← hτ.resolve t]
    apply Ty.replaceVars_congr
    intro v hv
    rw [hknown t ht] at hv
    exact absurd hv List.not_mem_nil
  · intro hunique t ht
    apply List.eq_nil_iff_forall_not_mem.mpr
    intro v hv
    let one : Assignment := ⟨fun _ => .con "one" [], fun _ => by decide⟩
    let two : Assignment := ⟨fun _ => .con "two" [], fun _ => by decide⟩
    have heq := hunique (one.solves_completing h) (two.solves_completing h)
    have htypes := List.map_inj_left.mp (Reference.replaceVars_eq_iff.mp heq).2 t ht
    rw [Env.resolve_eq_replaceVars] at hv
    obtain ⟨w, hw, hv⟩ := Ty.mem_vars_replaceVars.mp hv
    have hanswer := Ty.replaceVars_eq_iff.mp htypes w hw
    have hsame : Ty.con "one" [] = .con "two" [] := Ty.replaceVars_eq_iff.mp hanswer v hv
    exact absurd hsame (by decide)

/-- What each solution of one environment makes of the related references, some solution of the
other makes of them too, and the other way round. -/
structure Tied (env env' : Env) (R : Reference → Reference → Prop) : Prop where
  valid : env.Valid
  valid' : env'.Valid
  covers : ∀ {r s}, R r s → env.CoversRef r
  covers' : ∀ {r s}, R r s → env'.CoversRef s
  forth : ∀ {σ : Assignment}, σ.Solves env →
    ∃ τ : Assignment, τ.Solves env' ∧ ∀ {r s}, R r s → σ.ref r = τ.ref s
  back : ∀ {τ : Assignment}, τ.Solves env' →
    ∃ σ : Assignment, σ.Solves env ∧ ∀ {r s}, R r s → σ.ref r = τ.ref s

namespace Tied

theorem symm (h : Tied env env' R) : Tied env' env fun s r => R r s where
  valid := h.valid'
  valid' := h.valid
  covers := h.covers'
  covers' := h.covers
  forth hσ := by
    obtain ⟨τ, hτ, heq⟩ := h.back hσ
    exact ⟨τ, hτ, fun hR => (heq hR).symm⟩
  back hτ := by
    obtain ⟨σ, hσ, heq⟩ := h.forth hτ
    exact ⟨σ, hσ, fun hR => (heq hR).symm⟩

theorem mono (h : Tied env env' R) (hS : ∀ {r s}, S r s → R r s) : Tied env env' S where
  valid := h.valid
  valid' := h.valid'
  covers hrs := h.covers (hS hrs)
  covers' hrs := h.covers' (hS hrs)
  forth hσ := by
    obtain ⟨τ, hτ, heq⟩ := h.forth hσ
    exact ⟨τ, hτ, fun hrs => heq (hS hrs)⟩
  back hτ := by
    obtain ⟨σ, hσ, heq⟩ := h.back hτ
    exact ⟨σ, hσ, fun hrs => heq (hS hrs)⟩

theorem trans {env'' : Env} (h : Tied env env' R) (h' : Tied env' env'' S) :
    Tied env env'' fun r t => ∃ s, R r s ∧ S s t where
  valid := h.valid
  valid' := h'.valid'
  covers := fun ⟨_, hR, _⟩ => h.covers hR
  covers' := fun ⟨_, _, hS⟩ => h'.covers' hS
  forth hσ := by
    obtain ⟨τ, hτ, heq⟩ := h.forth hσ
    obtain ⟨ρ, hρ, heq'⟩ := h'.forth hτ
    exact ⟨ρ, hρ, fun ⟨_, hR, hS⟩ => (heq hR).trans (heq' hS)⟩
  back hρ := by
    obtain ⟨τ, hτ, heq⟩ := h'.back hρ
    obtain ⟨σ, hσ, heq'⟩ := h.back hτ
    exact ⟨σ, hσ, fun ⟨_, hR, hS⟩ => (heq' hR).trans (heq hS)⟩

/-- Related references have the same trait. -/
theorem id_eq (h : Tied env env' R) (hR : R r s) : r.id = s.id := by
  obtain ⟨σ, hσ⟩ := h.valid.exists_solves
  obtain ⟨τ, -, heq⟩ := h.forth hσ
  exact (Reference.replaceVars_eq_iff.mp (heq hR)).1

theorem fullyBound_of (h : Tied env env' R) (hR : R r s) (hknown : env.fullyBound r.types = true) :
    env'.fullyBound s.types = true := by
  apply h.valid'.fullyBound_iff_unique.mpr
  intro σ τ hσ hτ
  obtain ⟨σ', hσ', heq⟩ := h.back hσ
  obtain ⟨τ', hτ', heq'⟩ := h.back hτ
  calc
    σ.ref s = σ'.ref r := (heq hR).symm
    _ = τ'.ref r := h.valid.fullyBound_iff_unique.mp hknown hσ' hτ'
    _ = τ.ref s := heq' hR

theorem fullyBound_eq (h : Tied env env' R) (hR : R r s) :
    env.fullyBound r.types = env'.fullyBound s.types :=
  Bool.eq_iff_iff.mpr ⟨h.fullyBound_of hR, h.symm.fullyBound_of hR⟩

section Apply

open Solver Operation Engine

variable {impl : Impl} {o o' : Obligation} {vars vars' : List Ty} {bounds bounds' : List Reference}

/-- An impl that can be applied on one side is not refused on the other. -/
theorem not_refused (h : Tied env env' R) (hR : R o.trait o'.trait) (himpl : impl.VarFree)
    (hid : impl.trait.id = o.trait.id) (happly : (apply impl o).Returns env (some vars) left) :
    ¬(apply impl o').Returns env' none left' := by
  intro hrefused
  have happlied := applied_of_returns h.valid himpl hid (h.covers hR) happly
  obtain ⟨σ, hσ⟩ := happlied.valid.exists_solves
  obtain ⟨hsolves, himplements⟩ := (happlied.solves_iff himpl).mp hσ
  obtain ⟨τ, hτ, heq⟩ := h.forth hsolves
  rw [heq hR] at himplements
  exact not_implements_of_returns h.valid' himpl (h.covers' hR) hrefused hτ _ himplements

/-- A solution after an impl was applied on one side has a counterpart on the other, with the same
types for the impl's parameters. -/
theorem forth_applied (h : Tied env env' R) (hR : R o.trait o'.trait) (himpl : impl.VarFree)
    (happlied : Applied env impl o vars left) (happlied' : Applied env' impl o' vars' left')
    {σ : Assignment} (hσ : σ.Solves left) : ∃ τ : Assignment, τ.Solves left' ∧
      (∀ {r s}, R r s → σ.ref r = τ.ref s) ∧ vars.map σ.type = vars'.map τ.type := by
  obtain ⟨hsolves, himplements⟩ := (happlied.solves_iff himpl).mp hσ
  obtain ⟨τ, hτ, heq⟩ := h.forth hsolves
  rw [heq hR] at himplements
  obtain ⟨ρ, hagrees, hρ, hvars⟩ :=
    happlied'.exists_solves himpl h.valid' (h.covers' hR) hτ himplements
  refine ⟨ρ, hρ, fun {r s} hrs => ?_, hvars.symm⟩
  calc
    σ.ref r = τ.ref s := heq hrs
    _ = ρ.ref s := (hagrees.ref_eq (h.covers' hrs)).symm

/-- The references related before, and the bounds of an impl on the two sides. -/
def withBounds (R : Reference → Reference → Prop) (bounds bounds' : List Reference)
    (r s : Reference) : Prop :=
  R r s ∨ (r, s) ∈ bounds.zip bounds'

theorem withBounds_eq {σ τ : Assignment} (hR : ∀ {r s}, R r s → σ.ref r = τ.ref s)
    (hbounds : bounds.map σ.ref = bounds'.map τ.ref) (h : withBounds R bounds bounds' r s) :
    σ.ref r = τ.ref s := by
  rcases h with h | h
  · exact hR h
  · rw [← List.forall₂_eq_eq_eq, List.forall₂_map_left_iff, List.forall₂_map_right_iff] at hbounds
    exact List.forall₂_zip hbounds h

variable (h : Tied env env' R) (hR : R o.trait o'.trait) (himpl : impl.VarFree)
  (happlied : Applied env impl o vars left) (happlied' : Applied env' impl o' vars' left')
  (hbounds : impl.boundsWith vars = .ok bounds) (hbounds' : impl.boundsWith vars' = .ok bounds')

include h hR himpl happlied happlied' hbounds hbounds'

theorem forth_bounds {σ : Assignment} (hσ : σ.Solves left) : ∃ τ : Assignment, τ.Solves left' ∧
    (∀ {r s}, R r s → σ.ref r = τ.ref s) ∧ bounds.map σ.ref = bounds'.map τ.ref := by
  obtain ⟨τ, hτ, heq, hvars⟩ := h.forth_applied hR himpl happlied happlied' hσ
  refine ⟨τ, hτ, heq, ?_⟩
  have hinstances := happlied.boundsWith_type himpl hbounds σ
  rw [hvars, happlied'.boundsWith_type himpl hbounds' τ] at hinstances
  exact (Except.ok.inj hinstances).symm

theorem length_bounds_eq : bounds.length = bounds'.length := by
  obtain ⟨σ, hσ⟩ := happlied.valid.exists_solves
  obtain ⟨τ, -, -, hmap⟩ :=
    h.forth_bounds hR himpl happlied happlied' hbounds hbounds' hσ
  simpa using congrArg List.length hmap

/-- Applying one impl on both sides relates its bounds as well. -/
theorem applied : Tied left left' (withBounds R bounds bounds') where
  valid := happlied.valid
  valid' := happlied'.valid
  covers {r s} hrs := by
    rcases hrs with hrs | hrs
    · exact fun t ht => happlied.extends_env.covers (h.covers hrs t ht)
    · exact happlied.covers_bounds himpl hbounds r (List.of_mem_zip hrs).1
  covers' {r s} hrs := by
    rcases hrs with hrs | hrs
    · exact fun t ht => happlied'.extends_env.covers (h.covers' hrs t ht)
    · exact happlied'.covers_bounds himpl hbounds' s (List.of_mem_zip hrs).2
  forth hσ := by
    obtain ⟨τ, hτ, heq, hmap⟩ :=
      h.forth_bounds hR himpl happlied happlied' hbounds hbounds' hσ
    exact ⟨τ, hτ, withBounds_eq heq hmap⟩
  back hτ := by
    obtain ⟨σ, hσ, heq, hmap⟩ :=
      h.symm.forth_bounds hR himpl happlied' happlied hbounds' hbounds hτ
    exact ⟨σ, hσ, withBounds_eq (fun hrs => (heq hrs).symm) hmap.symm⟩

end Apply

end Tied

/-- Obligations of the same depth with related references. -/
def Matches (R : Reference → Reference → Prop) (o o' : Obligation) : Prop :=
  o.depth = o'.depth ∧ R o.trait o'.trait

theorem Matches.mono {o o' : Obligation} (h : Matches R o o') (hS : ∀ {r s}, R r s → S r s) :
    Matches S o o' :=
  ⟨h.1, hS h.2⟩

/-- How many generations are given is up to the depths of the obligations. -/
theorem generations_eq_of_matches {os os' : List Obligation} (maxDepth : Int)
    (h : List.Forall₂ (Matches R) os os') :
    Solver.generations maxDepth os = Solver.generations maxDepth os' := by
  unfold Solver.generations
  split
  · induction h with
    | nil => rfl
    | cons hmatch _ ih => rw [List.foldr_cons, List.foldr_cons, hmatch.1, ih]
  · rfl

theorem matches_nestedAll {o o' : Obligation} {bounds bounds' : List Reference}
    (hdepth : o.depth = o'.depth) (hlen : bounds.length = bounds'.length) :
    List.Forall₂ (Matches (Tied.withBounds R bounds bounds')) (o.nestedAll bounds)
      (o'.nestedAll bounds') := by
  refine List.forall₂_iff_get.mpr ⟨by simp [Obligation.nestedAll, hlen], fun i hi hi' => ?_⟩
  simp only [Obligation.nestedAll, List.length_mapIdx] at hi hi'
  refine ⟨by simp [Obligation.nestedAll, Obligation.nested, hdepth], Or.inr ?_⟩
  refine List.mem_iff_getElem.mpr ⟨i, by simp [hi, hi'], ?_⟩
  simp [Obligation.nestedAll, Obligation.nested]

/-- Two resolutions in which the same impls were confirmed, and as many obligations ended up in each
of the other buckets. -/
structure Resolution.Mirrors (a b : Resolution) : Prop where
  confirmed : a.confirmed.map (·.impl) = b.confirmed.map (·.impl)
  deferred : a.deferred.length = b.deferred.length
  overflow : a.overflow.length = b.overflow.length
  noImpl : a.noImpl.length = b.noImpl.length

theorem Resolution.Mirrors.append {a b c d : Resolution} (h : a.Mirrors b) (h' : c.Mirrors d) :
    (a ++ c).Mirrors (b ++ d) := by
  have hlength : ∀ {α : Type} {x y z w : List α}, x.length = y.length → z.length = w.length →
      (x ++ z).length = (y ++ w).length := by
    intro α x y z w hxy hzw
    rw [List.length_append, List.length_append, hxy, hzw]
  refine ⟨?_, hlength h.deferred h'.deferred, hlength h.overflow h'.overflow,
    hlength h.noImpl h'.noImpl⟩
  change (a.confirmed ++ c.confirmed).map _ = (b.confirmed ++ d.confirmed).map _
  rw [List.map_append, List.map_append, h.confirmed, h'.confirmed]

theorem Resolution.Mirrors.noImpl_eq_nil_iff {a b : Resolution} (h : a.Mirrors b) :
    a.noImpl = [] ↔ b.noImpl = [] := by
  rw [← List.length_eq_zero_iff, h.noImpl, List.length_eq_zero_iff]

namespace Tied

open Solver Operation Engine

variable {program : Program} {speculate : List Obligation → Engine Resolution} {impl : Impl}
  {o o' : Obligation} {os os' : List Obligation} {b b' : Bool} {maxDepth : Int} {n : Nat}

theorem unifies_eq (h : Tied env env' R) (hR : R o.trait o'.trait) (himpl : impl.VarFree)
    (hid : impl.trait.id = o.trait.id) (hb : (unifies o impl).Returns env b left)
    (hb' : (unifies o' impl).Returns env' b' left') : b = b' := by
  obtain ⟨⟨vars?, gone, happly, rfl⟩, -⟩ := returns_unifies.mp hb
  obtain ⟨⟨vars?', gone', happly', rfl⟩, -⟩ := returns_unifies.mp hb'
  have hid' : impl.trait.id = o'.trait.id := hid.trans (h.id_eq hR)
  cases vars? with
  | none =>
      cases vars?' with
      | none => rfl
      | some vars' => exact absurd happly (h.symm.not_refused hR himpl hid' happly')
  | some vars =>
      cases vars?' with
      | none => exact absurd happly' (h.not_refused hR himpl hid happly)
      | some vars' => rfl

section Candidates

variable (hs : ∀ os, (speculate os).Grows)
  (hmirrors : ∀ {R env env' os os' r r' left left'}, Tied env env' R →
    List.Forall₂ (Matches R) os os' → (speculate os).Returns env r left →
    (speculate os').Returns env' r' left' → r.Mirrors r')

include hs hmirrors

theorem viable_eq (h : Tied env env' R) (hmatches : Matches R o o') (himpl : impl.VarFree)
    (hid : impl.trait.id = o.trait.id) (hb : (viable speculate o impl).Returns env b left)
    (hb' : (viable speculate o' impl).Returns env' b' left') : b = b' := by
  obtain ⟨hdepth, hR⟩ := hmatches
  have hid' : impl.trait.id = o'.trait.id := hid.trans (h.id_eq hR)
  obtain ⟨⟨gone, hweigh⟩, -⟩ := (returns_viable hs).mp hb
  obtain ⟨⟨gone', hweigh'⟩, -⟩ := (returns_viable hs).mp hb'
  rcases returns_weigh.mp hweigh with ⟨happly, rfl⟩ |
    ⟨vars, mid, bounds, r, happly, hbounds, hspeculate, rfl⟩
  · rcases returns_weigh.mp hweigh' with ⟨-, rfl⟩ | ⟨vars', _, _, _, happly', _⟩
    · rfl
    · exact absurd happly (h.symm.not_refused hR himpl hid' happly')
  · rcases returns_weigh.mp hweigh' with ⟨happly', rfl⟩ |
      ⟨vars', mid', bounds', r', happly', hbounds', hspeculate', rfl⟩
    · exact absurd happly' (h.not_refused hR himpl hid happly)
    · have happlied := applied_of_returns h.valid himpl hid (h.covers hR) happly
      have happlied' := applied_of_returns h.valid' himpl hid' (h.covers' hR) happly'
      have htied := h.applied hR himpl happlied happlied' hbounds hbounds'
      have hlen := h.length_bounds_eq hR himpl happlied happlied' hbounds hbounds'
      have hresult := hmirrors htied (matches_nestedAll hdepth hlen) hspeculate hspeculate'
      rw [Bool.eq_iff_iff, List.isEmpty_iff, List.isEmpty_iff]
      exact hresult.noImpl_eq_nil_iff

/-- Matching obligations have the same candidates. -/
theorem candidates_eq (h : Tied env env' R) (hprogram : program.VarFree)
    (hmatches : Matches R o o') {cs cs' : List Impl}
    (hcs : (candidates program speculate o).Returns env cs env)
    (hcs' : (candidates program speculate o').Returns env' cs' env') : cs = cs' := by
  obtain ⟨⟨htests, hweighed, rfl⟩, -⟩ := (returns_candidates hs).mp hcs
  obtain ⟨⟨htests', hweighed', rfl⟩, -⟩ := (returns_candidates hs).mp hcs'
  have hid := h.id_eq hmatches.2
  have hunifiable : unifiable program o env = unifiable program o' env' := by
    rw [unifiable, unifiable, ← hid]
    apply List.filter_congr
    intro impl himpl
    obtain ⟨hmem, hidImpl⟩ := Program.mem_implsOf.mp himpl
    obtain ⟨b, hb⟩ := htests impl himpl
    obtain ⟨b', hb'⟩ := htests' impl (hid ▸ himpl)
    rw [verdict_eq hb, verdict_eq hb']
    exact h.unifies_eq hmatches.2 (hprogram impl hmem) hidImpl hb hb'
  rw [contenders, contenders, ← hunifiable]
  rw [← hunifiable] at hweighed'
  by_cases hone : (unifiable program o env).length = 1
  · rw [if_pos hone, if_pos hone]
  · rw [if_neg hone, if_neg hone]
    apply List.filter_congr
    intro impl himpl
    obtain ⟨hmem, hidImpl⟩ := Program.mem_implsOf.mp (List.mem_of_mem_filter himpl)
    obtain ⟨b, hb⟩ := hweighed hone impl himpl
    obtain ⟨b', hb'⟩ := hweighed' hone impl himpl
    rw [verdict_eq hb, verdict_eq hb']
    exact h.viable_eq hs hmirrors hmatches (hprogram impl hmem) hidImpl hb hb'

end Candidates

/-- Where a run has taken two tied environments: what was related still is, and so are now the
obligations that arose on the two sides. -/
def After (R : Reference → Reference → Prop) (left left' : Env) (nested nested' : List Obligation) :
    Prop :=
  ∃ S : Reference → Reference → Prop, (∀ {r s}, R r s → S r s) ∧ Tied left left' S ∧
    List.Forall₂ (Matches S) nested nested'

theorem after_refl (h : Tied env env' R) : After R env env' [] [] :=
  ⟨R, fun hR => hR, h, .nil⟩

/-- The same candidates lead to the same decision. -/
theorem decided (h : Tied env env' R) (hmatches : Matches R o o') {cs : List Impl}
    (hcs : ∀ impl ∈ cs, impl.VarFree ∧ impl.trait.id = o.trait.id)
    {x x' : Resolution × List Obligation} (hx : Decided o env cs x left)
    (hx' : Decided o' env' cs x' left') : x.1.Mirrors x'.1 ∧ After R left left' x.2 x'.2 := by
  have hknown := h.fullyBound_eq hmatches.2
  cases hx with
  | confirmed happly hbounds =>
      cases hx' with
      | confirmed happly' hbounds' =>
          obtain ⟨hdepth, hR⟩ := hmatches
          obtain ⟨himpl, hid⟩ := hcs _ (List.mem_singleton.mpr rfl)
          have hid' := hid.trans (h.id_eq hR)
          have happlied := applied_of_returns h.valid himpl hid (h.covers hR) happly
          have happlied' := applied_of_returns h.valid' himpl hid' (h.covers' hR) happly'
          have hlen := h.length_bounds_eq hR himpl happlied happlied' hbounds hbounds'
          refine ⟨⟨rfl, rfl, rfl, rfl⟩, _, Or.inl,
            h.applied hR himpl happlied happlied' hbounds hbounds', ?_⟩
          exact matches_nestedAll hdepth hlen
  | noImpl hbound =>
      cases hx' with
      | noImpl => exact ⟨⟨rfl, rfl, rfl, rfl⟩, h.after_refl⟩
      | notEnoughTypes hopen => simp [hknown, hopen] at hbound
  | notEnoughTypes hopen =>
      cases hx' with
      | noImpl hbound => simp [hknown, hbound] at hopen
      | notEnoughTypes => exact ⟨⟨rfl, rfl, rfl, rfl⟩, h.after_refl⟩
  | ambiguous first second others =>
      cases hx' with
      | ambiguous => exact ⟨⟨rfl, rfl, rfl, rfl⟩, h.after_refl⟩

/-- Matching obligations are settled the same way. -/
theorem settled (hs : ∀ os, (speculate os).Grows)
    (hmirrors : ∀ {R env env' os os' r r' left left'}, Tied env env' R →
      List.Forall₂ (Matches R) os os' → (speculate os).Returns env r left →
      (speculate os').Returns env' r' left' → r.Mirrors r')
    (h : Tied env env' R) (hprogram : program.VarFree) (hmatches : Matches R o o')
    {x x' : Resolution × List Obligation} (hx : Settled maxDepth program speculate o env x left)
    (hx' : Settled maxDepth program speculate o' env' x' left') :
    x.1.Mirrors x'.1 ∧ After R left left' x.2 x'.2 := by
  have hbeyond : beyond maxDepth o = beyond maxDepth o' := by rw [beyond, beyond, hmatches.1]
  cases hx with
  | overflow hdepth =>
      cases hx' with
      | overflow => exact ⟨⟨rfl, rfl, rfl, rfl⟩, h.after_refl⟩
      | decided hdepth' => simp [hbeyond, hdepth'] at hdepth
  | decided hdepth hcs hdecided =>
      cases hx' with
      | overflow hdepth' => simp [hbeyond, hdepth'] at hdepth
      | decided _ hcs' hdecided' =>
          obtain rfl := h.candidates_eq hs hmirrors hprogram hmatches hcs hcs'
          refine h.decided hmatches (fun impl himpl => ?_) hdecided hdecided'
          obtain ⟨hmem, hid⟩ := mem_impls_of_mem_candidates hs hcs himpl
          exact ⟨hprogram impl hmem, hid⟩

theorem settleAll {settleOne : Obligation → Engine (Resolution × List Obligation)}
    (hstep : ∀ {R env env' o o' x x' left left'}, Tied env env' R → Matches R o o' →
      (settleOne o).Returns env x left → (settleOne o').Returns env' x' left' →
      x.1.Mirrors x'.1 ∧ After R left left' x.2 x'.2)
    (h : Tied env env' R) (hmatches : List.Forall₂ (Matches R) os os')
    {x x' : Resolution × List Obligation} (hx : (Solver.settleAll settleOne os).Returns env x left)
    (hx' : (Solver.settleAll settleOne os').Returns env' x' left') :
    x.1.Mirrors x'.1 ∧ After R left left' x.2 x'.2 := by
  induction os generalizing R env env' os' x x' with
  | nil =>
      cases hmatches
      obtain ⟨rfl, rfl⟩ := returns_settleAll_nil.mp hx
      obtain ⟨rfl, rfl⟩ := returns_settleAll_nil.mp hx'
      exact ⟨⟨rfl, rfl, rfl, rfl⟩, h.after_refl⟩
  | cons o os ih =>
      obtain ⟨o', os', hmatch, hrest, rfl⟩ := List.forall₂_cons_left_iff.mp hmatches
      obtain ⟨r, nested, mid, rs, rest, hone, hall, rfl⟩ := returns_settleAll_cons.mp hx
      obtain ⟨r', nested', mid', rs', rest', hone', hall', rfl⟩ := returns_settleAll_cons.mp hx'
      obtain ⟨hr, S, hS, htied, hnested⟩ := hstep h hmatch hone hone'
      have hlater : List.Forall₂ (Matches S) os os' := hrest.imp fun _ _ hm => hm.mono hS
      obtain ⟨hrs, T, hT, htied', hrest'⟩ := ih htied hlater hall hall'
      refine ⟨hr.append hrs, T, fun hrs => hT (hS hrs), htied', ?_⟩
      exact List.rel_append (hnested.imp fun _ _ hm => hm.mono hT) hrest'

/-- Resolving matching obligations confirms the same impls, and leaves tied environments. -/
theorem resolveWithin {r r' : Resolution} (h : Tied env env' R) (hprogram : program.VarFree)
    (hmatches : List.Forall₂ (Matches R) os os')
    (hr : (Solver.resolveWithin maxDepth program n os).Returns env r left)
    (hr' : (Solver.resolveWithin maxDepth program n os').Returns env' r' left') :
    r.Mirrors r' ∧ Tied left left' R := by
  induction n generalizing R env env' os os' r r' left left' with
  | zero =>
      obtain ⟨-, rfl, rfl⟩ := returns_resolveWithin_zero.mp hr
      obtain ⟨-, rfl, rfl⟩ := returns_resolveWithin_zero.mp hr'
      exact ⟨⟨rfl, rfl, hmatches.length_eq, rfl⟩, h⟩
  | succ n ih =>
      obtain ⟨first, nested, mid, rest, hall, hrest, rfl⟩ := returns_resolveWithin_succ.mp hr
      obtain ⟨first', nested', mid', rest', hall', hrest', rfl⟩ := returns_resolveWithin_succ.mp hr'
      have hs := grows_resolveWithin maxDepth program n
      have hgeneration : first.Mirrors first' ∧ After R mid mid' nested nested' := by
        refine h.settleAll (fun h hmatch hx hx' => ?_) hmatches hall hall'
        exact settled hs (fun h hmatches hr hr' => (ih h hmatches hr hr').1) h hprogram hmatch
          ((returns_settle hs).mp hx) ((returns_settle hs).mp hx')
      obtain ⟨hfirst, S, hS, htied, hnested⟩ := hgeneration
      obtain ⟨hlast, htied'⟩ := ih htied hnested hrest hrest'
      exact ⟨hfirst.append hlast, htied'.mono hS⟩

theorem resolve {config : Config} {r r' : Resolution} (h : Tied env env' R)
    (hprogram : program.VarFree) (hmatches : List.Forall₂ (Matches R) os os')
    (hr : (Solver.resolve config program os).Returns env r left)
    (hr' : (Solver.resolve config program os').Returns env' r' left') :
    r.Mirrors r' ∧ Tied left left' R := by
  rw [Solver.resolve] at hr hr'
  rw [← generations_eq_of_matches _ hmatches] at hr'
  exact h.resolveWithin hprogram hmatches hr hr'

end Tied

end TraitResolution
