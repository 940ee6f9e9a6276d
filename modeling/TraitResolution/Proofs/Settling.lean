import TraitResolution.Proofs.Application

/-!
# Settling obligations

Runs of the solver, taken apart. An obligation is settled in one of five ways, and only the one that
confirms it changes the environment. An impl is left out of the candidates only if it was refused,
or if a speculative resolution of its bounds found one without an impl. A resolution settles one
generation of obligations after the other.

## Implementation notes

The statements are equivalences where two runs are to be compared, and say everything about a run
that does not concern events.
-/

namespace TraitResolution

/-- The obligations that arise from bounds demand these bounds. -/
@[simp] theorem Obligation.map_trait_nestedAll (o : Obligation) (bounds : List Reference) :
    (o.nestedAll bounds).map (·.trait) = bounds := by
  apply List.ext_getElem (by simp [nestedAll])
  intro i hi hi'
  simp [nestedAll, nested]

theorem Obligation.forall_mem_nestedAll {o : Obligation} {bounds : List Reference}
    {P : Reference → Prop} : (∀ x ∈ o.nestedAll bounds, P x.trait) ↔ ∀ b ∈ bounds, P b := by
  rw [← List.forall_mem_map, map_trait_nestedAll]

namespace Env

variable {env later : Env} {os nested : List Obligation}

/-- Obligations over the variables of an environment. -/
def CoversAll (env : Env) (os : List Obligation) : Prop :=
  ∀ o ∈ os, env.CoversRef o.trait

instance (env : Env) (os : List Obligation) : Decidable (env.CoversAll os) :=
  inferInstanceAs (Decidable (∀ o ∈ os, env.CoversRef o.trait))

theorem Extends.coversAll (h : later.Extends env) (hos : env.CoversAll os) : later.CoversAll os :=
  fun o ho t ht => h.covers (hos o ho t ht)

theorem coversAll_append (hos : env.CoversAll os) (hnested : env.CoversAll nested) :
    env.CoversAll (os ++ nested) :=
  List.forall_mem_append.mpr ⟨hos, hnested⟩

theorem coversAll_nestedAll {o : Obligation} {bounds : List Reference}
    (h : ∀ b ∈ bounds, env.CoversRef b) : env.CoversAll (o.nestedAll bounds) :=
  Obligation.forall_mem_nestedAll.mpr h

end Env

namespace Solver

open Operation Engine

variable {program : Program} {speculate : List Obligation → Engine Resolution} {impl : Impl}
  {o : Obligation} {os nested : List Obligation} {env left : Env} {maxDepth : Int} {n : Nat}

/-- Weighing an impl fails where the impl is refused or a bound turns out to have no impl. -/
theorem returns_weigh {b : Bool} :
    (weigh speculate o impl).Returns env b left ↔
      ((apply impl o).Returns env none left ∧ b = false) ∨
        ∃ vars mid bounds r, (apply impl o).Returns env (some vars) mid ∧
          impl.boundsWith vars = .ok bounds ∧
          (speculate (o.nestedAll bounds)).Returns mid r left ∧ b = r.noImpl.isEmpty := by
  rw [weigh, returns_bind]
  constructor
  · rintro ⟨vars?, mid, happly, h⟩
    cases vars? with
    | none =>
        obtain ⟨rfl, rfl⟩ := returns_pure.mp h
        exact Or.inl ⟨happly, rfl⟩
    | some vars =>
        simp only [returns_bind, returns_pure, returns_boundsOf] at h
        obtain ⟨_, _, ⟨⟨bounds, hbounds, rfl⟩, rfl⟩, r, _, hspeculate, rfl, rfl⟩ := h
        exact Or.inr ⟨vars, _, bounds, r, happly, hbounds, hspeculate, rfl⟩
  · rintro (⟨happly, rfl⟩ | ⟨vars, mid, bounds, r, happly, hbounds, hspeculate, rfl⟩)
    · exact ⟨none, left, happly, returns_pure.mpr ⟨rfl, rfl⟩⟩
    · refine ⟨some vars, mid, happly, ?_⟩
      simp only [returns_bind, returns_pure, returns_boundsOf]
      exact ⟨_, _, ⟨⟨bounds, hbounds, rfl⟩, rfl⟩, r, left, hspeculate, rfl, rfl⟩

theorem mem_impls_of_mem_candidates (hs : ∀ os, (speculate os).Grows) {cs : List Impl}
    (h : (candidates program speculate o).Returns env cs left) (himpl : impl ∈ cs) :
    impl ∈ program.impls ∧ impl.trait.id = o.trait.id :=
  Program.mem_implsOf.mp (List.mem_of_mem_filter (mem_unifiable_of_mem_candidates hs h himpl))

/-- Why an impl is no candidate for an obligation. -/
inductive Rejected (speculate : List Obligation → Engine Resolution) (o : Obligation) (env : Env)
    (impl : Impl) : Prop
  | refused {gone : Env} (happly : (apply impl o).Returns env none gone)
  | unsatisfied {vars : List Ty} {mid gone : Env} {bounds : List Reference} {r : Resolution}
      (happly : (apply impl o).Returns env (some vars) mid)
      (hbounds : impl.boundsWith vars = .ok bounds)
      (hspeculate : (speculate (o.nestedAll bounds)).Returns mid r gone) (hnoImpl : r.noImpl ≠ [])

/-- Every impl of the trait is a candidate unless there is a reason against it. -/
theorem mem_candidates_or_rejected (hs : ∀ os, (speculate os).Grows) {cs : List Impl}
    (h : (candidates program speculate o).Returns env cs left) (himpl : impl ∈ program.impls)
    (hid : impl.trait.id = o.trait.id) : impl ∈ cs ∨ Rejected speculate o env impl := by
  obtain ⟨⟨htests, hweighed, rfl⟩, -⟩ := (returns_candidates hs).mp h
  have hmem := Program.mem_implsOf.mpr ⟨himpl, hid⟩
  obtain ⟨b, hb⟩ := htests impl hmem
  obtain ⟨⟨vars?, gone, happly, rfl⟩, -⟩ := returns_unifies.mp hb
  cases vars? with
  | none => exact Or.inr (.refused happly)
  | some vars =>
      have hunifiable : impl ∈ unifiable program o env :=
        List.mem_filter.mpr ⟨hmem, verdict_eq hb⟩
      by_cases hone : (unifiable program o env).length = 1
      · rw [contenders, if_pos hone]
        exact Or.inl hunifiable
      · obtain ⟨b, hb⟩ := hweighed hone impl hunifiable
        obtain ⟨⟨gone, hweigh⟩, -⟩ := (returns_viable hs).mp hb
        rcases returns_weigh.mp hweigh with ⟨happly, -⟩ |
          ⟨vars, mid, bounds, r, happly, hbounds, hspeculate, rfl⟩
        · exact Or.inr (.refused happly)
        · by_cases hnoImpl : r.noImpl = []
          · rw [contenders, if_neg hone]
            refine Or.inl (List.mem_filter.mpr ⟨hunifiable, ?_⟩)
            rw [verdict_eq hb, hnoImpl]
            rfl
          · exact Or.inr (.unsatisfied happly hbounds hspeculate hnoImpl)

/-- What becomes of an obligation with the given candidates. It is confirmed if there is one and
deferred if there are several; without candidates it depends on whether its types are known. -/
inductive Decided (o : Obligation) (env : Env) :
    List Impl → Resolution × List Obligation → Env → Prop
  | confirmed {impl : Impl} {vars : List Ty} {bounds : List Reference} {left : Env}
      (happly : (apply impl o).Returns env (some vars) left)
      (hbounds : impl.boundsWith vars = .ok bounds) :
      Decided o env [impl] (.ofConfirmed ⟨o, impl, vars⟩, o.nestedAll bounds) left
  | noImpl (hknown : env.fullyBound o.trait.types = true) :
      Decided o env [] (.ofNoImpl o, []) env
  | notEnoughTypes (hopen : env.fullyBound o.trait.types = false) :
      Decided o env [] (.ofDeferred o, []) env
  | ambiguous (first second : Impl) (others : List Impl) :
      Decided o env (first :: second :: others) (.ofDeferred o, []) env

/-- An obligation is settled by its depth or by its candidates. -/
inductive Settled (maxDepth : Int) (program : Program)
    (speculate : List Obligation → Engine Resolution) (o : Obligation) (env : Env) :
    Resolution × List Obligation → Env → Prop
  | overflow (hdepth : beyond maxDepth o = true) :
      Settled maxDepth program speculate o env (.ofOverflow [o], []) env
  | decided {cs : List Impl} {p : Resolution × List Obligation} {left : Env}
      (hdepth : beyond maxDepth o = false)
      (hcandidates : (candidates program speculate o).Returns env cs env)
      (hdecided : Decided o env cs p left) : Settled maxDepth program speculate o env p left

theorem returns_confirm {p : Resolution × List Obligation} :
    (confirm o impl).Returns env p left ↔
      ∃ vars bounds, (apply impl o).Returns env (some vars) left ∧
        impl.boundsWith vars = .ok bounds ∧
        p = (.ofConfirmed ⟨o, impl, vars⟩, o.nestedAll bounds) := by
  rw [confirm, returns_bind]
  constructor
  · rintro ⟨vars?, mid, happly, h⟩
    cases vars? with
    | none => exact absurd h not_returns_fail
    | some vars =>
        simp only [returns_bind, returns_pure, returns_boundsOf] at h
        obtain ⟨_, _, ⟨⟨bounds, hbounds, rfl⟩, rfl⟩, rfl, rfl⟩ := h
        exact ⟨vars, bounds, happly, hbounds, rfl⟩
  · rintro ⟨vars, bounds, happly, hbounds, rfl⟩
    refine ⟨some vars, left, happly, ?_⟩
    simp only [returns_bind, returns_pure, returns_boundsOf]
    exact ⟨_, _, ⟨⟨bounds, hbounds, rfl⟩, rfl⟩, rfl, rfl⟩

theorem returns_settle (hs : ∀ os, (speculate os).Grows) {p : Resolution × List Obligation} :
    (settle maxDepth program speculate o).Returns env p left ↔
      Settled maxDepth program speculate o env p left := by
  rw [settle, returns_ite, returns_report_bind, returns_pure, returns_bind]
  constructor
  · rintro (⟨hdepth, rfl, rfl⟩ | ⟨hdepth, cs, mid, hcs, h⟩)
    · exact .overflow hdepth
    · obtain rfl := ((returns_candidates hs).mp hcs).2
      refine .decided (Bool.eq_false_iff.mpr hdepth) hcs ?_
      rcases cs with _ | ⟨impl, _ | ⟨other, cs⟩⟩
      · rw [returns_bind] at h
        simp only [returns_present, returns_ite, returns_report_bind, returns_pure] at h
        obtain ⟨_, _, ⟨rfl, rfl⟩, ⟨hknown, rfl, rfl⟩ | ⟨hopen, rfl, rfl⟩⟩ := h
        · exact .noImpl hknown
        · exact .notEnoughTypes (Bool.eq_false_iff.mpr hopen)
      · rw [returns_report_bind] at h
        obtain ⟨vars, bounds, happly, hbounds, rfl⟩ := returns_confirm.mp h
        exact .confirmed happly hbounds
      · rw [returns_report_bind, returns_pure] at h
        obtain ⟨rfl, rfl⟩ := h
        exact .ambiguous impl other cs
  · intro h
    cases h with
    | overflow hdepth => exact Or.inl ⟨hdepth, rfl, rfl⟩
    | decided hdepth hcs hdecided =>
        refine Or.inr ⟨Bool.eq_false_iff.mp hdepth, _, env, hcs, ?_⟩
        cases hdecided with
        | confirmed happly hbounds =>
            rw [returns_report_bind]
            exact returns_confirm.mpr ⟨_, _, happly, hbounds, rfl⟩
        | noImpl hknown =>
            rw [returns_bind]
            refine ⟨env, env, returns_present.mpr ⟨rfl, rfl⟩, ?_⟩
            rw [if_pos hknown, returns_report_bind, returns_pure]
            exact ⟨rfl, rfl⟩
        | notEnoughTypes hopen =>
            rw [returns_bind]
            refine ⟨env, env, returns_present.mpr ⟨rfl, rfl⟩, ?_⟩
            rw [if_neg (Bool.eq_false_iff.mp hopen), returns_report_bind, returns_pure]
            exact ⟨rfl, rfl⟩
        | ambiguous first second others =>
            rw [returns_report_bind, returns_pure]
            exact ⟨rfl, rfl⟩

section SettleAll

variable {settleOne : Obligation → Engine (Resolution × List Obligation)}
  {p : Resolution × List Obligation}

@[simp] theorem returns_settleAll_nil :
    (settleAll settleOne []).Returns env p left ↔ p = (.empty, []) ∧ left = env :=
  returns_pure

theorem returns_settleAll_cons :
    (settleAll settleOne (o :: os)).Returns env p left ↔
      ∃ r nested mid rs rest, (settleOne o).Returns env (r, nested) mid ∧
        (settleAll settleOne os).Returns mid (rs, rest) left ∧
        p = (r ++ rs, nested ++ rest) := by
  simp only [settleAll, returns_bind, returns_pure, Prod.exists]
  constructor
  · rintro ⟨r, nested, mid, hone, rs, rest, _, hall, rfl, rfl⟩
    exact ⟨r, nested, mid, rs, rest, hone, hall, rfl⟩
  · rintro ⟨r, nested, mid, rs, rest, hone, hall, rfl⟩
    exact ⟨r, nested, mid, hone, rs, rest, left, hall, rfl, rfl⟩

end SettleAll

theorem returns_reportAll {f : Obligation → Event} {u : Unit} :
    (os.forM fun o => report (f o)).Returns env u left ↔ left = env := by
  induction os generalizing env with
  | nil => exact returns_pure.trans (by simp)
  | cons o os ih => exact returns_report_bind.trans ih

theorem returns_resolveWithin_zero {r : Resolution} :
    (resolveWithin maxDepth program 0 os).Returns env r left ↔
      (∀ o ∈ os, beyond maxDepth o = true) ∧ r = .ofOverflow os ∧ left = env := by
  cases os with
  | nil => simp [resolveWithin, Resolution.ofOverflow, Resolution.empty]
  | cons o os =>
      simp only [resolveWithin, returns_ite, returns_bind, returns_reportAll, returns_pure,
        not_returns_fail, and_false, or_false, List.all_eq_true]
      simp

/-- A resolution settles its obligations in order, and then resolves what arises from them. -/
theorem returns_resolveWithin_succ {r : Resolution} :
    (resolveWithin maxDepth program (n + 1) os).Returns env r left ↔
      ∃ first nested mid rest,
        (settleAll (settle maxDepth program (resolveWithin maxDepth program n)) os).Returns env
          (first, nested) mid ∧
        (resolveWithin maxDepth program n nested).Returns mid rest left ∧ r = first ++ rest := by
  cases os with
  | nil =>
      have hnil : ∀ n, resolveWithin maxDepth program n [] = pure .empty := by
        intro n
        cases n <;> rfl
      have hempty : Resolution.empty ++ Resolution.empty = Resolution.empty := rfl
      simp [hnil, hempty, and_comm]
  | cons o os =>
      simp only [resolveWithin, returns_bind, returns_pure, Prod.exists]
      constructor
      · rintro ⟨first, nested, mid, hall, rest, _, hrest, rfl, rfl⟩
        exact ⟨first, nested, mid, rest, hall, hrest, rfl⟩
      · rintro ⟨first, nested, mid, rest, hall, hrest, rfl⟩
        exact ⟨first, nested, mid, hall, rest, left, hrest, rfl, rfl⟩

/-- A step from `env` to `left` that keeps the invariant of environments and gives rise to
obligations over its variables. -/
structure Progress (env : Env) (nested : List Obligation) (left : Env) : Prop where
  extends_env : left.Extends env
  valid : left.Valid
  covers : left.CoversAll nested

theorem progress_refl (henv : env.Valid) : Progress env [] env :=
  ⟨Env.Extends.refl env, henv, by simp [Env.CoversAll]⟩

theorem Settled.progress {p : Resolution × List Obligation}
    (h : Settled maxDepth program speculate o env p left) (hs : ∀ os, (speculate os).Grows)
    (hprogram : program.VarFree) (henv : env.Valid) (ho : env.CoversRef o.trait) :
    Progress env p.2 left := by
  cases h with
  | overflow hdepth => exact progress_refl henv
  | decided hdepth hcs hdecided =>
      cases hdecided with
      | confirmed happly hbounds =>
          obtain ⟨himpl, hid⟩ := mem_impls_of_mem_candidates hs hcs (List.mem_singleton.mpr rfl)
          have hfree := hprogram _ himpl
          have happlied := applied_of_returns henv hfree hid ho happly
          exact ⟨happlied.extends_env, happlied.valid,
            Env.coversAll_nestedAll (happlied.covers_bounds hfree hbounds)⟩
      | noImpl | notEnoughTypes | ambiguous => exact progress_refl henv

theorem settleAll_progress {settleOne : Obligation → Engine (Resolution × List Obligation)}
    (hstep : ∀ {o env p left}, env.Valid → env.CoversRef o.trait →
      (settleOne o).Returns env p left → Progress env p.2 left)
    (henv : env.Valid) (hos : env.CoversAll os) {p : Resolution × List Obligation}
    (h : (settleAll settleOne os).Returns env p left) : Progress env p.2 left := by
  induction os generalizing env p with
  | nil =>
      obtain ⟨rfl, rfl⟩ := returns_settleAll_nil.mp h
      exact progress_refl henv
  | cons o os ih =>
      obtain ⟨r, nested, mid, rs, rest, hone, hall, rfl⟩ := returns_settleAll_cons.mp h
      have hfirst := hstep henv (hos o (by simp)) hone
      have hos : env.CoversAll os := fun x hx => hos x (by simp [hx])
      have hrest := ih hfirst.valid (hfirst.extends_env.coversAll hos) hall
      exact ⟨hrest.extends_env.trans hfirst.extends_env, hrest.valid,
        Env.coversAll_append (hrest.extends_env.coversAll hfirst.covers) hrest.covers⟩

/-- Settling a generation keeps the invariant of environments. -/
theorem generation_progress (hprogram : program.VarFree) (henv : env.Valid)
    (hos : env.CoversAll os) {p : Resolution × List Obligation}
    (h : (settleAll (settle maxDepth program (resolveWithin maxDepth program n)) os).Returns env p
      left) : Progress env p.2 left := by
  have hs := grows_resolveWithin maxDepth program n
  refine settleAll_progress (fun henv ho h => ?_) henv hos h
  exact ((returns_settle hs).mp h).progress hs hprogram henv ho

theorem resolveWithin_progress (hprogram : program.VarFree) (henv : env.Valid)
    (hos : env.CoversAll os) {r : Resolution}
    (h : (resolveWithin maxDepth program n os).Returns env r left) : Progress env [] left := by
  induction n generalizing env os r with
  | zero =>
      obtain ⟨-, -, rfl⟩ := returns_resolveWithin_zero.mp h
      exact progress_refl henv
  | succ n ih =>
      obtain ⟨first, nested, mid, rest, hall, hrest, rfl⟩ := returns_resolveWithin_succ.mp h
      have hfirst := generation_progress hprogram henv hos hall
      have hlast := ih hfirst.valid hfirst.covers hrest
      exact ⟨hlast.extends_env.trans hfirst.extends_env, hlast.valid, hlast.covers⟩

end Solver

end TraitResolution
