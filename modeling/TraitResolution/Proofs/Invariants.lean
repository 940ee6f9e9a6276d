import TraitResolution.Coherence
import TraitResolution.MethodCall
import TraitResolution.Proofs.Runs

/-!
# Invariants of the engine

Whatever the engine does is made of a few steps: it creates a variable, binds one that it found at
the root of a type, gives up, or goes back to where an attempt or a probe began. What these steps
keep, unifications, resolutions, coherence checks and method calls keep as well.

## Implementation notes

`Engine.Upholds` speaks of a single run, so that a later part of an operation may rest on what an
earlier part found. An impl that was found to apply is applied again in the same environment, and a
trait that could provide a method is resolved again. That is why neither is ever lost, and why
`Engine.Invariant` asks nothing about these two causes.

That operations only add to an environment is part of `Engine.Upholds`, since going back restores an
environment only if nothing of it was undone before. It is an invariant in its own right, with
nothing else asked of the environments or the causes.
-/

namespace TraitResolution

/-- The causes that the engine checks for on its own account. -/
def Cause.Internal : Cause → Prop
  | .rollbackPastEnd _ _ | .alreadyBound _ | .lostCandidate _ _ | .lostTrait _ _ => True
  | _ => False

/-- A variable that can be bound to a type: to an older variable, or to a constructor in which it
does not occur. -/
structure Env.Bindable (env : Env) (v : Var) (t : Ty) : Prop where
  unbound : env.value? v = none
  paramFree : env.hasParams t = false
  fits : (∃ w, t = .var w ∧ w ≠ v ∧ w.index ≤ v.index) ∨
    ∃ id args, t = .con id args ∧ env.occurs v t = false

namespace Engine

open Operation

variable {α β : Type} {I : Env → Prop} {E : Cause → Prop} {base env left : Env}

/-- Started in `env`, the operation leaves an environment that adds to `base` and satisfies `I`. If
it gives up, then for a cause in `E`. -/
structure Upholds (I : Env → Prop) (E : Cause → Prop) (base : Env) (x : Engine α) (env : Env) :
    Prop where
  adds : (x.run env).env.Adds base
  kept : I (x.run env).env
  cause : ∀ m, (x.run env).outcome = .error m → E m.cause

theorem upholds_of_returns {x : Engine α} {a : α} (hx : x.Returns env a left)
    (hadds : left.Adds base) (hleft : I left) : Upholds I E base x env := by
  obtain ⟨houtcome, rfl⟩ := hx
  refine ⟨hadds, hleft, fun m hm => ?_⟩
  rw [houtcome] at hm
  cases hm

/-- What adds to an environment adds to all that this one adds to. -/
theorem Upholds.above {x : Engine α} (hx : Upholds I E env x env) (h : env.Adds base) :
    Upholds I E base x env :=
  ⟨hx.adds.trans h, hx.kept, hx.cause⟩

theorem Upholds.congr {x y : Engine α} (hy : Upholds I E base y env)
    (h : x.run env = y.run env) : Upholds I E base x env :=
  ⟨h ▸ hy.adds, h ▸ hy.kept, h ▸ hy.cause⟩

theorem upholds_pure (henv : I env) (a : α) : Upholds I E env (pure a) env :=
  upholds_of_returns (returns_pure.mpr ⟨rfl, rfl⟩) (.refl env) henv

theorem upholds_fail {cause : Cause} (henv : I env) (h : E cause) :
    Upholds I E env (fail cause : Engine α) env := by
  refine ⟨.refl env, henv, fun m hm => ?_⟩
  obtain rfl := Except.error.inj hm
  exact h

theorem Upholds.bind_above {x : Engine α} {f : α → Engine β} (hx : Upholds I E base x env)
    (hf : ∀ {a mid}, x.Returns env a mid → mid.Adds base → I mid → Upholds I E base (f a) mid) :
    Upholds I E base (x >>= f) env := by
  have hleft := bind_env (P := fun left => left.Adds base ∧ I left) ⟨hx.adds, hx.kept⟩
    fun ha hmid => ⟨(hf ha hmid.1 hmid.2).adds, (hf ha hmid.1 hmid.2).kept⟩
  refine ⟨hleft.1, hleft.2, fun m hm => ?_⟩
  rcases givesUp_bind.mp ⟨hm, rfl⟩ with hgivesUp | ⟨a, mid, ha, hgivesUp⟩
  · exact hx.cause m hgivesUp.1
  · obtain rfl := ha.2
    exact (hf ha hx.adds hx.kept).cause m hgivesUp.1

theorem Upholds.bind {x : Engine α} {f : α → Engine β} (hx : Upholds I E base x env)
    (hf : ∀ {a mid}, x.Returns env a mid → I mid → Upholds I E mid (f a) mid) :
    Upholds I E base (x >>= f) env :=
  hx.bind_above fun ha hadds hmid => (hf ha hmid).above hadds

theorem Upholds.ite {c : Prop} [Decidable c] {x y : Engine α} (hx : c → Upholds I E base x env)
    (hy : ¬c → Upholds I E base y env) : Upholds I E base (if c then x else y) env := by
  split
  · rename_i hc
    exact hx hc
  · rename_i hc
    exact hy hc

theorem upholds_present_bind {f : Env → Engine α} (h : Upholds I E base (f env) env) :
    Upholds I E base (present >>= f) env :=
  ⟨h.adds, h.kept, h.cause⟩

theorem upholds_report_bind {event : Event} {f : Unit → Engine α}
    (h : Upholds I E base (f ()) env) : Upholds I E base (report event >>= f) env :=
  ⟨h.adds, h.kept, h.cause⟩

theorem upholds_select {p : α → Engine Bool}
    (hp : ∀ a {env}, I env → Upholds I E env (p a) env) (l : List α) (henv : I env) :
    Upholds I E env (select p l) env := by
  induction l generalizing env with
  | nil => exact upholds_pure henv []
  | cons a l ih =>
      exact (hp a henv).bind fun _ hmid => (ih hmid).bind fun _ hleft => upholds_pure hleft _

theorem upholds_allM {p : α → Engine Bool}
    (hp : ∀ a {env}, I env → Upholds I E env (p a) env) (l : List α) (henv : I env) :
    Upholds I E env (l.allM p) env := by
  induction l generalizing env with
  | nil => exact upholds_pure henv true
  | cons a l ih =>
      apply (hp a henv).bind
      intro b mid _ hmid
      cases b with
      | false => exact upholds_pure hmid false
      | true => exact ih hmid

/-- The rollback of a probe goes back to the moment at which the probe began. -/
theorem Upholds.probe {x : Engine α} (hx : Upholds I E env x env) (henv : I env) :
    Upholds I E env (probe x) env := by
  obtain ⟨houtcome, hback⟩ := unwound_of_extends hx.adds.extends_env
  refine ⟨?_, ?_, fun m hm => hx.cause m (houtcome.symm.trans hm)⟩
  · exact hback.symm ▸ Env.Adds.refl env
  · exact hback.symm ▸ henv

theorem Upholds.attempt {x : Engine Bool} (hx : Upholds I E env x env) (henv : I env) :
    Upholds I E env (attempt x) env := by
  by_cases htrue : (x.run env).outcome = .ok true
  · exact hx.congr (attempt_run_of_true htrue)
  · exact (hx.probe henv).congr (attempt_run_of_ne_true htrue)

/-- An operation in an environment of its own leaves the present one alone. -/
theorem Upholds.isolated {x : Engine α} (hx : Upholds I E .empty x .empty) (henv : I env) :
    Upholds I E env (isolated x) env :=
  ⟨.refl env, henv, hx.cause⟩

/-- What has to be known of the steps of the engine, for operations to lead from environments that
satisfy `I` to such environments and to give up for causes in `E` only. -/
structure Invariant (I : Env → Prop) (E : Cause → Prop) : Prop where
  empty : I .empty
  created : ∀ {env}, I env → I env.created
  bound : ∀ {env v t}, I env → env.Bindable v (env.shallow t) → I (env.bound v (env.shallow t))
  /-- What is found at the root of a type is unbound, if that is asked for. -/
  unbound : ∀ {env v t}, I env → env.shallow t = .var v →
    env.value? v = none ∨ E (.alreadyBound v)
  /-- It is always possible to give up on what is given. -/
  given : ∀ {cause}, ¬cause.Internal → cause ≠ .endless → E cause

/-- Operations only add to an environment, whatever else is known of it. -/
theorem growth : Invariant (fun _ => True) fun _ => True where
  empty := trivial
  created _ := trivial
  bound _ _ := trivial
  unbound _ _ := Or.inr trivial
  given _ _ := trivial

theorem upholds_of_grows {x : Engine α} (hx : x.Grows) :
    Upholds (fun _ => True) (fun _ => True) env x env :=
  ⟨hx env, trivial, fun _ _ => trivial⟩

theorem grows_attempt {x : Engine Bool} (hx : x.Grows) : (attempt x).Grows :=
  fun _ => ((upholds_of_grows hx).attempt trivial).adds

section Unification

variable (h : Invariant I E)

include h

theorem upholds_ofSubst (x : Except SubstError α) (henv : I env) :
    Upholds I E env (ofSubst x) env := by
  cases x with
  | ok a => exact upholds_pure henv a
  | error e => exact upholds_fail henv (h.given id (by simp))

theorem upholds_fresh (henv : I env) : Upholds I E env fresh env :=
  upholds_of_returns (returns_fresh.mpr ⟨rfl, rfl⟩) env.adds_created (h.created henv)

theorem upholds_freshTypes (n : Nat) (henv : I env) : Upholds I E env (freshTypes n) env := by
  induction n generalizing env with
  | zero => exact upholds_pure henv []
  | succ n ih =>
      apply (upholds_fresh h henv).bind
      intro v mid _ hmid
      exact (ih hmid).bind fun _ hleft => upholds_pure hleft _

/-- A variable at the root of a type is bound to what is at the root of another one. -/
theorem upholds_bindVar {v : Var} {a b t : Ty} (henv : I env) (hv : env.shallow a = .var v)
    (ht : env.shallow b = t) (hfits : (∃ w, t = .var w ∧ w ≠ v ∧ w.index ≤ v.index) ∨
      ∃ id args, t = .con id args ∧ env.occurs v t = false) :
    Upholds I E env (do bindVar v t; pure true : Engine Bool) env := by
  subst ht
  refine Upholds.bind ?_ fun _ hmid => upholds_pure hmid true
  cases hvalue : env.value? v with
  | some u =>
      have hcause : E (.alreadyBound v) := by simpa [hvalue] using h.unbound henv hv
      apply (upholds_fail henv hcause).congr
      simp [run, bindVar, hvalue]
  | none =>
      cases hparams : env.hasParams (env.shallow b) with
      | true =>
          have hcause : E (.bindsParam v (env.shallow b)) := h.given id (by simp)
          apply (upholds_fail henv hcause).congr
          simp [run, bindVar, hvalue, hparams]
      | false =>
          have hbind : (bindVar v (env.shallow b)).Returns env () (env.bound v (env.shallow b)) :=
            returns_bindVar.mpr ⟨hvalue, hparams, rfl⟩
          exact upholds_of_returns hbind (Env.adds_bound hvalue _)
            (h.bound henv ⟨hvalue, hparams, hfits⟩)

theorem upholds_unifyVars {v w : Var} {a b : Ty} (henv : I env) (hv : env.shallow a = .var v)
    (hw : env.shallow b = .var w) : Upholds I E env (unifyVars v w) env := by
  refine Upholds.ite (fun _ => upholds_pure henv true) fun hne => Upholds.ite (fun hlt => ?_) ?_
  · exact upholds_bindVar h henv hw hv (Or.inl ⟨v, rfl, hne, Nat.le_of_lt hlt⟩)
  · intro hge
    exact upholds_bindVar h henv hv hw (Or.inl ⟨w, rfl, Ne.symm hne, Nat.le_of_not_lt hge⟩)

theorem upholds_unifyVarCon {v : Var} {a b : Ty} {id : String} {args : List Ty} (henv : I env)
    (hv : env.shallow a = .var v) (ht : env.shallow b = .con id args) :
    Upholds I E env (unifyVarCon v (.con id args)) env := by
  refine upholds_present_bind (Upholds.ite (fun _ => ?_) fun hocc => ?_)
  · exact upholds_report_bind (upholds_pure henv false)
  · exact upholds_bindVar h henv hv ht (Or.inr ⟨id, args, rfl, Bool.eq_false_iff.mpr hocc⟩)

theorem upholds_unifyWithin (n : Nat) (a b : Ty) (henv : I env) :
    Upholds I E env (unifyWithin n a b) env := by
  induction n generalizing env a b with
  | zero => exact upholds_pure henv false
  | succ n ih =>
      apply upholds_present_bind
      split
      · rename_i v w hv hw
        exact upholds_unifyVars h henv hv hw
      · rename_i v id args hv ht
        exact upholds_unifyVarCon h henv hv ht
      · rename_i id args v ht hv
        exact upholds_unifyVarCon h henv hv ht
      · refine Upholds.ite (fun _ => upholds_pure henv false) fun _ => ?_
        refine Upholds.ite (fun _ => upholds_fail henv (h.given id (by simp))) fun _ => ?_
        exact (upholds_allM (fun p : Ty × Ty => ih p.1 p.2) _ henv).attempt henv
      · exact upholds_fail henv (h.given id (by simp))

theorem upholds_unify (a b : Ty) (henv : I env) : Upholds I E env (unify a b) env :=
  upholds_present_bind (upholds_unifyWithin h _ a b henv)

theorem upholds_unifyAll (as bs : List Ty) (henv : I env) :
    Upholds I E env (unifyAll as bs) env := by
  refine Upholds.ite (fun _ => upholds_fail henv (h.given id (by simp))) fun _ => ?_
  exact (upholds_allM (fun p : Ty × Ty => upholds_unify h p.1 p.2) _ henv).attempt henv

/-- The work of unifying two references, before it is kept or undone. -/
theorem upholds_unifyParts (r s : Reference) (henv : I env) :
    Upholds I E env (do if ← unify r.self s.self then unifyAll r.params s.params else pure false :
      Engine Bool) env := by
  refine (upholds_unify h _ _ henv).bind fun _ hmid => Upholds.ite (fun _ => ?_) fun _ => ?_
  · exact upholds_unifyAll h _ _ hmid
  · exact upholds_pure hmid false

theorem upholds_unifyReferences (r s : Reference) (henv : I env) :
    Upholds I E env (unifyReferences r s) env :=
  Upholds.ite (fun _ => upholds_fail henv (h.given id (by simp))) fun _ =>
    (upholds_unifyParts h r s henv).attempt henv

end Unification

theorem grows_freshTypes (n : Nat) : (freshTypes n).Grows :=
  fun _ => (upholds_freshTypes growth n trivial).adds

theorem grows_unifyWithin (n : Nat) (a b : Ty) : (unifyWithin n a b).Grows :=
  fun _ => (upholds_unifyWithin growth n a b trivial).adds

theorem grows_unify (a b : Ty) : (unify a b).Grows :=
  fun _ => (upholds_unify growth a b trivial).adds

theorem grows_unifyAll (as bs : List Ty) : (unifyAll as bs).Grows :=
  fun _ => (upholds_unifyAll growth as bs trivial).adds

theorem grows_unifyParts (r s : Reference) :
    (do if ← unify r.self s.self then unifyAll r.params s.params else pure false :
      Engine Bool).Grows :=
  fun _ => (upholds_unifyParts growth r s trivial).adds

theorem grows_unifyReferences (r s : Reference) : (unifyReferences r s).Grows :=
  fun _ => (upholds_unifyReferences growth r s trivial).adds

end Engine

namespace Solver

open Operation Engine

variable {I : Env → Prop} {E : Cause → Prop} {program : Program}
  {speculate : List Obligation → Engine Resolution} {impl : Impl} {o : Obligation}
  {os nested : List Obligation} {env left : Env} {maxDepth : Int} {n : Nat}

/-- The work of weighing the bounds of an impl, before it is undone. -/
def weigh (speculate : List Obligation → Engine Resolution) (o : Obligation) (impl : Impl) :
    Engine Bool := do
  match ← apply impl o with
  | none => pure false
  | some vars =>
    let nested ← boundsOf o impl vars
    let r ← speculate nested
    pure r.noImpl.isEmpty

@[simp] theorem returns_boundsOf {vars : List Ty} :
    (boundsOf o impl vars).Returns env nested left ↔
      (∃ bounds, impl.boundsWith vars = .ok bounds ∧ nested = o.nestedAll bounds) ∧ left = env := by
  simp only [boundsOf, returns_bind, returns_pure, returns_ofSubst]
  constructor
  · rintro ⟨bounds, mid, ⟨hbounds, rfl⟩, rfl, rfl⟩
    exact ⟨⟨bounds, hbounds, rfl⟩, rfl⟩
  · rintro ⟨⟨bounds, hbounds, rfl⟩, rfl⟩
    exact ⟨bounds, left, ⟨hbounds, rfl⟩, rfl, rfl⟩

section Trials

variable (h : Invariant I E)

include h

theorem upholds_instantiate (impl : Impl) (henv : I env) :
    Upholds I E env (instantiate impl) env := by
  apply (upholds_freshTypes h _ henv).bind
  intro vars mid _ hmid
  exact (upholds_ofSubst h _ hmid).bind fun _ hleft => upholds_pure hleft _

theorem upholds_apply (impl : Impl) (o : Obligation) (henv : I env) :
    Upholds I E env (apply impl o) env := by
  apply (upholds_instantiate h impl henv).bind
  intro inst mid _ hmid
  apply (upholds_unifyReferences h _ _ hmid).bind
  intro b left _ hleft
  exact Upholds.ite (fun _ => upholds_pure hleft _) fun _ => upholds_pure hleft _

theorem upholds_boundsOf (o : Obligation) (impl : Impl) (vars : List Ty) (henv : I env) :
    Upholds I E env (boundsOf o impl vars) env :=
  (upholds_ofSubst h _ henv).bind fun _ hleft => upholds_pure hleft _

theorem upholds_weigh (impl : Impl) (henv : I env)
    (hspeculate : ∀ bounds {mid}, I mid → Upholds I E mid (speculate (o.nestedAll bounds)) mid) :
    Upholds I E env (weigh speculate o impl) env := by
  apply (upholds_apply h impl o henv).bind
  intro vars? mid _ hmid
  cases vars? with
  | none => exact upholds_pure hmid false
  | some vars =>
      apply (upholds_boundsOf h o impl vars hmid).bind
      intro nested later hnested hlater
      obtain ⟨⟨bounds, -, rfl⟩, -⟩ := returns_boundsOf.mp hnested
      exact (hspeculate bounds hlater).bind fun _ hleft => upholds_pure hleft _

theorem upholds_viable (impl : Impl) (henv : I env)
    (hspeculate : ∀ bounds {mid}, I mid → Upholds I E mid (speculate (o.nestedAll bounds)) mid) :
    Upholds I E env (viable speculate o impl) env := by
  apply ((upholds_weigh h impl henv hspeculate).probe henv).bind
  intro holds mid _ hmid
  refine Upholds.ite (fun _ => upholds_pure hmid true) fun _ => ?_
  exact upholds_report_bind (upholds_pure hmid false)

theorem upholds_unifies (impl : Impl) (henv : I env) : Upholds I E env (unifies o impl) env :=
  ((upholds_apply h impl o henv).bind fun _ hleft => upholds_pure hleft _).probe henv

theorem upholds_candidates (program : Program) (henv : I env)
    (hspeculate : ∀ bounds {mid}, I mid → Upholds I E mid (speculate (o.nestedAll bounds)) mid) :
    Upholds I E env (candidates program speculate o) env := by
  apply (upholds_select (fun impl _ => upholds_unifies h impl) _ henv).bind
  intro unifiable mid _ hmid
  refine Upholds.ite (fun _ => upholds_pure hmid _) fun _ => ?_
  exact upholds_select (fun impl _ henv => upholds_viable h impl henv hspeculate) _ hmid

end Trials

theorem grows_instantiate (impl : Impl) : (instantiate impl).Grows :=
  fun _ => (upholds_instantiate growth impl trivial).adds

theorem grows_apply (impl : Impl) (o : Obligation) : (apply impl o).Grows :=
  fun _ => (upholds_apply growth impl o trivial).adds

theorem grows_weigh (hs : ∀ os, (speculate os).Grows) (o : Obligation) (impl : Impl) :
    (weigh speculate o impl).Grows :=
  fun _ => (upholds_weigh growth impl trivial fun _ _ _ => upholds_of_grows (hs _)).adds

theorem returns_unifies {b : Bool} :
    (unifies o impl).Returns env b left ↔
      (∃ vars? gone, (apply impl o).Returns env vars? gone ∧ b = vars?.isSome) ∧ left = env := by
  rw [unifies, returns_probe ((grows_apply impl o).bind fun _ => grows_pure _)]
  simp only [returns_bind, returns_pure]
  constructor
  · rintro ⟨⟨gone, vars?, mid, happly, rfl, rfl⟩, rfl⟩
    exact ⟨⟨vars?, gone, happly, rfl⟩, rfl⟩
  · rintro ⟨⟨vars?, gone, happly, rfl⟩, rfl⟩
    exact ⟨⟨gone, vars?, gone, happly, rfl, rfl⟩, rfl⟩

theorem returns_viable (hs : ∀ os, (speculate os).Grows) {b : Bool} :
    (viable speculate o impl).Returns env b left ↔
      (∃ gone, (weigh speculate o impl).Returns env b gone) ∧ left = env := by
  have hprobe : ∀ c mid, (probe (weigh speculate o impl)).Returns env c mid ↔
      (∃ gone, (weigh speculate o impl).Returns env c gone) ∧ mid = env :=
    fun c mid => returns_probe (grows_weigh hs o impl)
  have hviable : viable speculate o impl = probe (weigh speculate o impl) >>= fun holds =>
      if holds then pure true else report (.discarded o impl.id) >>= fun _ => pure false := rfl
  rw [hviable, returns_bind]
  simp only [hprobe, returns_ite, returns_report_bind, returns_pure]
  constructor
  · rintro ⟨c, mid, ⟨hweigh, rfl⟩, ⟨rfl, rfl, rfl⟩ | ⟨hc, rfl, rfl⟩⟩
    · exact ⟨hweigh, rfl⟩
    · exact ⟨Bool.eq_false_iff.mpr hc ▸ hweigh, rfl⟩
  · rintro ⟨hweigh, rfl⟩
    refine ⟨b, left, ⟨hweigh, rfl⟩, ?_⟩
    cases b with
    | true => exact Or.inl ⟨rfl, rfl, rfl⟩
    | false => exact Or.inr ⟨Bool.false_ne_true, rfl, rfl⟩

/-- The impls that unify with an obligation. -/
def unifiable (program : Program) (o : Obligation) (env : Env) : List Impl :=
  (program.implsOf o.trait.id).filter fun impl => verdict (unifies o impl) env

/-- The candidates for an obligation, where the tests on them return. -/
def contenders (program : Program) (speculate : List Obligation → Engine Resolution)
    (o : Obligation) (env : Env) : List Impl :=
  if (unifiable program o env).length = 1 then
    unifiable program o env
  else
    (unifiable program o env).filter fun impl => verdict (viable speculate o impl) env

/-- Looking for candidates returns when all tests it makes return, and leaves no trace. -/
theorem returns_candidates (hs : ∀ os, (speculate os).Grows) {cs : List Impl} :
    (candidates program speculate o).Returns env cs left ↔
      ((∀ impl ∈ program.implsOf o.trait.id, ∃ b, (unifies o impl).Returns env b env) ∧
        ((unifiable program o env).length ≠ 1 → ∀ impl ∈ unifiable program o env,
          ∃ b, (viable speculate o impl).Returns env b env) ∧
        cs = contenders program speculate o env) ∧ left = env := by
  have hunifies : ∀ impl ∈ program.implsOf o.trait.id, ∀ b mid,
      (unifies o impl).Returns env b mid → mid = env :=
    fun impl _ b mid h => (returns_unifies.mp h).2
  have hviable : ∀ impl ∈ unifiable program o env, ∀ b mid,
      (viable speculate o impl).Returns env b mid → mid = env :=
    fun impl _ b mid h => ((returns_viable hs).mp h).2
  simp only [candidates, returns_bind, returns_select hunifies, returns_ite, returns_pure]
  constructor
  · rintro ⟨_, _, ⟨⟨htests, rfl⟩, rfl⟩, ⟨hone, rfl, rfl⟩ | ⟨hmany, h⟩⟩
    · exact ⟨⟨htests, fun hne => absurd hone hne, (if_pos hone).symm⟩, rfl⟩
    · obtain ⟨⟨hweighed, rfl⟩, rfl⟩ := (returns_select hviable).mp h
      exact ⟨⟨htests, fun _ => hweighed, (if_neg hmany).symm⟩, rfl⟩
  · rintro ⟨⟨htests, hweighed, rfl⟩, rfl⟩
    refine ⟨unifiable program o left, left, ⟨⟨htests, rfl⟩, rfl⟩, ?_⟩
    by_cases hone : (unifiable program o left).length = 1
    · exact Or.inl ⟨hone, if_pos hone, rfl⟩
    · exact Or.inr ⟨hone, (returns_select hviable).mpr ⟨⟨hweighed hone, if_neg hone⟩, rfl⟩⟩

theorem mem_unifiable_of_mem_candidates (hs : ∀ os, (speculate os).Grows) {cs : List Impl}
    (h : (candidates program speculate o).Returns env cs left) (himpl : impl ∈ cs) :
    impl ∈ unifiable program o env := by
  obtain ⟨⟨-, -, rfl⟩, -⟩ := (returns_candidates hs).mp h
  rw [contenders] at himpl
  split at himpl
  · exact himpl
  · exact (List.mem_filter.mp himpl).1

/-- A candidate applies to the obligation in the environment it was found in. -/
theorem exists_apply_of_mem_candidates (hs : ∀ os, (speculate os).Grows) {cs : List Impl}
    (h : (candidates program speculate o).Returns env cs left) (himpl : impl ∈ cs) :
    ∃ vars mid, (apply impl o).Returns env (some vars) mid := by
  have hverdict := (List.mem_filter.mp (mem_unifiable_of_mem_candidates hs h himpl)).2
  obtain ⟨_, hunifies⟩ := verdict_eq_true_iff.mp hverdict
  obtain ⟨⟨vars?, mid, happly, hsome⟩, -⟩ := returns_unifies.mp hunifies
  obtain ⟨vars, rfl⟩ := Option.isSome_iff_exists.mp hsome.symm
  exact ⟨vars, mid, happly⟩

section Resolution

variable (h : Invariant I E)

include h

/-- An impl that was found to apply is applied again in the same environment. -/
theorem upholds_confirm {vars : List Ty} (happly : (apply impl o).Returns env (some vars) left)
    (henv : I env) : Upholds I E env (confirm o impl) env := by
  apply (upholds_apply h impl o henv).bind
  intro vars? mid hvars hmid
  obtain ⟨rfl, rfl⟩ := happly.unique hvars
  exact (upholds_boundsOf h o impl vars hmid).bind fun _ hlast => upholds_pure hlast _

/-- Only what may arise from an obligation is tried out while it is settled. -/
theorem upholds_settle (program : Program) (hgrows : ∀ os, (speculate os).Grows)
    (hspeculate : beyond maxDepth o = false → ∀ bounds {mid}, I mid →
      Upholds I E mid (speculate (o.nestedAll bounds)) mid) (henv : I env) :
    Upholds I E env (settle maxDepth program speculate o) env := by
  refine Upholds.ite (fun _ => upholds_report_bind (upholds_pure henv _)) fun hdepth => ?_
  apply (upholds_candidates h program henv (hspeculate (Bool.eq_false_iff.mpr hdepth))).bind
  intro cs mid hcs hmid
  obtain rfl := ((returns_candidates hgrows).mp hcs).2
  rcases cs with _ | ⟨impl, _ | ⟨other, cs⟩⟩
  · refine upholds_present_bind (Upholds.ite (fun _ => ?_) fun _ => ?_)
    · exact upholds_report_bind (upholds_pure hmid _)
    · exact upholds_report_bind (upholds_pure hmid _)
  · obtain ⟨vars, last, happly⟩ :=
      exists_apply_of_mem_candidates hgrows hcs (List.mem_singleton.mpr rfl)
    exact upholds_report_bind (upholds_confirm h happly hmid)
  · exact upholds_report_bind (upholds_pure hmid _)

omit h in
theorem upholds_settleAll {settleOne : Obligation → Engine (Resolution × List Obligation)}
    (hstep : ∀ o {env}, I env → Upholds I E env (settleOne o) env) (os : List Obligation)
    (henv : I env) : Upholds I E env (settleAll settleOne os) env := by
  induction os generalizing env with
  | nil => exact upholds_pure henv _
  | cons o os ih =>
      exact (hstep o henv).bind fun _ hmid => (ih hmid).bind fun _ hleft => upholds_pure hleft _

omit h in
theorem upholds_reportAll (f : Obligation → Event) (os : List Obligation) (henv : I env) :
    Upholds I E env (os.forM fun o => report (f o)) env := by
  induction os with
  | nil => exact upholds_pure henv ()
  | cons o os ih => exact upholds_report_bind ih

omit h in
theorem upholds_resolveWithin_zero (hendless : E .endless) (os : List Obligation) (henv : I env) :
    Upholds I E env (resolveWithin maxDepth program 0 os) env := by
  cases os with
  | nil => exact upholds_pure henv _
  | cons o os =>
      refine Upholds.ite (fun _ => ?_) fun _ => upholds_fail henv hendless
      exact (upholds_reportAll _ _ henv).bind fun _ hleft => upholds_pure hleft _

/-- What the later generations keep, one more generation keeps too. -/
theorem upholds_resolveWithin_succ (hgrows : ∀ os, (resolveWithin maxDepth program n os).Grows)
    (hlater : ∀ os {env}, I env → Upholds I E env (resolveWithin maxDepth program n os) env)
    (os : List Obligation) (henv : I env) :
    Upholds I E env (resolveWithin maxDepth program (n + 1) os) env := by
  cases os with
  | nil => exact upholds_pure henv _
  | cons o os =>
      have hstep : ∀ o {env}, I env → Upholds I E env
          (settle maxDepth program (resolveWithin maxDepth program n) o) env :=
        fun o _ => upholds_settle h program hgrows fun _ _ _ => hlater _
      apply (upholds_settleAll hstep _ henv).bind
      intro settled mid _ hmid
      exact (hlater settled.2 hmid).bind fun _ hleft => upholds_pure hleft _

end Resolution

theorem grows_settle (maxDepth : Int) (program : Program) (hs : ∀ os, (speculate os).Grows)
    (o : Obligation) : (settle maxDepth program speculate o).Grows :=
  fun _ => (upholds_settle growth program hs (fun _ _ _ _ => upholds_of_grows (hs _)) trivial).adds

theorem grows_settleAll {settleOne : Obligation → Engine (Resolution × List Obligation)}
    (hs : ∀ o, (settleOne o).Grows) (os : List Obligation) : (settleAll settleOne os).Grows :=
  fun _ => (upholds_settleAll (fun o _ _ => upholds_of_grows (hs o)) os trivial).adds

theorem grows_resolveWithin (maxDepth : Int) (program : Program) (n : Nat)
    (os : List Obligation) : (resolveWithin maxDepth program n os).Grows := by
  induction n generalizing os with
  | zero =>
      intro env
      have hnone : Upholds (fun _ => True) (fun _ => True) env
          (resolveWithin maxDepth program 0 os) env := upholds_resolveWithin_zero trivial os trivial
      exact hnone.adds
  | succ n ih =>
      have hrest : ∀ os {env}, True →
          Upholds (fun _ => True) (fun _ => True) env (resolveWithin maxDepth program n os) env :=
        fun os _ _ => upholds_of_grows (ih os)
      exact fun _ => (upholds_resolveWithin_succ growth ih hrest os trivial).adds

theorem grows_resolve (config : Config) (program : Program) (os : List Obligation) :
    (resolve config program os).Grows :=
  grows_resolveWithin _ program _ os

/-- A resolution keeps what its steps keep, if it may be given up as endless. -/
theorem upholds_resolve (h : Invariant I E) (hendless : E .endless) (config : Config)
    (program : Program) (os : List Obligation) (henv : I env) :
    Upholds I E env (resolve config program os) env := by
  rw [resolve]
  generalize generations config.maxDepth os = n
  induction n generalizing env os with
  | zero => exact upholds_resolveWithin_zero hendless os henv
  | succ n ih =>
      exact upholds_resolveWithin_succ h (grows_resolveWithin _ program n) (fun os _ => ih os) os
        henv

end Solver

namespace Coherence

open Operation Engine

variable {I : Env → Prop} {E : Cause → Prop} {config : Config} {program : Program} {env : Env}

section Check

variable (h : Invariant I E)
  (hresolve : ∀ os {env}, I env → Upholds I E env (Solver.resolve config program os) env)

include h hresolve

theorem upholds_boundsCouldHold (impl : Impl) (vars : List Ty) (henv : I env) :
    Upholds I E env (boundsCouldHold config program impl vars) env := by
  apply (upholds_ofSubst h _ henv).bind
  intro os mid _ hmid
  apply (hresolve os hmid).bind
  intro r left _ hleft
  refine Upholds.ite (fun _ => upholds_pure hleft true) fun _ => ?_
  exact upholds_report_bind (upholds_pure hleft false)

theorem upholds_overlap (first second : Impl) (henv : I env) :
    Upholds I E env (overlap config program first second) env := by
  apply (Solver.upholds_instantiate h first henv).bind
  intro p firstEnv _ hfirst
  apply (Solver.upholds_instantiate h second hfirst).bind
  intro q secondEnv _ hsecond
  apply (upholds_unifyReferences h _ _ hsecond).bind
  intro same mid _ hmid
  refine Upholds.ite (fun _ => ?_) fun _ => upholds_pure hmid false
  apply (upholds_boundsCouldHold h hresolve _ _ hmid).bind
  intro holds left _ hleft
  refine Upholds.ite (fun _ => ?_) fun _ => upholds_pure hleft false
  exact upholds_boundsCouldHold h hresolve _ _ hleft

/-- Each pair of impls is compared in an environment of its own. -/
theorem upholds_check (henv : I env) : Upholds I E env (check config program) env := by
  have hconflicting : ∀ p {env}, I env → Upholds I E env (conflicting config program p) env := by
    intro p env henv
    apply ((upholds_overlap h hresolve p.1 p.2 h.empty).isolated henv).bind
    intro clash left _ hleft
    refine Upholds.ite (fun _ => ?_) fun _ => upholds_pure hleft false
    exact upholds_report_bind (upholds_pure hleft true)
  exact (upholds_select hconflicting _ henv).bind fun _ hleft => upholds_pure hleft _

end Check

theorem grows_boundsCouldHold {impl : Impl} {vars : List Ty} :
    (boundsCouldHold config program impl vars).Grows :=
  fun _ => (upholds_boundsCouldHold growth
    (fun os _ => Solver.upholds_resolve growth trivial config program os) impl vars trivial).adds

theorem grows_check (config : Config) (program : Program) : (check config program).Grows :=
  fun _ => (upholds_check growth
    (fun os _ => Solver.upholds_resolve growth trivial config program os) trivial).adds

end Coherence

namespace MethodCall

open Operation Engine

namespace Lookup

variable {I : Env → Prop} {E : Cause → Prop} {cx : Lookup} {place : Place} {d : Declaration}
  {env left : Env}

section Places

variable (h : Invariant I E)
  (hresolve : ∀ os {env}, I env → Upholds I E env (Solver.resolve cx.config cx.program os) env)

include h hresolve

theorem upholds_resolveTrait (self : Ty) (t : Trait) (henv : I env) :
    Upholds I E env (cx.resolveTrait self t) env := by
  apply (upholds_freshTypes h _ henv).bind
  intro params mid _ hmid
  exact (hresolve _ hmid).bind fun _ hleft => upholds_pure hleft _

theorem upholds_couldApply (place : Place) (d : Declaration) (henv : I env) :
    Upholds I E env (cx.couldApply place d) env :=
  ((upholds_resolveTrait h hresolve _ _ henv).bind fun _ hleft => upholds_pure hleft _).probe henv

omit h in
theorem upholds_makeMutable (place : Place) (henv : I env) :
    Upholds I E env (cx.makeMutable place) env := by
  induction place generalizing env with
  | receiver t => exact upholds_pure henv _
  | deref kind input target evidence ih =>
      cases kind with
      | mutable => exact upholds_pure henv _
      | shared =>
          apply (ih henv).bind
          intro made mid _ hmid
          cases made with
          | none => exact upholds_pure hmid none
          | some input' =>
              apply (hresolve _ hmid).bind
              intro r left _ hleft
              refine Upholds.ite (fun _ => upholds_pure hleft _) fun _ => ?_
              exact upholds_report_bind (upholds_pure hleft none)

/-- Going back when a place cannot be made mutable undoes what was done at this place only. -/
theorem upholds_reconcile (m : Method) (ref : Reference) (evidence : Resolution) (selfType : Ty)
    (places : List Place) (henv : I env) :
    Upholds I E env (cx.reconcile m ref evidence selfType places) env := by
  induction places generalizing env with
  | nil => exact upholds_pure henv _
  | cons place rest ih =>
      have hattempt : ∀ t {env}, I env → Upholds I E env (attempt (unify selfType t)) env :=
        fun t _ henv => (upholds_unify h selfType t henv).attempt henv
      apply (hattempt _ henv).bind
      intro byValue first _ hfirst
      refine Upholds.ite (fun _ => upholds_pure hfirst _) fun _ => ?_
      apply (hattempt _ hfirst).bind
      intro shared before _ hbefore
      refine Upholds.ite (fun _ => upholds_pure hbefore _) fun _ => upholds_present_bind ?_
      -- what follows may go back to this moment, but not further
      apply (upholds_unify h _ _ hbefore).bind_above
      intro mutable unified _ hunified hmid
      refine Upholds.ite (fun _ => ?_) fun _ => ?_
      · apply ((upholds_makeMutable hresolve place hmid).above hunified).bind_above
        intro made left _ hadds hleft
        cases made with
        | some place' => exact (upholds_pure hleft _).above hadds
        | none =>
            have hextends := hadds.extends_env
            have hback : (rollback before.snapshot).Returns left () before :=
              returns_rollback.mpr ⟨hextends.len_le, hextends.restored_snapshot.symm⟩
            exact (upholds_of_returns hback (.refl before) hbefore).bind fun _ hlast =>
              upholds_pure hlast _
      · exact (upholds_report_bind (ih hmid)).above hunified

end Places

theorem grows_resolveRef (cx : Lookup) (id : Text) (ref : Reference) :
    (cx.resolveRef id ref).Grows :=
  Solver.grows_resolve _ _ _

theorem grows_resolveTrait (cx : Lookup) (self : Ty) (t : Trait) :
    (cx.resolveTrait self t).Grows :=
  fun _ => (upholds_resolveTrait growth
    (fun os _ => Solver.upholds_resolve growth trivial _ _ os) self t trivial).adds

theorem grows_makeMutable (cx : Lookup) (place : Place) : (cx.makeMutable place).Grows :=
  fun _ => (upholds_makeMutable (fun os _ => Solver.upholds_resolve growth trivial _ _ os) place
    trivial).adds

theorem returns_couldApply {b : Bool} :
    (cx.couldApply place d).Returns env b left ↔
      (∃ p gone, (cx.resolveTrait place.type d.trait).Returns env p gone ∧ b = p.2.noImpl.isEmpty) ∧
        left = env := by
  rw [couldApply, returns_probe ((cx.grows_resolveTrait _ _).bind fun _ => grows_pure _)]
  simp only [returns_bind, returns_pure]
  constructor
  · rintro ⟨⟨gone, p, mid, hresolve, rfl, rfl⟩, rfl⟩
    exact ⟨⟨p, gone, hresolve, rfl⟩, rfl⟩
  · rintro ⟨⟨p, gone, hresolve, rfl⟩, rfl⟩
    exact ⟨⟨gone, p, gone, hresolve, rfl, rfl⟩, rfl⟩

/-- Looking for the declarations that could provide a method leaves no trace. -/
theorem returns_select_couldApply {found : List Declaration} :
    (select (cx.couldApply place) cx.declarations).Returns env found left ↔
      ((∀ d ∈ cx.declarations, ∃ b, (cx.couldApply place d).Returns env b env) ∧
        found = cx.declarations.filter fun d => verdict (cx.couldApply place d) env) ∧
      left = env :=
  returns_select fun _ _ _ _ h => (returns_couldApply.mp h).2

/-- A declaration that was found could provide the method in the same environment. -/
theorem couldApply_of_select {found : List Declaration}
    (hfound : (select (cx.couldApply place) cx.declarations).Returns env found left)
    (hd : d ∈ found) : d ∈ cx.declarations ∧ (cx.couldApply place d).Returns env true env := by
  obtain ⟨⟨htests, rfl⟩, -⟩ := returns_select_couldApply.mp hfound
  obtain ⟨hmem, hverdict⟩ := List.mem_filter.mp hd
  obtain ⟨b, hb⟩ := htests d hmem
  rw [verdict_eq hb] at hverdict
  exact ⟨hmem, hverdict ▸ hb⟩

section Search

variable (h : Invariant I E)
  (hresolve : ∀ os {env}, I env → Upholds I E env (Solver.resolve cx.config cx.program os) env)

include h hresolve

/-- A trait that could provide the method is resolved again in the same environment. -/
theorem upholds_call (hcould : (cx.couldApply place d).Returns env true env) (henv : I env) :
    Upholds I E env (cx.call place d) env := by
  obtain ⟨⟨p, gone, hfound, hempty⟩, -⟩ := returns_couldApply.mp hcould
  apply (upholds_resolveTrait h hresolve _ _ henv).bind
  intro q left hq hleft
  obtain ⟨rfl, rfl⟩ := hfound.unique hq
  refine Upholds.ite (fun _ => ?_) fun hne => absurd hempty.symm hne
  apply (upholds_ofSubst h _ hleft).bind
  intro selfType mid _ hmid
  exact upholds_reconcile h hresolve _ _ _ _ _ hmid

theorem upholds_choose (place : Place) {otherwise : Engine MethodResult}
    (hotherwise : ∀ {env}, I env → Upholds I E env otherwise env) (henv : I env) :
    Upholds I E env (cx.choose place otherwise) env := by
  apply (upholds_select (fun d _ => upholds_couldApply h hresolve place d) _ henv).bind
  intro found mid hfound hmid
  obtain rfl := (returns_select_couldApply.mp hfound).2
  rcases found with _ | ⟨d, _ | ⟨other, found⟩⟩
  · exact hotherwise hmid
  · exact upholds_call h hresolve (couldApply_of_select hfound (List.mem_singleton.mpr rfl)).2 hmid
  · exact upholds_report_bind (upholds_pure hmid _)

theorem upholds_deref (place : Place) {next : Place → Engine MethodResult}
    (hnext : ∀ place {env}, I env → Upholds I E env (next place) env) (henv : I env) :
    Upholds I E env (cx.deref place next) env := by
  apply (upholds_fresh h henv).bind
  intro v mid _ hmid
  apply (hresolve _ hmid).bind
  intro r left _ hleft
  refine Upholds.ite (fun _ => ?_) fun _ => ?_
  · exact upholds_report_bind (hnext _ hleft)
  · exact upholds_report_bind (upholds_pure hleft _)

theorem upholds_search (n : Nat) (place : Place) (henv : I env) :
    Upholds I E env (cx.search n place) env := by
  induction n generalizing env place with
  | zero =>
      exact upholds_choose h hresolve place
        (fun henv => upholds_report_bind (upholds_pure henv _)) henv
  | succ n ih =>
      exact upholds_choose h hresolve place
        (upholds_deref h hresolve place fun place _ => ih place) henv

end Search

end Lookup

/-- A method call keeps what its steps keep, if its resolutions do. -/
theorem upholds_resolve {I : Env → Prop} {E : Cause → Prop} {config : Config} {program : Program}
    {env : Env} (h : Invariant I E)
    (hresolve : ∀ os {env}, I env → Upholds I E env (Solver.resolve config program os) env)
    (receiver : Ty) (traits : List Trait) (name : Text) (henv : I env) :
    Upholds I E env (resolve config program receiver traits name) env := by
  let cx : Lookup := ⟨config, program, declaring traits name, name⟩
  exact cx.upholds_search h hresolve _ _ henv

theorem grows_resolve (config : Config) (program : Program) (receiver : Ty) (traits : List Trait)
    (name : Text) : (resolve config program receiver traits name).Grows :=
  fun _ => (upholds_resolve growth
    (fun os _ => Solver.upholds_resolve growth trivial config program os) receiver traits name
    trivial).adds

end MethodCall

end TraitResolution
