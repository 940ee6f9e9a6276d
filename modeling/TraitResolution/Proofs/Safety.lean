import TraitResolution.Proofs.Reachability
import TraitResolution.Proofs.Settling
import TraitResolution.Proofs.WellFormed

/-!
# Well-formed programs do not go wrong

Unification and resolution return when they are given what an environment admits, and they keep to
the signature. The one exception is a search without a greatest depth, which may go on for ever.

## Implementation notes

`Operation.Safe` is the weakest precondition of a postcondition, where some reasons for giving up
are tolerated. The rule for sequences hands on that the first part returned, since later parts may
rest on what it found: an impl that was found to unify is applied again, in the same environment.
-/

namespace TraitResolution

namespace Operation

variable {ε ε' α β : Type} {E : ε → Prop} {env left : Env}

/-- Started in `env`, the operation returns and satisfies `Q`, or gives up for a reason in `E`. -/
def Safe (E : ε → Prop) (x : Operation ε α) (env : Env) (Q : α → Env → Prop) : Prop :=
  match (x.run env).outcome with
  | .ok a => Q a (x.run env).env
  | .error e => E e

theorem safe_iff {x : Operation ε α} {Q : α → Env → Prop} :
    Safe E x env Q ↔ (∃ a left, x.Returns env a left ∧ Q a left) ∨
      ∃ e, (x.run env).outcome = .error e ∧ E e := by
  rw [Safe]
  cases houtcome : (x.run env).outcome with
  | error e => simp [Returns, houtcome]
  | ok a =>
      simp only [Returns, houtcome, reduceCtorEq, false_and, exists_false, or_false]
      constructor
      · exact fun h => ⟨a, _, ⟨rfl, rfl⟩, h⟩
      · rintro ⟨b, _, ⟨hb, rfl⟩, h⟩
        obtain rfl := Except.ok.inj hb
        exact h

theorem Returns.safe {x : Operation ε α} {Q : α → Env → Prop} {a : α} (h : x.Returns env a left)
    (hQ : Q a left) : Safe E x env Q :=
  safe_iff.mpr (Or.inl ⟨a, left, h, hQ⟩)

theorem Safe.mono {x : Operation ε α} {Q R : α → Env → Prop} (h : Safe E x env Q)
    (hQ : ∀ a left, x.Returns env a left → Q a left → R a left) : Safe E x env R := by
  rcases safe_iff.mp h with ⟨a, left, hx, hQx⟩ | he
  · exact hx.safe (hQ a left hx hQx)
  · exact safe_iff.mpr (Or.inr he)

theorem safe_pure {Q : α → Env → Prop} {a : α} (h : Q a env) :
    Safe E (pure a : Operation ε α) env Q :=
  h

theorem safe_present_bind {f : Env → Operation ε α} {Q : α → Env → Prop}
    (h : Safe E (f env) env Q) : Safe E (Engine.present >>= f) env Q :=
  h

theorem Safe.bind {x : Operation ε α} {f : α → Operation ε β} {P : α → Env → Prop}
    {Q : β → Env → Prop} (hx : Safe E x env P)
    (hf : ∀ a mid, x.Returns env a mid → P a mid → Safe E (f a) mid Q) :
    Safe E (x >>= f) env Q := by
  rcases safe_iff.mp hx with ⟨a, mid, hxa, hP⟩ | ⟨e, he, hE⟩
  · rcases safe_iff.mp (hf a mid hxa hP) with ⟨b, left, hfb, hQ⟩ | ⟨e, he, hE⟩
    · exact (returns_bind.mpr ⟨a, mid, hxa, hfb⟩).safe hQ
    · refine safe_iff.mpr (Or.inr ⟨e, ?_, hE⟩)
      have houtcome := hxa.1
      obtain rfl := hxa.2
      simp only [run, bind_run, Execution.follow] at he houtcome ⊢
      rw [houtcome]
      exact he
  · refine safe_iff.mpr (Or.inr ⟨e, ?_, hE⟩)
    simp only [run, bind_run, Execution.follow] at he ⊢
    rw [he]

theorem Safe.ite {c : Prop} [Decidable c] {x y : Operation ε α} {Q : α → Env → Prop}
    (hx : c → Safe E x env Q) (hy : ¬c → Safe E y env Q) : Safe E (if c then x else y) env Q := by
  split
  · rename_i hc
    exact hx hc
  · rename_i hc
    exact hy hc

theorem Safe.mapError {x : Operation ε α} {f : ε → ε'} {E : ε' → Prop} {Q : α → Env → Prop}
    (hx : Safe (fun e => E (f e)) x env Q) : Safe E (x.mapError f) env Q := by
  rw [Safe] at hx ⊢
  simp only [run, Operation.mapError, Execution.mapError] at hx ⊢
  cases houtcome : (x env).outcome with
  | ok a => simpa [houtcome, Except.mapError] using hx
  | error e => simpa [houtcome, Except.mapError] using hx

theorem safe_allM {p : α → Operation ε Bool} {l : List α} {Q : Env → Prop} (henv : Q env)
    (hp : ∀ a ∈ l, ∀ env, Q env → Safe E (p a) env fun _ left => Q left) :
    Safe E (l.allM p) env fun _ left => Q left := by
  induction l generalizing env with
  | nil => exact safe_pure henv
  | cons a l ih =>
      refine (hp a (by simp) env henv).bind fun b mid _ hmid => ?_
      cases b with
      | false => exact safe_pure hmid
      | true => exact ih hmid fun c hc => hp c (by simp [hc])

theorem safe_mapM {f : α → Operation ε β} {l : List α} {Q : Env → Prop} (henv : Q env)
    (hf : ∀ a ∈ l, ∀ env, Q env → Safe E (f a) env fun _ left => Q left) :
    Safe E (l.mapM f) env fun _ left => Q left := by
  induction l generalizing env with
  | nil =>
      rw [List.mapM_nil]
      exact safe_pure henv
  | cons a l ih =>
      rw [List.mapM_cons]
      refine (hf a (by simp) env henv).bind fun b mid _ hmid => ?_
      exact (ih hmid fun c hc => hf c (by simp [hc])).bind fun bs left _ hleft => safe_pure hleft

end Operation

namespace Engine

open Operation

variable {α : Type} {E : Malformed → Prop} {env left : Env}

/-- A report does not bear on the safety of what follows it. -/
theorem safe_report_bind {event : Event} {f : Unit → Engine α} {Q : α → Env → Prop}
    (h : Safe E (f ()) env Q) : Safe E (report event >>= f) env Q :=
  h

theorem safe_ofSubst {x : Except SubstError α} {a : α} {Q : α → Env → Prop} (hx : x = .ok a)
    (hQ : Q a env) : Safe E (ofSubst x) env Q :=
  (returns_ofSubst.mpr ⟨hx, rfl⟩).safe hQ

theorem safe_probe {x : Engine α} {P Q : α → Env → Prop} (hgrows : x.Grows) (hx : Safe E x env P)
    (h : ∀ a gone, x.Returns env a gone → P a gone → Q a env) : Safe E (probe x) env Q := by
  rcases safe_iff.mp hx with ⟨a, gone, hxa, hP⟩ | ⟨e, he, hE⟩
  · exact ((returns_probe hgrows).mpr ⟨⟨gone, hxa⟩, rfl⟩).safe (h a gone hxa hP)
  · refine safe_iff.mpr (Or.inr ⟨e, ?_, hE⟩)
    rw [(probe_run hgrows env).1]
    exact he

theorem safe_attempt {x : Engine Bool} {Q : Bool → Env → Prop} (hgrows : x.Grows)
    (hx : Safe E x env Q) (henv : Q false env) : Safe E (attempt x) env Q := by
  rcases safe_iff.mp hx with ⟨b, left, hxb, hQ⟩ | ⟨e, he, hE⟩
  · cases b with
    | true => exact ((returns_attempt_true hgrows).mpr hxb).safe hQ
    | false => exact ((returns_attempt_false hgrows).mpr ⟨⟨left, hxb⟩, rfl⟩).safe henv
  · refine safe_iff.mpr (Or.inr ⟨e, ?_, hE⟩)
    have houtcome := (unwound_of_extends (hgrows env).extends_env).1
    simp only [run] at he houtcome
    simp only [run, attempt, Execution.settled, he]
    exact houtcome.trans he

/-- Going back to a moment before restores the environment of that moment. -/
theorem safe_rollback {before : Env} {Q : Env → Prop} (h : env.Extends before) (hQ : Q before) :
    Safe E (rollback before.snapshot) env fun _ left => Q left := by
  have hback : (rollback before.snapshot).Returns env () before :=
    returns_rollback.mpr ⟨h.len_le, h.restored_snapshot.symm⟩
  exact hback.safe hQ

/-- Where each test leaves the environment alone, what passes was there before, and passed. -/
theorem safe_select {p : α → Engine Bool} {P : α → Prop} {l : List α}
    (hp : ∀ a ∈ l, Safe E (p a) env fun b left => left = env ∧ (b = true → P a)) :
    Safe E (select p l) env fun kept left => left = env ∧ ∀ a ∈ kept, a ∈ l ∧ P a := by
  induction l with
  | nil => exact safe_pure ⟨rfl, by simp⟩
  | cons a l ih =>
      refine (hp a (by simp)).bind fun keep mid _ ⟨hmid, hkeep⟩ => ?_
      subst hmid
      refine (ih fun c hc => hp c (by simp [hc])).bind fun rest left _ ⟨hleft, hrest⟩ => ?_
      refine safe_pure ⟨hleft, ?_⟩
      have htail : ∀ c ∈ rest, c ∈ a :: l ∧ P c :=
        fun c hc => ⟨List.mem_cons_of_mem _ (hrest c hc).1, (hrest c hc).2⟩
      cases keep with
      | false => exact htail
      | true => exact List.forall_mem_cons.mpr ⟨⟨List.mem_cons_self, hkeep rfl⟩, htail⟩

theorem safe_isolated {x : Engine α} {P Q : α → Env → Prop} (hx : Safe E x .empty P)
    (h : ∀ a own, P a own → Q a env) : Safe E (isolated x) env Q := by
  rcases safe_iff.mp hx with ⟨a, own, hxa, hP⟩ | ⟨e, he, hE⟩
  · exact (returns_isolated.mpr ⟨⟨own, hxa⟩, rfl⟩).safe (h a own hP)
  · exact safe_iff.mpr (Or.inr ⟨e, he, hE⟩)

end Engine

section Unification

open Operation Engine

variable {sig : Signature} {E : Malformed → Prop} {env left : Env} {a b : Ty}

/-- An operation that unifies or changes nothing keeps an environment typed if its bindings keep to
the signature. -/
theorem Operation.Safe.typed {x : Engine Bool} (henv : env.Typed sig) (hx : x.AllOrNothing)
    (hunified : ∀ left, x.Returns env true left → ∃ eqs, env.Unified eqs left)
    (h : Safe E x env fun _ left => ∀ b ∈ left.trail, b.value.Fits sig) :
    Safe E x env fun _ left => left.Typed sig := by
  refine h.mono fun r left hr hfits => ?_
  cases r with
  | true =>
      obtain ⟨eqs, heqs⟩ := hunified left hr
      exact ⟨heqs.valid, hfits⟩
  | false =>
      have hleft : left = env := by
        rw [← hr.2]
        exact hx env (by simp [hr.1])
      exact hleft ▸ henv

namespace Engine

theorem safe_bindVar {v : Var} {t : Ty} (henv : env.Typed sig) (hv : env.value? v = none)
    (ht : env.Admits sig t) : Safe E (do bindVar v t; pure true : Engine Bool) env
      fun _ left => ∀ b ∈ left.trail, b.value.Fits sig := by
  have hbind : (bindVar v t).Returns env () (env.bound v t) :=
    returns_bindVar.mpr ⟨hv, henv.hasParams_eq_false ht, rfl⟩
  have hfits : ∀ b ∈ (env.bound v t).trail, b.value.Fits sig :=
    List.forall_mem_cons.mpr ⟨ht.fits, henv.fits⟩
  exact (hbind.safe (Q := fun _ left => ∀ b ∈ left.trail, b.value.Fits sig) hfits).bind
    fun _ _ _ hmid => safe_pure hmid

theorem safe_unifyVarCon {v : Var} {t : Ty} (henv : env.Typed sig) (hv : env.value? v = none)
    (ht : env.Admits sig t) : Safe E (unifyVarCon v t) env
      fun _ left => ∀ b ∈ left.trail, b.value.Fits sig := by
  refine safe_present_bind (Safe.ite (fun _ => ?_) fun _ => ?_)
  · exact safe_report_bind (safe_pure henv.fits)
  · exact safe_bindVar henv hv ht

theorem safe_unifyVars {v w : Var} (henv : env.Typed sig) (hv : env.value? v = none)
    (hw : env.value? w = none) (hlv : env.Live v) (hlw : env.Live w) :
    Safe E (unifyVars v w) env fun _ left => ∀ b ∈ left.trail, b.value.Fits sig := by
  refine Safe.ite (fun _ => safe_pure henv.fits) fun _ => Safe.ite (fun _ => ?_) fun _ => ?_
  · exact safe_bindVar henv hw (Env.admits_var.mpr hlv)
  · exact safe_bindVar henv hv (Env.admits_var.mpr hlw)

/-- Pairs of admitted types are unified one after the other, each in the environment that is
left. -/
theorem safe_allM_zip {step : Ty × Ty → Engine Bool} {xs ys : List Ty}
    (hgrows : ∀ p, (step p).Grows)
    (hstep : ∀ p env, env.Typed sig → env.Admits sig p.1 → env.Admits sig p.2 →
      Safe E (step p) env fun _ left => left.Typed sig)
    (henv : env.Typed sig) (hxs : ∀ x ∈ xs, env.Admits sig x) (hys : ∀ y ∈ ys, env.Admits sig y) :
    Safe E ((xs.zip ys).allM step) env fun _ left => left.Typed sig := by
  refine Safe.mono (Q := fun _ left => left.Typed sig ∧ left.Extends env) ?_
    fun _ _ _ hleft => hleft.1
  refine safe_allM ⟨henv, Env.Extends.refl env⟩ fun p hp mid ⟨hmid, hextends⟩ => ?_
  have hx := (hxs p.1 (List.of_mem_zip hp).1).of_extends hextends
  have hy := (hys p.2 (List.of_mem_zip hp).2).of_extends hextends
  refine (hstep p mid hmid hx hy).mono fun _ left hleft htyped => ⟨htyped, ?_⟩
  exact (hleft.extends_env (hgrows p)).trans hextends

theorem safe_unifyWithin (n : Nat) (henv : env.Typed sig) (ha : env.Admits sig a)
    (hb : env.Admits sig b) : Safe E (unifyWithin n a b) env fun _ left => left.Typed sig := by
  induction n generalizing env a b with
  | zero => exact safe_pure henv
  | succ n ih =>
      refine Safe.typed henv (allOrNothing_unifyWithin _ _ _)
        (fun left h => ⟨_, unifyWithin_unified henv.valid ha.covers hb.covers h⟩) ?_
      apply safe_present_bind
      have ha' := henv.admits_shallow ha
      have hb' := henv.admits_shallow hb
      have hunbound : ∀ {t v}, env.shallow t = .var v → env.value? v = none :=
        fun h => henv.valid.value?_of_shallow h
      split
      · rename_i v w hv hw
        rw [hv, Env.admits_var] at ha'
        rw [hw, Env.admits_var] at hb'
        exact safe_unifyVars henv (hunbound hv) (hunbound hw) ha' hb'
      · rename_i v id args hv hcon
        exact safe_unifyVarCon henv (hunbound hv) (hcon ▸ hb')
      · rename_i id args v hcon hv
        exact safe_unifyVarCon henv (hunbound hv) (hcon ▸ ha')
      · rename_i f xs g ys hf hg
        rw [hf, Env.admits_con] at ha'
        rw [hg, Env.admits_con] at hb'
        refine Safe.ite (fun _ => safe_pure henv.fits) fun hfg => ?_
        obtain rfl : f = g := not_not.mp hfg
        rw [if_neg (not_not.mpr (ha'.1.trans hb'.1.symm))]
        refine safe_attempt (grows_unifyArgs n _) ?_ henv.fits
        refine (safe_allM_zip (fun p => grows_unifyWithin n p.1 p.2) (fun p env henv hx hy => ?_)
          henv ha'.2 hb'.2).mono fun _ _ _ hleft => hleft.fits
        exact ih henv hx hy
      · rename_i hvv hvc hcv hcc
        -- what is left has a type parameter at one of the roots
        cases hroot : env.shallow a with
        | con f xs =>
            cases hroot' : env.shallow b with
            | con g ys => exact absurd hroot' (hcc f xs g ys hroot)
            | param i => exact absurd (hroot' ▸ hb') Env.not_admits_param
            | var v => exact absurd hroot' (hcv f xs v hroot)
        | param i => exact absurd (hroot ▸ ha') Env.not_admits_param
        | var v =>
            cases hroot' : env.shallow b with
            | con g ys => exact absurd hroot' (hvc v g ys hroot)
            | param i => exact absurd (hroot' ▸ hb') Env.not_admits_param
            | var w => exact absurd hroot' (hvv v w hroot)

theorem safe_unify (henv : env.Typed sig) (ha : env.Admits sig a) (hb : env.Admits sig b) :
    Safe E (unify a b) env fun _ left => left.Typed sig :=
  safe_present_bind (safe_unifyWithin _ henv ha hb)

theorem safe_unifyAll {as bs : List Ty} (henv : env.Typed sig) (hlen : as.length = bs.length)
    (has : ∀ a ∈ as, env.Admits sig a) (hbs : ∀ b ∈ bs, env.Admits sig b) :
    Safe E (unifyAll as bs) env fun _ left => left.Typed sig := by
  rw [unifyAll, if_neg (not_not.mpr hlen)]
  refine safe_attempt (grows_unifyZip _) ?_ henv
  exact safe_allM_zip (fun p => grows_unify p.1 p.2) (fun p env => safe_unify) henv has hbs

/-- References to one trait have the same number of parameters. -/
theorem safe_unifyReferences {r s : Reference} (henv : env.Typed sig) (hid : r.id = s.id)
    (hr : env.AdmitsRef sig r) (hs : env.AdmitsRef sig s) :
    Safe E (unifyReferences r s) env fun _ left => left.Typed sig := by
  have hlen : r.params.length = s.params.length := by
    rw [hr.length_params, hs.length_params, hid]
  rw [unifyReferences, if_neg (not_not.mpr hlen)]
  refine safe_attempt (grows_unifyParts r s) ?_ henv
  obtain ⟨hself, hparams⟩ := List.forall_mem_cons.mp hr.types
  obtain ⟨hself', hparams'⟩ := List.forall_mem_cons.mp hs.types
  refine (safe_unify henv hself hself').bind fun same mid hmid htyped => ?_
  have hextends := hmid.extends_env (grows_unify _ _)
  refine Safe.ite (fun _ => ?_) fun _ => safe_pure htyped
  exact safe_unifyAll htyped hlen (fun t ht => (hparams t ht).of_extends hextends)
    fun t ht => (hparams' t ht).of_extends hextends

end Engine

end Unification

namespace Env

variable {env later : Env} {sig : Signature} {os nested : List Obligation}

/-- Obligations that the engine may work on in an environment. -/
def AdmitsAll (env : Env) (sig : Signature) (os : List Obligation) : Prop :=
  ∀ o ∈ os, env.AdmitsRef sig o.trait

theorem AdmitsAll.of_extends (h : env.AdmitsAll sig os) (hextends : later.Extends env) :
    later.AdmitsAll sig os :=
  fun o ho => (h o ho).of_extends hextends

end Env

namespace Solver

open Operation Engine

variable {sig : Signature} {E : Malformed → Prop} {program : Program}
  {speculate : List Obligation → Engine Resolution} {impl : Impl} {o : Obligation}
  {os : List Obligation} {env : Env} {maxDepth : Int} {n : Nat}

/-- What an impl with new variables for its parameters consists of. -/
structure Instantiated (sig : Signature) (impl : Impl) (p : List Ty × Reference) (left : Env) :
    Prop where
  typed : left.Typed sig
  length_vars : p.1.length = impl.params.length
  vars : ∀ t ∈ p.1, left.Admits sig t
  ref : left.AdmitsRef sig p.2
  id_eq : p.2.id = impl.trait.id

theorem safe_instantiate (henv : env.Typed sig) (himpl : impl.WellFormed sig) :
    Safe E (instantiate impl) env (Instantiated sig impl) := by
  have hlen := env.length_nextVars impl.params.length
  obtain ⟨ref, hsubst, href⟩ := Reference.WellFormed.exists_subst (hlen ▸ himpl.trait)
    fun t ht => Env.admits_nextVars ht
  refine ((returns_instantiate henv.valid).mpr ⟨rfl, hsubst, rfl⟩).safe ?_
  exact ⟨henv.grown _, hlen, fun t ht => Env.admits_nextVars ht, href,
    (Reference.subst_eq_ok.mp hsubst).1⟩

/-- An impl can be applied to an obligation for its trait. -/
theorem safe_apply (henv : env.Typed sig) (himpl : impl.WellFormed sig)
    (hid : impl.trait.id = o.trait.id) (ho : env.AdmitsRef sig o.trait) :
    Safe E (apply impl o) env fun vars? left => left.Typed sig ∧ ∀ vars, vars? = some vars →
      vars.length = impl.params.length ∧ ∀ t ∈ vars, left.Admits sig t := by
  refine (safe_instantiate henv himpl).bind fun p mid hp hinstance => ?_
  have hdemand := ho.of_extends (hp.extends_env (grows_instantiate impl))
  refine (safe_unifyReferences hinstance.typed (hinstance.id_eq.trans hid) hinstance.ref
    hdemand).bind fun same left hleft htyped => ?_
  refine Safe.ite (fun _ => safe_pure ⟨htyped, ?_⟩) fun _ => safe_pure ⟨htyped, by simp⟩
  rintro vars hvars
  obtain rfl := Option.some.inj hvars
  have hextends := hleft.extends_env (grows_unifyReferences _ _)
  exact ⟨hinstance.length_vars, fun t ht => (hinstance.vars t ht).of_extends hextends⟩

/-- The obligations that the bounds of an applied impl give rise to. -/
theorem safe_boundsOf {vars : List Ty} (himpl : impl.WellFormed sig)
    (hlen : vars.length = impl.params.length) (hvars : ∀ t ∈ vars, env.Admits sig t) :
    Safe E (boundsOf o impl vars) env fun nested left => left = env ∧ env.AdmitsAll sig nested ∧
      ∀ x ∈ nested, x.depth = Obligation.depthBelow o.depth := by
  obtain ⟨bounds, hbounds, hadmits⟩ := himpl.exists_boundsWith hlen hvars
  refine (returns_boundsOf.mpr ⟨⟨bounds, hbounds, rfl⟩, rfl⟩).safe ⟨rfl, ?_, ?_⟩
  · exact Obligation.forall_mem_nestedAll.mpr hadmits
  · intro x hx
    obtain ⟨k, hk, rfl⟩ := List.mem_mapIdx.mp hx
    rfl

theorem safe_unifies (henv : env.Typed sig) (himpl : impl.WellFormed sig)
    (hid : impl.trait.id = o.trait.id) (ho : env.AdmitsRef sig o.trait) :
    Safe E (unifies o impl) env fun b left => left = env ∧
      (b = true → ∃ vars mid, (apply impl o).Returns env (some vars) mid) := by
  have happly := safe_apply (E := E) henv himpl hid ho
  refine safe_probe ((grows_apply impl o).bind fun _ => grows_pure _)
    (P := fun b _ => b = true → ∃ vars mid, (apply impl o).Returns env (some vars) mid) ?_
    fun _ _ _ h => ⟨rfl, h⟩
  refine happly.bind fun vars? mid hvars _ => safe_pure fun hsome => ?_
  obtain ⟨vars, rfl⟩ := Option.isSome_iff_exists.mp hsome
  exact ⟨vars, mid, hvars⟩

/-- How far an obligation may be from the greatest depth. There is no limit to that if no depth lies
beyond. -/
def Reaches (maxDepth : Int) (n : Nat) (o : Obligation) : Prop :=
  maxDepth + 1 < Number.signedLimit → maxDepth + 1 - o.depth ≤ n

/-- What arises from an obligation is one step closer to the greatest depth. -/
theorem Reaches.nested (h : Reaches maxDepth (n + 1) o) (hdepth : beyond maxDepth o = false)
    {x : Obligation} (hx : x.depth = Obligation.depthBelow o.depth) : Reaches maxDepth n x := by
  intro hlimit
  have hle : ¬maxDepth < o.depth := by simpa [beyond] using hdepth
  have hnear := h hlimit
  have hbelow : Obligation.depthBelow o.depth = o.depth + 1 := if_neg (by omega)
  rw [hx, hbelow]
  omega

/-- The reason for giving up when obligations arise without end, which needs a search without a
greatest depth. -/
def Endless (maxDepth : Int) (m : Malformed) : Prop :=
  m.cause = .endless ∧ Number.signedLimit ≤ maxDepth + 1

section Step

variable (hprogram : program.WellFormed sig) (hgrows : ∀ os, (speculate os).Grows)
  (hspeculate : ∀ env os, env.Typed sig → env.AdmitsAll sig os →
    (∀ o ∈ os, Reaches maxDepth n o) → Safe E (speculate os) env fun _ left => left.Typed sig)
  (henv : env.Typed sig) (ho : env.AdmitsRef sig o.trait) (hnear : Reaches maxDepth (n + 1) o)
  (hdepth : beyond maxDepth o = false)

include hgrows hspeculate henv ho hnear hdepth in
theorem safe_viable (himpl : impl.WellFormed sig) (hid : impl.trait.id = o.trait.id) :
    Safe E (viable speculate o impl) env fun _ left => left = env := by
  have hprobe : Safe E (probe (weigh speculate o impl)) env fun _ left => left = env := by
    refine safe_probe (grows_weigh hgrows o impl) (P := fun _ _ => True) ?_ fun _ _ _ _ => rfl
    refine (safe_apply henv himpl hid ho).bind fun vars? mid _ ⟨hmid, hvars⟩ => ?_
    cases vars? with
    | none => exact safe_pure trivial
    | some vars =>
        obtain ⟨hlen, hadmits⟩ := hvars vars rfl
        refine (safe_boundsOf himpl hlen hadmits).bind ?_
        rintro nested _ - ⟨rfl, hnested, hdepths⟩
        have hreaches : ∀ x ∈ nested, Reaches maxDepth n x :=
          fun x hx => hnear.nested hdepth (hdepths x hx)
        exact (hspeculate _ nested hmid hnested hreaches).bind fun _ _ _ _ => safe_pure trivial
  refine hprobe.bind fun holds mid _ hmid => Safe.ite (fun _ => safe_pure hmid) fun _ => ?_
  exact safe_report_bind (safe_pure hmid)

include hprogram hgrows hspeculate henv ho hnear hdepth in
/-- The candidates are impls of the trait that were found to unify with the obligation. -/
theorem safe_candidates : Safe E (candidates program speculate o) env fun cs left => left = env ∧
    ∀ impl ∈ cs, (impl ∈ program.impls ∧ impl.trait.id = o.trait.id) ∧
      ∃ vars mid, (apply impl o).Returns env (some vars) mid := by
  have hunifies : ∀ impl ∈ program.implsOf o.trait.id, Safe E (unifies o impl) env fun b left =>
      left = env ∧ (b = true → ∃ vars mid, (apply impl o).Returns env (some vars) mid) := by
    intro impl himpl
    obtain ⟨hmem, hid⟩ := Program.mem_implsOf.mp himpl
    exact safe_unifies henv (hprogram impl hmem) hid ho
  refine (safe_select hunifies).bind fun unifiable mid _ ⟨hmid, hunifiable⟩ => ?_
  subst hmid
  have hfound : ∀ impl ∈ unifiable, (impl ∈ program.impls ∧ impl.trait.id = o.trait.id) ∧
      ∃ vars mid', (apply impl o).Returns mid (some vars) mid' :=
    fun impl himpl => ⟨Program.mem_implsOf.mp (hunifiable impl himpl).1, (hunifiable impl himpl).2⟩
  refine Safe.ite (fun _ => safe_pure ⟨rfl, hfound⟩) fun _ => ?_
  refine (safe_select (P := fun _ => True) fun impl himpl => ?_).mono ?_
  · obtain ⟨⟨hmem, hid⟩, -⟩ := hfound impl himpl
    exact (safe_viable hgrows hspeculate henv ho hnear hdepth (hprogram impl hmem) hid).mono
      fun _ _ _ hleft => ⟨hleft, fun _ => trivial⟩
  · rintro cs left - ⟨hleft, hcs⟩
    exact ⟨hleft, fun impl himpl => hfound impl (hcs impl himpl).1⟩

end Step

/-- What settling an obligation leaves: a typed environment, and obligations for the next
generation. -/
structure Advanced (sig : Signature) (maxDepth : Int) (n : Nat) (nested : List Obligation)
    (left : Env) : Prop where
  typed : left.Typed sig
  admits : left.AdmitsAll sig nested
  reaches : ∀ x ∈ nested, Reaches maxDepth n x

theorem advanced_nil (henv : env.Typed sig) : Advanced sig maxDepth n [] env :=
  ⟨henv, by simp [Env.AdmitsAll], by simp⟩

/-- The impl that is confirmed was found to unify in the same environment, so it does again. -/
theorem safe_confirm (henv : env.Typed sig) (himpl : impl.WellFormed sig)
    (hid : impl.trait.id = o.trait.id) (ho : env.AdmitsRef sig o.trait)
    (hnear : Reaches maxDepth (n + 1) o) (hdepth : beyond maxDepth o = false)
    {vars : List Ty} {mid : Env} (happly : (apply impl o).Returns env (some vars) mid) :
    Safe E (confirm o impl) env fun p left => Advanced sig maxDepth n p.2 left := by
  refine (safe_apply henv himpl hid ho).bind fun vars? left hvars? ⟨hleft, hvars⟩ => ?_
  obtain ⟨rfl, rfl⟩ := hvars?.unique happly
  obtain ⟨hlen, hadmits⟩ := hvars vars rfl
  refine (safe_boundsOf himpl hlen hadmits).bind ?_
  rintro nested _ - ⟨rfl, hnested, hdepths⟩
  exact safe_pure ⟨hleft, hnested, fun x hx => hnear.nested hdepth (hdepths x hx)⟩

theorem safe_settle (hprogram : program.WellFormed sig) (hgrows : ∀ os, (speculate os).Grows)
    (hspeculate : ∀ env os, env.Typed sig → env.AdmitsAll sig os →
      (∀ o ∈ os, Reaches maxDepth n o) → Safe E (speculate os) env fun _ left => left.Typed sig)
    (henv : env.Typed sig) (ho : env.AdmitsRef sig o.trait) (hnear : Reaches maxDepth (n + 1) o) :
    Safe E (settle maxDepth program speculate o) env
      fun p left => Advanced sig maxDepth n p.2 left := by
  refine Safe.ite (fun _ => safe_report_bind (safe_pure (advanced_nil henv))) fun hbeyond => ?_
  have hdepth : beyond maxDepth o = false := Bool.eq_false_iff.mpr hbeyond
  refine (safe_candidates hprogram hgrows hspeculate henv ho hnear hdepth).bind ?_
  rintro cs mid - ⟨hmid, hcs⟩
  subst hmid
  rcases cs with _ | ⟨impl, _ | ⟨other, cs⟩⟩
  · refine safe_present_bind (Safe.ite (fun _ => ?_) fun _ => ?_)
    · exact safe_report_bind (safe_pure (advanced_nil henv))
    · exact safe_report_bind (safe_pure (advanced_nil henv))
  · obtain ⟨⟨hmem, hid⟩, vars, left, happly⟩ := hcs impl (by simp)
    exact safe_report_bind (safe_confirm henv (hprogram impl hmem) hid ho hnear hdepth happly)
  · exact safe_report_bind (safe_pure (advanced_nil henv))

theorem safe_settleAll {settleOne : Obligation → Engine (Resolution × List Obligation)}
    (hgrows : ∀ o, (settleOne o).Grows)
    (hstep : ∀ env o, env.Typed sig → env.AdmitsRef sig o.trait → Reaches maxDepth (n + 1) o →
      Safe E (settleOne o) env fun p left => Advanced sig maxDepth n p.2 left)
    (hos : Advanced sig maxDepth (n + 1) os env) :
    Safe E (settleAll settleOne os) env fun p left => Advanced sig maxDepth n p.2 left := by
  induction os generalizing env with
  | nil => exact safe_pure (advanced_nil hos.typed)
  | cons o os ih =>
      obtain ⟨ho, hadmits⟩ := List.forall_mem_cons.mp hos.admits
      obtain ⟨hnear, hreaches⟩ := List.forall_mem_cons.mp hos.reaches
      refine (hstep env o hos.typed ho hnear).bind fun p mid hp hfirst => ?_
      have hextends := hp.extends_env (hgrows o)
      have hrest : Advanced sig maxDepth (n + 1) os mid :=
        ⟨hfirst.typed, fun x hx => (hadmits x hx).of_extends hextends, hreaches⟩
      refine (ih hrest).bind fun q left hq hlast => safe_pure ⟨hlast.typed, ?_, ?_⟩
      · refine List.forall_mem_append.mpr ⟨?_, hlast.admits⟩
        exact hfirst.admits.of_extends (hq.extends_env (grows_settleAll hgrows os))
      · exact List.forall_mem_append.mpr ⟨hfirst.reaches, hlast.reaches⟩

/-- A resolution of admitted obligations returns, unless there is no greatest depth. -/
theorem safe_resolveWithin (hprogram : program.WellFormed sig)
    (hos : Advanced sig maxDepth n os env) :
    Safe (Endless maxDepth) (resolveWithin maxDepth program n os) env
      fun _ left => left.Typed sig := by
  induction n generalizing env os with
  | zero =>
      cases os with
      | nil => exact safe_pure hos.typed
      | cons o os =>
          refine Safe.ite (fun _ => ?_) fun hdepth => ?_
          · have hreports : ((o :: os).forM fun o => report (.overflow o)).Returns env () env :=
              returns_reportAll.mpr rfl
            exact (hreports.safe (Q := fun _ left => left.Typed sig) hos.typed).bind
              fun _ _ _ hmid => safe_pure hmid
          · -- with a greatest depth, the last generation lies beyond it
            refine safe_iff.mpr (Or.inr ⟨_, rfl, rfl, Int.not_lt.mp fun hlimit => hdepth ?_⟩)
            rw [List.all_eq_true]
            intro x hx
            have hnear := hos.reaches x hx hlimit
            simp only [beyond, decide_eq_true_eq]
            omega
  | succ n ih =>
      cases os with
      | nil => exact safe_pure hos.typed
      | cons o os =>
          have hgrows := grows_resolveWithin maxDepth program n
          refine (safe_settleAll (grows_settle maxDepth program hgrows) (fun env o => ?_) hos).bind
            fun p mid _ hmid => (ih hmid).bind fun rest left _ hleft => safe_pure hleft
          exact safe_settle hprogram hgrows fun env os henv hos hnear => ih ⟨henv, hos, hnear⟩

theorem reaches_generations (ho : o ∈ os) : Reaches maxDepth (generations maxDepth os) o := by
  intro hlimit
  rw [generations, if_pos hlimit]
  induction os with
  | nil => exact absurd ho List.not_mem_nil
  | cons x os ih =>
      rw [List.foldr_cons]
      rcases List.mem_cons.mp ho with rfl | ho
      · omega
      · have hle := ih ho
        omega

theorem safe_resolve {config : Config} (hprogram : program.WellFormed sig) (henv : env.Typed sig)
    (hos : env.AdmitsAll sig os) : Safe (Endless config.maxDepth) (resolve config program os) env
      fun _ left => left.Typed sig :=
  safe_resolveWithin hprogram ⟨henv, hos, fun _ => reaches_generations⟩

end Solver

end TraitResolution
