import TraitResolution.Proofs.Limits
import TraitResolution.Proofs.ReachableResolution

/-!
# Recursion that ends

An operation that starts itself again, from inside of itself and in other environments, is given by
its body: what it does, with the operation to be started again as a parameter. It ends if the calls
that its body makes end, and it makes no others. `Operation.Terminates` says that a family of
operations does what such a body says and ends. Unification is the first example: it goes down into
the arguments of two constructors until there are none.

## Implementation notes

A body cannot be asked which calls it makes. But what it does depends on a call that it makes, so a
set of calls holds all of them if the body runs the same with any other family that agrees on the
set. A body that starts itself again at once is not among those that end: every such set holds the
call itself.
-/

namespace TraitResolution

namespace Operation

variable {ι ε α β : Type} {env : Env}

/-- Started for `i` in `env`, the family `x` does what its body says and ends. The calls that the
body makes are made in environments in `D` and end. -/
inductive Terminates (D : Env → Prop) (body : (ι → Operation ε α) → ι → Operation ε α)
    (x : ι → Operation ε α) : ι → Env → Prop
  | unfold {i : ι} {env : Env} (henv : D env) (calls : ι → Env → Prop)
      (hends : ∀ j mid, calls j mid → Terminates D body x j mid)
      (honly : ∀ y : ι → Operation ε α,
        (∀ j mid, calls j mid → (y j).run mid = (x j).run mid) →
          (body y i).run env = (x i).run env) : Terminates D body x i env

/-- Whatever does what the body says does the same where the recursion ends. -/
theorem Terminates.run_eq {D : Env → Prop} {body : (ι → Operation ε α) → ι → Operation ε α}
    {x y : ι → Operation ε α} {i : ι} (h : Terminates D body x i env)
    (hy : ∀ i env, (y i).run env = (body y i).run env) : (y i).run env = (x i).run env := by
  induction h with
  | unfold _ calls _ honly ih => exact (hy _ _).trans (honly y ih)

theorem bind_run_congr_left {x y : Operation ε α} (f : α → Operation ε β)
    (h : x.run env = y.run env) : (x >>= f).run env = (y >>= f).run env := by
  simp only [run, bind_run] at h ⊢
  rw [h]

end Operation

namespace Engine

open Operation

variable {α : Type} {env : Env} {known path : List Ty} {a b : Ty} {n : Nat}

theorem probe_run_congr {x y : Engine α} (h : x.run env = y.run env) :
    (probe x).run env = (probe y).run env :=
  congrArg (fun e : Execution Malformed α => e.unwound env.snapshot) h

theorem attempt_run_congr {x y : Engine Bool} (h : x.run env = y.run env) :
    (attempt x).run env = (attempt y).run env :=
  congrArg (fun e : Execution Malformed Bool => e.settled env.snapshot) h

/-- Tests that leave no trace and run the same select the same. -/
theorem select_run_congr {p q : α → Engine Bool} {l : List α} (hidle : ∀ a, (p a).Idle env)
    (h : ∀ a ∈ l, (p a).run env = (q a).run env) :
    (select p l).run env = (select q l).run env := by
  induction l with
  | nil => rfl
  | cons a l ih =>
      obtain ⟨ha, hl⟩ := List.forall_mem_cons.mp h
      have hrest : ∀ keep : Bool,
          (select p l >>= fun rest => pure (if keep then a :: rest else rest)).run env =
            (select q l >>= fun rest => pure (if keep then a :: rest else rest)).run env :=
        fun keep => bind_run_congr_left _ (ih hl)
      calc (select p (a :: l)).run env
          = (p a >>= fun keep => select q l >>= fun rest =>
              pure (if keep then a :: rest else rest)).run env := by
            apply bind_run_congr
            intro keep mid hkeep
            obtain rfl : mid = env := hkeep.2.symm.trans (hidle a)
            exact hrest keep
        _ = (select q (a :: l)).run env := bind_run_congr_left _ ha

/-- What unification does at the roots of two types, with the unification of their arguments as a
parameter. -/
def unifyRoots (again : Ty × Ty → Engine Bool) (p : Ty × Ty) : Engine Bool := do
  let env ← present
  match env.shallow p.1, env.shallow p.2 with
  | .var v, .var w => unifyVars v w
  | .var v, .con id args => unifyVarCon v (.con id args)
  | .con id args, .var v => unifyVarCon v (.con id args)
  | .con f xs, .con g ys =>
    if f ≠ g then
      pure false
    else if xs.length ≠ ys.length then
      fail (.typeArity (.con f xs) (.con g ys))
    else
      attempt ((xs.zip ys).allM again)
  | a, b => fail (.unifiesParam a b)

/-- Unify a pair of types. -/
def unifyPair (p : Ty × Ty) : Engine Bool :=
  unify p.1 p.2

/-- On a path of unification, as many levels as the rest of the path can have are enough. -/
theorem unify_run_eq_of_descent (h : Descent known (a :: path) env) (hb : b ∈ known)
    (hn : known.length < n + (a :: path).length) :
    (unify a b).run env = (unifyWithin n a b).run env :=
  calc (unify a b).run env
      = (unifyWithin (max (env.unifyBound a b) n) a b).run env :=
        unify_run_eq h.consistent (Nat.le_max_left _ _)
    _ = (unifyWithin n a b).run env := (unifyWithin_run_eq h hb hn (Nat.le_max_right _ _)).symm

/-- The arguments of two constructors that may be unified further down a path. -/
def GoesDown (known path : List Ty) (env : Env) (a b : Ty) (q : Ty × Ty) (mid : Env) : Prop :=
  ∃ f xs g ys, env.shallow a = .con f xs ∧ env.shallow b = .con g ys ∧ q ∈ xs.zip ys ∧
    Descent known (.con f xs :: path) mid

/-- The arguments of two constructors are unified the same way one level further down. -/
theorem allM_zip_run_eq {f g : String} {xs ys : List Ty} {y : Ty × Ty → Engine Bool}
    (h : Descent known (.con f xs :: path) env) (hb : .con g ys ∈ known)
    (hn : known.length < n + 1 + (.con f xs :: path).length)
    (hy : ∀ q ∈ xs.zip ys, ∀ mid, Descent known (.con f xs :: path) mid →
      (y q).run mid = (unifyPair q).run mid) :
    ((xs.zip ys).allM y).run env =
      ((xs.zip ys).allM fun p => unifyWithin n p.1 p.2).run env := by
  have hknown := (stable_knows known).zip h.knows (h.known _ List.mem_cons_self) hb
  symm
  apply allM_run_congr (I := Descent known (.con f xs :: path)) _ _ h
  · intro p hp mid hdescent
    rw [hy p hp mid hdescent, unifyPair]
    symm
    apply unify_run_eq_of_descent (hdescent.arg (List.of_mem_zip hp).1) (hknown p hp).2
    simp only [List.length_cons] at hn ⊢
    omega
  · intro p hp mid left hdescent hunify
    exact hdescent.unifyWithin (hknown p hp).1 (hknown p hp).2 hunify

/-- The roots of two types are unified the same way, if their arguments are. -/
theorem unifyRoots_run_eq (h : Descent known (a :: path) env) (hb : b ∈ known)
    (hn : known.length < n + 1 + (a :: path).length) {y : Ty × Ty → Engine Bool}
    (hy : ∀ q mid, GoesDown known path env a b q mid → (y q).run mid = (unifyPair q).run mid) :
    (unifyRoots y (a, b)).run env = (unifyPair (a, b)).run env := by
  rw [unifyPair, unify_run_eq_of_descent h hb hn, unifyWithin, unifyRoots, present_bind_run,
    present_bind_run]
  have hroot := h.shallow
  have hrootB := h.knows.shallow hb
  simp only [GoesDown] at hy
  generalize env.shallow a = x at hroot hy
  generalize env.shallow b = z at hrootB hy
  cases x with
  | var v => cases z <;> rfl
  | param i => cases z <;> rfl
  | con f xs =>
      cases z with
      | var v => rfl
      | param i => rfl
      | con g ys =>
          have hargs := allM_zip_run_eq hroot hrootB hn fun q hq mid hdescent =>
            hy q mid ⟨f, xs, g, ys, rfl, rfl, hq, hdescent⟩
          simp only
          split
          · rfl
          · split
            · rfl
            · exact attempt_run_congr hargs

/-- A path of unification cannot be longer than the list of the types that can be met. -/
theorem terminates_unify_of_descent (h : Descent known (a :: path) env) (hb : b ∈ known)
    (hn : known.length < n + (a :: path).length) :
    Terminates Env.Consistent unifyRoots unifyPair (a, b) env := by
  induction n generalizing a b path env with
  | zero =>
      have hle := h.length_le
      omega
  | succ n ih =>
      apply Terminates.unfold h.consistent (GoesDown known path env a b)
      · rintro ⟨x, z⟩ mid ⟨f, xs, g, ys, hx, hz, hmem, hdescent⟩
        have hknown := (stable_knows known).zip h.knows
          (hx ▸ h.knows.shallow (h.known a List.mem_cons_self)) (hz ▸ h.knows.shallow hb)
        apply ih (hdescent.arg (List.of_mem_zip hmem).1) (hknown _ hmem).2
        simp only [List.length_cons] at hn ⊢
        omega
      · intro y hy
        exact unifyRoots_run_eq h hb hn hy

/-- In a consistent environment unification goes down to the end. -/
theorem terminates_unify (henv : env.Consistent) (a b : Ty) :
    Terminates Env.Consistent unifyRoots unifyPair (a, b) env := by
  have hdescent : Descent (knownTypes env a b) [a] env := by
    refine ⟨henv, knows_knownTypes env a b, ?_, fun _ => List.pairwise_singleton _ _⟩
    simp [knownTypes, Ty.self_mem_subterms]
  have hb : b ∈ knownTypes env a b := by simp [knownTypes, Ty.self_mem_subterms]
  exact terminates_unify_of_descent hdescent hb (Nat.lt_succ_self _)

end Engine

end TraitResolution
