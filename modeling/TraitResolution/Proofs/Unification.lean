import TraitResolution.Proofs.Validity

/-!
# Unification finds the most general solution

When unification succeeds, the solutions of the environment it leaves are exactly those solutions of
the environment it started in that make the two types equal. When it fails, no solution does.

## Implementation notes

Unification goes down at most `Env.unifyBound` levels. Going down is only answered by a failure for
want of levels, and that cannot happen while a solution exists: along a path of arguments the size
of the solved type decreases, so all types on the path are distinct, and they all occur in the two
types or in a value of the environment.
-/

namespace TraitResolution

namespace Ty

mutual

/-- The types that occur in a type, itself included. -/
def subterms : Ty → List Ty
  | con id args => con id args :: subtermsAll args
  | param i => [param i]
  | var v => [var v]

/-- The types that occur in a list of types. -/
def subtermsAll : List Ty → List Ty
  | [] => []
  | t :: ts => subterms t ++ subtermsAll ts

end

@[simp] theorem subtermsAll_eq_flatMap (ts : List Ty) : subtermsAll ts = ts.flatMap subterms := by
  induction ts with
  | nil => simp [subtermsAll]
  | cons t ts ih => simp [subtermsAll, ih]

theorem length_subtermsAll {ts : List Ty} (h : ∀ t ∈ ts, t.subterms.length = t.size) :
    (subtermsAll ts).length = sizeAll ts := by
  induction ts with
  | nil => rfl
  | cons t ts ih =>
      obtain ⟨ht, hts⟩ := List.forall_mem_cons.mp h
      rw [subtermsAll, sizeAll, List.length_append, ht, ih hts]

@[simp] theorem length_subterms (t : Ty) : t.subterms.length = t.size := by
  induction t using induction with
  | con id args ih => rw [subterms, size, List.length_cons, length_subtermsAll ih]
  | param i => simp [subterms, size]
  | var v => simp [subterms, size]

theorem self_mem_subterms (t : Ty) : t ∈ t.subterms := by
  cases t <;> simp [subterms]

theorem arg_mem_subterms {t a : Ty} {id : String} {args : List Ty} (h : con id args ∈ t.subterms)
    (ha : a ∈ args) : a ∈ t.subterms := by
  induction t using induction with
  | con id' args' ih =>
      simp only [subterms, subtermsAll_eq_flatMap, List.mem_cons, List.mem_flatMap] at h ⊢
      rcases h with h | ⟨s, hs, h⟩
      · obtain ⟨rfl, rfl⟩ := con.inj h
        exact Or.inr ⟨a, ha, self_mem_subterms a⟩
      · exact Or.inr ⟨s, hs, ih s hs h⟩
  | param i => simp [subterms] at h
  | var v => simp [subterms] at h

theorem size_le_sizeAll {t : Ty} {ts : List Ty} (ht : t ∈ ts) : t.size ≤ sizeAll ts := by
  induction ts with
  | nil => exact absurd ht List.not_mem_nil
  | cons u ts ih =>
      rw [sizeAll]
      rcases List.mem_cons.mp ht with rfl | ht
      · omega
      · have hle := ih ht
        omega

theorem size_lt_size_con {a : Ty} {id : String} {args : List Ty} (ha : a ∈ args) :
    a.size < (con id args).size := by
  have hle := size_le_sizeAll ha
  rw [size]
  omega

theorem size_replaceVars_le {f : Var → Ty} {t : Ty} {v : Var} (hv : v ∈ t.vars) :
    (f v).size ≤ (t.replaceVars f).size := by
  induction t using induction with
  | con id args ih =>
      obtain ⟨a, ha, hv⟩ : ∃ a ∈ args, v ∈ a.vars := by simpa using hv
      have hlt : (a.replaceVars f).size < ((con id args).replaceVars f).size := by
        rw [replaceVars_con]
        exact size_lt_size_con (List.mem_map_of_mem ha)
      have hle := ih a ha hv
      omega
  | param i => simp at hv
  | var w =>
      obtain rfl : v = w := by simpa using hv
      simp

/-- A variable of a constructor's arguments stands for less than the constructor does. -/
theorem size_lt_of_mem_vars {f : Var → Ty} {id : String} {args : List Ty} {v : Var}
    (hv : v ∈ (con id args).vars) : (f v).size < ((con id args).replaceVars f).size := by
  obtain ⟨a, ha, hv⟩ : ∃ a ∈ args, v ∈ a.vars := by simpa using hv
  rw [replaceVars_con]
  exact Nat.lt_of_le_of_lt (size_replaceVars_le hv) (size_lt_size_con (List.mem_map_of_mem ha))

end Ty

/-- A replacement that makes the two sides of every pair equal. -/
def Equates (f : Var → Ty) (eqs : List (Ty × Ty)) : Prop :=
  ∀ p ∈ eqs, p.1.replaceVars f = p.2.replaceVars f

theorem equates_cons {f : Var → Ty} {p : Ty × Ty} {eqs : List (Ty × Ty)} :
    Equates f (p :: eqs) ↔ p.1.replaceVars f = p.2.replaceVars f ∧ Equates f eqs :=
  List.forall_mem_cons

theorem equates_zip {f : Var → Ty} {xs ys : List Ty} (h : xs.length = ys.length) :
    Equates f (xs.zip ys) ↔ xs.map (Ty.replaceVars f) = ys.map (Ty.replaceVars f) := by
  induction xs generalizing ys with
  | nil =>
      obtain rfl : ys = [] := List.length_eq_zero_iff.mp h.symm
      simp [Equates]
  | cons x xs ih =>
      cases ys with
      | nil => simp at h
      | cons y ys =>
          have hlen : xs.length = ys.length := by simpa using h
          simp [List.zip_cons_cons, equates_cons, ih hlen]

namespace Env

variable {env mid left : Env} {eqs : List (Ty × Ty)} {v : Var} {t a b : Ty} {f : Var → Ty}

/-- `left` is `env` with some equations solved, and nothing else changed. -/
structure Solved (env : Env) (eqs : List (Ty × Ty)) (left : Env) : Prop where
  extends_env : left.Extends env
  count_eq : left.count = env.count
  solvedBy_iff : ∀ f, left.SolvedBy f ↔ env.SolvedBy f ∧ Equates f eqs

/-- The equations are solved and the environment is valid. -/
structure Unified (env : Env) (eqs : List (Ty × Ty)) (left : Env) : Prop extends
    Solved env eqs left where
  valid : left.Valid

theorem Unified.covers (h : env.Unified eqs left) (ht : env.Covers t) : left.Covers t :=
  h.extends_env.covers ht

theorem solved_of_equates (heqs : ∀ f, env.SolvedBy f → Equates f eqs) : env.Solved eqs env :=
  ⟨Extends.refl env, rfl, fun f => ⟨fun hf => ⟨hf, heqs f hf⟩, fun hf => hf.1⟩⟩

/-- Equations can be solved one after the other. -/
theorem Solved.trans {p : Ty × Ty} (h : env.Solved [p] mid) (hrest : mid.Solved eqs left) :
    env.Solved (p :: eqs) left := by
  refine ⟨hrest.extends_env.trans h.extends_env, hrest.count_eq.trans h.count_eq, ?_⟩
  intro f
  rw [hrest.solvedBy_iff, h.solvedBy_iff, equates_cons, and_assoc, equates_cons]
  simp [Equates]

/-- It is the same to solve an equation and to solve the one between the roots of its sides. -/
theorem Solved.of_shallow (h : env.Solved [(env.shallow a, env.shallow b)] left) :
    env.Solved [(a, b)] left := by
  refine ⟨h.extends_env, h.count_eq, fun f => ?_⟩
  rw [h.solvedBy_iff]
  apply and_congr_right
  intro hf
  simp [Equates, hf.shallow]

/-- Binding a variable solves the equation with its value. -/
theorem solved_bound (env : Env) (v : Var) (t : Ty) : env.Solved [(.var v, t)] (env.bound v t) :=
  ⟨env.extends_bound v t, rfl, fun f => by rw [solvedBy_bound]; simp [Equates]⟩

theorem Solved.symm_pair (h : env.Solved [(a, b)] left) : env.Solved [(b, a)] left := by
  refine ⟨h.extends_env, h.count_eq, fun f => ?_⟩
  rw [h.solvedBy_iff]
  simp [Equates, eq_comm]

/-- A variable can be bound to what is found at the root of some type only if it does not occur in
it. -/
theorem Bindable.not_occurs (h : env.Bindable v t) (hroot : ∀ w, t = .var w → env.value? w = none) :
    v ∉ (env.resolve t).vars := by
  rcases h.fits with ⟨w, rfl, hne, -⟩ | ⟨id, args, rfl, hocc⟩
  · have hw : env.resolve (.var w) = .var w := answer_of_unbound (hroot w rfl)
    simpa [hw] using hne.symm
  · simpa [occurs] using hocc

theorem Bindable.consistent (h : env.Bindable v t) (henv : env.Consistent)
    (hroot : ∀ w, t = .var w → env.value? w = none) : (env.bound v t).Consistent :=
  henv.bound h.unbound (h.not_occurs hroot)

theorem Bindable.valid (h : env.Bindable v t) (henv : env.Valid) (hv : env.Live v)
    (ht : env.Covers t) (hroot : ∀ w, t = .var w → env.value? w = none) :
    (env.bound v t).Valid := by
  apply henv.bound hv ht h.unbound h.paramFree (h.not_occurs hroot)
  rintro w rfl
  rcases h.fits with ⟨_, hw, hne, hle⟩ | ⟨id, args, hw, -⟩
  · obtain rfl := Ty.var.inj hw
    have hlive : env.Live w := ht w (by simp)
    have hindex : w.index ≠ v.index := fun heq => hne (by
      cases w; cases v; simp_all [Live])
    omega
  · cases hw

end Env

namespace Engine

open Operation

variable {env left : Env} {a b : Ty} {n : Nat}

/-- What unification does with two types that are no bound variables, where `descend` says what it
does with the arguments of two constructors. -/
inductive Meets (env : Env) (descend : List (Ty × Ty) → Bool → Env → Prop) :
    Ty → Ty → Bool → Env → Prop
  | same (v : Var) : Meets env descend (.var v) (.var v) true env
  | bindLeft {v : Var} {t : Ty} (h : env.Bindable v t) :
      Meets env descend (.var v) t true (env.bound v t)
  | bindRight {v : Var} {t : Ty} (h : env.Bindable v t) :
      Meets env descend t (.var v) true (env.bound v t)
  | occursLeft {v : Var} {id : String} {args : List Ty} (h : env.occurs v (.con id args) = true) :
      Meets env descend (.var v) (.con id args) false env
  | occursRight {v : Var} {id : String} {args : List Ty} (h : env.occurs v (.con id args) = true) :
      Meets env descend (.con id args) (.var v) false env
  | clash {f g : String} {xs ys : List Ty} (h : f ≠ g) :
      Meets env descend (.con f xs) (.con g ys) false env
  | args {f : String} {xs ys : List Ty} {r : Bool} {left : Env} (hlen : xs.length = ys.length)
      (h : descend (xs.zip ys) r left) : Meets env descend (.con f xs) (.con f ys) r left

theorem bindable_of_older {v w : Var} {u : Unit} (h : (bindVar v (.var w)).Returns env u left)
    (hne : w ≠ v) (hle : w.index ≤ v.index) :
    env.Bindable v (.var w) ∧ left = env.bound v (.var w) := by
  obtain ⟨hunbound, hparams, rfl⟩ := returns_bindVar.mp h
  exact ⟨⟨hunbound, hparams, Or.inl ⟨w, rfl, hne, hle⟩⟩, rfl⟩

theorem returns_unifyVars {v w : Var} {r : Bool} (h : (unifyVars v w).Returns env r left)
    (descend : List (Ty × Ty) → Bool → Env → Prop) :
    Meets env descend (.var v) (.var w) r left := by
  simp only [unifyVars, returns_ite, returns_bind, returns_pure] at h
  rcases h with ⟨rfl, rfl, rfl⟩ |
    ⟨hne, ⟨hlt, u, mid, hbind, rfl, rfl⟩ | ⟨hge, u, mid, hbind, rfl, rfl⟩⟩
  · exact Meets.same v
  · obtain ⟨hbindable, rfl⟩ := bindable_of_older hbind hne (Nat.le_of_lt hlt)
    exact Meets.bindRight hbindable
  · obtain ⟨hbindable, rfl⟩ := bindable_of_older hbind (Ne.symm hne) (Nat.le_of_not_lt hge)
    exact Meets.bindLeft hbindable

theorem returns_unifyVarCon {v : Var} {id : String} {args : List Ty} {r : Bool}
    (h : (unifyVarCon v (.con id args)).Returns env r left) :
    (env.occurs v (.con id args) = true ∧ r = false ∧ left = env) ∨
      (env.Bindable v (.con id args) ∧ r = true ∧ left = env.bound v (.con id args)) := by
  simp only [unifyVarCon, returns_ite, returns_bind, returns_pure, returns_present,
    returns_report] at h
  obtain ⟨_, _, ⟨rfl, rfl⟩, h⟩ := h
  rcases h with ⟨hocc, _, _, rfl, rfl, rfl⟩ | ⟨hocc, u, mid, hbind, rfl, rfl⟩
  · exact Or.inl ⟨hocc, rfl, rfl⟩
  · obtain ⟨hunbound, hparams, rfl⟩ := returns_bindVar.mp hbind
    have hnot : Env.occurs _ v (.con id args) = false := Bool.eq_false_iff.mpr hocc
    exact Or.inr ⟨⟨hunbound, hparams, Or.inr ⟨id, args, rfl, hnot⟩⟩, rfl, rfl⟩

/-- The arguments of two constructors, unified through at most `n` levels. -/
def unifyArgs (n : Nat) (eqs : List (Ty × Ty)) : Engine Bool :=
  eqs.allM fun p => unifyWithin n p.1 p.2

theorem grows_unifyArgs (n : Nat) (eqs : List (Ty × Ty)) : (unifyArgs n eqs).Grows :=
  Grows.allM (fun p : Ty × Ty => grows_unifyWithin n p.1 p.2) eqs

/-- One level of unification, by what is found at the roots of the two types. -/
theorem returns_unifyWithin {r : Bool} (h : (unifyWithin (n + 1) a b).Returns env r left) :
    Meets env (fun eqs r left => (attempt (unifyArgs n eqs)).Returns env r left)
      (env.shallow a) (env.shallow b) r left := by
  rw [unifyWithin, returns_bind] at h
  obtain ⟨_, _, hpresent, h⟩ := h
  obtain ⟨rfl, rfl⟩ := returns_present.mp hpresent
  split at h
  · rename_i v w ha hb
    rw [ha, hb]
    exact returns_unifyVars h _
  · rename_i v id args ha hb
    rw [ha, hb]
    rcases returns_unifyVarCon h with ⟨hocc, rfl, rfl⟩ | ⟨hbind, rfl, rfl⟩
    · exact Meets.occursLeft hocc
    · exact Meets.bindLeft hbind
  · rename_i id args v ha hb
    rw [ha, hb]
    rcases returns_unifyVarCon h with ⟨hocc, rfl, rfl⟩ | ⟨hbind, rfl, rfl⟩
    · exact Meets.occursRight hocc
    · exact Meets.bindRight hbind
  · rename_i f xs g ys ha hb
    rw [ha, hb]
    simp only [returns_ite, returns_pure] at h
    rcases h with ⟨hne, rfl, rfl⟩ | ⟨heq, ⟨hlen, h⟩ | ⟨hlen, h⟩⟩
    · exact Meets.clash hne
    · exact absurd h not_returns_fail
    · obtain rfl : f = g := not_not.mp heq
      exact Meets.args (not_not.mp hlen) h
  · exact absurd h not_returns_fail

section Sound

variable {step : Ty × Ty → Engine Bool} {eqs : List (Ty × Ty)}

/-- If each step solves its equation, a sequence of steps solves all of them. -/
theorem allM_solved
    (hstep : ∀ p {env left}, (step p).Returns env true left → env.Solved [p] left)
    (h : (eqs.allM step).Returns env true left) : env.Solved eqs left := by
  induction eqs generalizing env with
  | nil =>
      obtain ⟨-, rfl⟩ := returns_allM_nil.mp h
      exact Env.solved_of_equates (by simp [Equates])
  | cons p eqs ih =>
      obtain ⟨_, hfalse⟩ | ⟨mid, hp, hrest⟩ := returns_allM_cons.mp h
      · cases hfalse
      · exact (hstep p hp).trans (ih hrest)

/-- A successful unification solves the equation between the two types, and nothing more. -/
theorem unifyWithin_solved (h : (unifyWithin n a b).Returns env true left) :
    env.Solved [(a, b)] left := by
  induction n generalizing env a b left with
  | zero => simp [unifyWithin] at h
  | succ n ih =>
      have hmeets := returns_unifyWithin h
      apply Env.Solved.of_shallow
      generalize env.shallow a = x at hmeets ⊢
      generalize env.shallow b = y at hmeets ⊢
      cases hmeets with
      | same v => exact Env.solved_of_equates (by simp [Equates])
      | bindLeft hbind => exact env.solved_bound _ _
      | bindRight hbind => exact (env.solved_bound _ _).symm_pair
      | @args f xs ys _ _ hlen hargs =>
          have hall := (returns_attempt_true (grows_unifyArgs n _)).mp hargs
          have hsolved := allM_solved (fun p _ _ h => ih h) hall
          refine ⟨hsolved.extends_env, hsolved.count_eq, fun g => ?_⟩
          rw [hsolved.solvedBy_iff, equates_zip hlen]
          simp [Equates]

end Sound

section Stable

variable {step : Ty × Ty → Engine Bool} {eqs : List (Ty × Ty)} {I : Env → Prop} {T : Ty → Prop}

/-- An invariant of environments that is kept while types of some kind are unified. Unification
passes from such a type to its root and its arguments, and binds variables to roots. -/
structure Stable (I : Env → Prop) (T : Ty → Prop) : Prop where
  args : ∀ {env id args}, I env → T (.con id args) → ∀ a ∈ args, T a
  shallow : ∀ {env t}, I env → T t → T (env.shallow t)
  bound : ∀ {env v t}, I env → T (.var v) → T (env.shallow t) → env.Bindable v (env.shallow t) →
    I (env.bound v (env.shallow t))

theorem Stable.zip (h : Stable I T) {id id' : String} {xs ys : List Ty} (henv : I env)
    (hx : T (.con id xs)) (hy : T (.con id' ys)) : ∀ p ∈ xs.zip ys, T p.1 ∧ T p.2 := by
  rintro ⟨x, y⟩ hp
  exact ⟨h.args henv hx x (List.of_mem_zip hp).1, h.args henv hy y (List.of_mem_zip hp).2⟩

theorem allM_stable
    (hstep : ∀ p {env left}, I env → T p.1 → T p.2 → (step p).Returns env true left → I left)
    (henv : I env) (heqs : ∀ p ∈ eqs, T p.1 ∧ T p.2) (h : (eqs.allM step).Returns env true left) :
    I left := by
  induction eqs generalizing env with
  | nil =>
      obtain ⟨-, rfl⟩ := returns_allM_nil.mp h
      exact henv
  | cons p eqs ih =>
      obtain ⟨_, hfalse⟩ | ⟨mid, hp, hrest⟩ := returns_allM_cons.mp h
      · cases hfalse
      · obtain ⟨hleft, hright⟩ := heqs p List.mem_cons_self
        exact ih (hstep p henv hleft hright hp) (fun q hq => heqs q (List.mem_cons_of_mem _ hq))
          hrest

theorem unifyWithin_stable (hstable : Stable I T) (henv : I env) (ha : T a) (hb : T b)
    (h : (unifyWithin n a b).Returns env true left) : I left := by
  induction n generalizing env a b left with
  | zero => simp [unifyWithin] at h
  | succ n ih =>
      have hmeets := returns_unifyWithin h
      have hta := hstable.shallow henv ha
      have htb := hstable.shallow henv hb
      generalize hx : env.shallow a = x at hmeets hta
      generalize hy : env.shallow b = y at hmeets htb
      cases hmeets with
      | same v => exact henv
      | bindLeft hbind =>
          subst hy
          exact hstable.bound henv hta htb hbind
      | bindRight hbind =>
          subst hx
          exact hstable.bound henv htb hta hbind
      | args hlen hargs =>
          have hall := (returns_attempt_true (grows_unifyArgs n _)).mp hargs
          exact allM_stable (fun p _ _ henv hx hy h => ih henv hx hy h) henv
            (hstable.zip henv hta htb) hall

theorem stable_consistent : Stable Env.Consistent fun _ => True where
  args _ _ _ _ := trivial
  shallow _ _ := trivial
  bound henv _ _ hbind := hbind.consistent henv fun _ hw => henv.value?_of_shallow hw

theorem covers_zip {xs ys : List Ty} (hx : ∀ x ∈ xs, env.Covers x) (hy : ∀ y ∈ ys, env.Covers y) :
    ∀ p ∈ xs.zip ys, env.Covers p.1 ∧ env.Covers p.2 := by
  rintro ⟨x, y⟩ hp
  exact ⟨hx x (List.of_mem_zip hp).1, hy y (List.of_mem_zip hp).2⟩

theorem covers_args {id : String} {args : List Ty} (h : env.Covers (.con id args)) :
    ∀ a ∈ args, env.Covers a :=
  fun a ha v hv => h v (by simpa using ⟨a, ha, hv⟩)

/-- Validity is kept while types over the variables of an environment are unified, since no variable
is created. -/
theorem stable_valid (env : Env) :
    Stable (fun later => later.Valid ∧ later.count = env.count) env.Covers where
  args _ := covers_args
  shallow := by
    rintro later t ⟨hvalid, hcount⟩ ht
    have hcovers : ∀ {t}, env.Covers t ↔ later.Covers t := by simp [Env.Covers, Env.Live, hcount]
    exact hcovers.mpr (hvalid.covers_shallow (hcovers.mp ht))
  bound := by
    rintro later v t ⟨hvalid, hcount⟩ hv ht hbind
    have hcovers : ∀ {t}, env.Covers t ↔ later.Covers t := by simp [Env.Covers, Env.Live, hcount]
    refine ⟨hbind.valid hvalid (hcovers.mp hv v (by simp)) (hcovers.mp ht) fun w hw => ?_, hcount⟩
    exact hvalid.value?_of_shallow hw

theorem unifyWithin_unified (henv : env.Valid) (ha : env.Covers a) (hb : env.Covers b)
    (h : (unifyWithin n a b).Returns env true left) : env.Unified [(a, b)] left :=
  ⟨unifyWithin_solved h, (unifyWithin_stable (stable_valid env) ⟨henv, rfl⟩ ha hb h).1⟩

end Stable

section Complete

variable {step : Ty × Ty → Engine Bool} {eqs : List (Ty × Ty)} {known : List Ty} {f : Var → Ty}

/-- A list of types that holds every type unification can meet: it is closed under arguments and
holds the value of every binding. -/
structure Knows (known : List Ty) (env : Env) : Prop where
  args : ∀ id args, .con id args ∈ known → ∀ a ∈ args, a ∈ known
  values : ∀ b ∈ env.trail, b.value ∈ known

theorem Knows.shallow (h : Knows known env) {t : Ty} (ht : t ∈ known) : env.shallow t ∈ known :=
  Env.shallow_of_values (P := (· ∈ known)) (fun hu _ => h.values ⟨_, _⟩ (Env.mem_of_value? hu)) ht

theorem Knows.bound (h : Knows known env) {t : Ty} (ht : t ∈ known) (v : Var) :
    Knows known (env.bound v t) :=
  ⟨h.args, List.forall_mem_cons.mpr ⟨ht, h.values⟩⟩

/-- Unification binds variables only to types that are known already. -/
theorem stable_knows (known : List Ty) : Stable (Knows known) (· ∈ known) where
  args henv := henv.args _ _
  shallow henv ht := henv.shallow ht
  bound henv _ ht _ := henv.bound ht _

/-- If no step fails while a solution of its equation is there, neither does a sequence of steps.
The steps may rely on an invariant of environments that each of them keeps. -/
theorem allM_complete {I : Env → Prop}
    (hsound : ∀ p ∈ eqs, ∀ {env left}, env.Valid → I env → env.Covers p.1 ∧ env.Covers p.2 →
      (step p).Returns env true left → env.Unified [p] left ∧ I left)
    (hcomplete : ∀ p ∈ eqs, ∀ {env left}, env.Valid → I env → env.Covers p.1 ∧ env.Covers p.2 →
      env.SolvedBy f → p.1.replaceVars f = p.2.replaceVars f → ¬(step p).Returns env false left)
    (henv : env.Valid) (hI : I env) (hcovers : ∀ p ∈ eqs, env.Covers p.1 ∧ env.Covers p.2)
    (hf : env.SolvedBy f) (hequates : Equates f eqs) : ¬(eqs.allM step).Returns env false left := by
  induction eqs generalizing env with
  | nil => simp
  | cons p eqs ih =>
      intro h
      have hp := hcovers p List.mem_cons_self
      obtain ⟨heq, hrest⟩ := equates_cons.mp hequates
      obtain ⟨hfails, -⟩ | ⟨mid, hsolves, hlater⟩ := returns_allM_cons.mp h
      · exact hcomplete p List.mem_cons_self henv hI hp hf heq hfails
      · obtain ⟨hfirst, hmid⟩ := hsound p List.mem_cons_self henv hI hp hsolves
        have hfMid : mid.SolvedBy f :=
          (hfirst.solvedBy_iff f).mpr ⟨hf, List.forall_mem_singleton.mpr heq⟩
        refine ih (fun q hq => hsound q (List.mem_cons_of_mem _ hq))
          (fun q hq => hcomplete q (List.mem_cons_of_mem _ hq)) hfirst.valid hmid ?_ hfMid hrest
          hlater
        intro q hq
        obtain ⟨hleft, hright⟩ := hcovers q (List.mem_cons_of_mem _ hq)
        exact ⟨hfirst.covers hleft, hfirst.covers hright⟩

/-- The number of known types that stand for less than a type does. -/
def smaller (known : List Ty) (f : Var → Ty) (t : Ty) : Nat :=
  known.countP fun s => decide ((s.replaceVars f).size < (t.replaceVars f).size)

theorem smaller_arg_lt {id : String} {args : List Ty} {a : Ty} (ha : a ∈ args) (hka : a ∈ known) :
    smaller known f a < smaller known f (.con id args) := by
  have hlt : (a.replaceVars f).size < ((Ty.con id args).replaceVars f).size := by
    rw [Ty.replaceVars_con]
    exact Ty.size_lt_size_con (List.mem_map_of_mem ha)
  refine countP_lt_countP (fun s _ hs => ?_) hka (by simp) (decide_eq_true hlt)
  exact decide_eq_true (Nat.lt_trans (of_decide_eq_true hs) hlt)

/-- A variable that occurs in a constructor cannot stand for the same type as the constructor. -/
theorem not_equal_of_occurs {v : Var} {id : String} {args : List Ty} (hf : env.SolvedBy f)
    (hocc : env.occurs v (.con id args) = true) : f v ≠ (Ty.con id args).replaceVars f := by
  have hmem : v ∈ (env.resolve (.con id args)).vars := by simpa [Env.occurs] using hocc
  rw [Env.resolve_eq_replaceVars, Ty.replaceVars_con] at hmem
  intro heq
  have hlt := Ty.size_lt_of_mem_vars (f := f) hmem
  rw [← Ty.replaceVars_con, ← Env.resolve_eq_replaceVars, hf.resolve, ← heq] at hlt
  exact Nat.lt_irrefl _ hlt

/-- Unification does not fail where a solution makes the two types equal, as long as it may go
down further than there are known types that stand for less. -/
theorem unifyWithin_complete (henv : env.Valid) (hknows : Knows known env) (ha : env.Covers a)
    (hb : env.Covers b) (hka : a ∈ known) (hkb : b ∈ known) (hf : env.SolvedBy f)
    (heq : a.replaceVars f = b.replaceVars f) (hn : smaller known f a < n) :
    ¬(unifyWithin n a b).Returns env false left := by
  induction n generalizing env a b left with
  | zero => exact absurd hn (Nat.not_lt_zero _)
  | succ n ih =>
      intro h
      have hmeets := returns_unifyWithin h
      have hca := henv.covers_shallow ha
      have hcb := henv.covers_shallow hb
      have hsa := hknows.shallow hka
      have hsb := hknows.shallow hkb
      have hroots : (env.shallow a).replaceVars f = (env.shallow b).replaceVars f := by
        rw [hf.shallow, hf.shallow, heq]
      have hsmaller : smaller known f (env.shallow a) = smaller known f a := by
        simp only [smaller, hf.shallow]
      generalize env.shallow a = x at hmeets hca hsa hroots hsmaller
      generalize env.shallow b = y at hmeets hcb hsb hroots
      cases hmeets with
      | occursLeft hocc => exact not_equal_of_occurs hf hocc (by simpa using hroots)
      | occursRight hocc => exact not_equal_of_occurs hf hocc (by simpa using hroots.symm)
      | clash hne =>
          rw [Ty.replaceVars_con, Ty.replaceVars_con] at hroots
          exact hne (Ty.con.inj hroots).1
      | @args g xs ys _ _ hlen hargs =>
          obtain ⟨⟨gone, hall⟩, -⟩ := (returns_attempt_false (grows_unifyArgs n _)).mp hargs
          have hequates : Equates f (xs.zip ys) :=
            (equates_zip hlen).mpr (by simpa using hroots)
          have hknown := (stable_knows known).zip hknows hsa hsb
          refine allM_complete ?_ ?_ henv hknows (covers_zip (covers_args hca) (covers_args hcb)) hf
            hequates hall
          · intro p hp env left henv hknows hcovers h
            exact ⟨unifyWithin_unified henv hcovers.1 hcovers.2 h,
              unifyWithin_stable (stable_knows known) hknows (hknown p hp).1 (hknown p hp).2 h⟩
          · intro p hp env left henv hknows hcovers hf heq
            have hlt : smaller known f p.1 < smaller known f (.con g xs) :=
              smaller_arg_lt (List.of_mem_zip hp).1 (hknown p hp).1
            exact ih henv hknows hcovers.1 hcovers.2 (hknown p hp).1 (hknown p hp).2 hf heq
              (by omega)

end Complete

section Entry

variable {f : Var → Ty} {as bs : List Ty} {r s : Reference}

/-- The types that occur in two types or in a value of the environment. -/
def knownTypes (env : Env) (a b : Ty) : List Ty :=
  env.trail.flatMap (fun c => c.value.subterms) ++ (a.subterms ++ b.subterms)

theorem length_flatMap_subterms (trail : List Binding) :
    (trail.flatMap fun c => c.value.subterms).length =
      trail.foldr (fun c n => c.value.size + n) 0 := by
  induction trail with
  | nil => rfl
  | cons c trail ih => simp [ih]

theorem length_knownTypes (env : Env) (a b : Ty) :
    (knownTypes env a b).length < env.unifyBound a b := by
  simp only [knownTypes, Env.unifyBound, List.length_append, Ty.length_subterms,
    length_flatMap_subterms]
  omega

theorem knows_knownTypes (env : Env) (a b : Ty) : Knows (knownTypes env a b) env := by
  constructor
  · intro id args h x hx
    simp only [knownTypes, List.mem_append, List.mem_flatMap] at h ⊢
    rcases h with ⟨c, hc, h⟩ | h | h
    · exact Or.inl ⟨c, hc, Ty.arg_mem_subterms h hx⟩
    · exact Or.inr (Or.inl (Ty.arg_mem_subterms h hx))
    · exact Or.inr (Or.inr (Ty.arg_mem_subterms h hx))
  · intro c hc
    simp only [knownTypes, List.mem_append, List.mem_flatMap]
    exact Or.inl ⟨c, hc, Ty.self_mem_subterms _⟩

theorem returns_unify {x : Bool} :
    (unify a b).Returns env x left ↔ (unifyWithin (env.unifyBound a b) a b).Returns env x left := by
  simp [unify, returns_bind]

theorem unify_solved (h : (unify a b).Returns env true left) : env.Solved [(a, b)] left :=
  unifyWithin_solved (returns_unify.mp h)

theorem unify_stable {I : Env → Prop} {T : Ty → Prop} (hstable : Stable I T) (henv : I env)
    (ha : T a) (hb : T b) (h : (unify a b).Returns env true left) : I left :=
  unifyWithin_stable hstable henv ha hb (returns_unify.mp h)

theorem unify_unified (henv : env.Valid) (ha : env.Covers a) (hb : env.Covers b)
    (h : (unify a b).Returns env true left) : env.Unified [(a, b)] left :=
  unifyWithin_unified henv ha hb (returns_unify.mp h)

/-- Unification fails only where no solution makes the two types equal. -/
theorem unify_complete (henv : env.Valid) (ha : env.Covers a) (hb : env.Covers b)
    (hf : env.SolvedBy f) (heq : a.replaceVars f = b.replaceVars f) :
    ¬(unify a b).Returns env false left := by
  intro h
  have hdepth : smaller (knownTypes env a b) f a < env.unifyBound a b :=
    Nat.lt_of_le_of_lt List.countP_le_length (length_knownTypes env a b)
  refine unifyWithin_complete henv (knows_knownTypes env a b) ha hb ?_ ?_ hf heq hdepth
    (returns_unify.mp h)
  · simp [knownTypes, Ty.self_mem_subterms]
  · simp [knownTypes, Ty.self_mem_subterms]

theorem returns_unifyAll {x : Bool} :
    (unifyAll as bs).Returns env x left ↔ as.length = bs.length ∧
      (attempt ((as.zip bs).allM fun p => unify p.1 p.2)).Returns env x left := by
  simp [unifyAll, returns_ite]

theorem grows_unifyZip (eqs : List (Ty × Ty)) : (eqs.allM fun p => unify p.1 p.2).Grows :=
  Grows.allM (fun p : Ty × Ty => grows_unify p.1 p.2) eqs

theorem returns_unifyAll_true :
    (unifyAll as bs).Returns env true left ↔ as.length = bs.length ∧
      ((as.zip bs).allM fun p => unify p.1 p.2).Returns env true left := by
  rw [returns_unifyAll, returns_attempt_true (grows_unifyZip _)]

theorem unifyAll_solved (h : (unifyAll as bs).Returns env true left) :
    env.Solved (as.zip bs) left :=
  allM_solved (fun _ _ _ h => unify_solved h) (returns_unifyAll_true.mp h).2

theorem unifyAll_stable {I : Env → Prop} {T : Ty → Prop} (hstable : Stable I T) (henv : I env)
    (heqs : ∀ p ∈ as.zip bs, T p.1 ∧ T p.2) (h : (unifyAll as bs).Returns env true left) : I left :=
  allM_stable (fun _ _ _ henv hx hy h => unify_stable hstable henv hx hy h) henv heqs
    (returns_unifyAll_true.mp h).2

theorem unifyAll_unified (henv : env.Valid) (has : ∀ a ∈ as, env.Covers a)
    (hbs : ∀ b ∈ bs, env.Covers b) (h : (unifyAll as bs).Returns env true left) :
    env.Unified (as.zip bs) left :=
  ⟨unifyAll_solved h, (unifyAll_stable (stable_valid env) ⟨henv, rfl⟩ (covers_zip has hbs) h).1⟩

theorem unifyAll_complete (henv : env.Valid) (has : ∀ a ∈ as, env.Covers a)
    (hbs : ∀ b ∈ bs, env.Covers b) (hf : env.SolvedBy f) (heq : Equates f (as.zip bs)) :
    ¬(unifyAll as bs).Returns env false left := by
  intro h
  obtain ⟨hlen, h⟩ := returns_unifyAll.mp h
  obtain ⟨⟨gone, hall⟩, -⟩ := (returns_attempt_false (grows_unifyZip _)).mp h
  refine allM_complete (I := fun _ => True) ?_ ?_ henv trivial (covers_zip has hbs) hf heq hall
  · intro p _ env left henv _ hcovers h
    exact ⟨unify_unified henv hcovers.1 hcovers.2 h, trivial⟩
  · intro p _ env left henv _ hcovers hf heq
    exact unify_complete henv hcovers.1 hcovers.2 hf heq

theorem returns_unifyReferences {x : Bool} :
    (unifyReferences r s).Returns env x left ↔ r.params.length = s.params.length ∧
      (attempt do
        if ← unify r.self s.self then unifyAll r.params s.params else pure false).Returns
          env x left := by
  simp [unifyReferences, returns_ite]

theorem returns_unifyReferences_true :
    (unifyReferences r s).Returns env true left ↔ r.params.length = s.params.length ∧
      ∃ mid, (unify r.self s.self).Returns env true mid ∧
        (unifyAll r.params s.params).Returns mid true left := by
  rw [returns_unifyReferences, returns_attempt_true (grows_unifyParts r s), returns_bind]
  refine and_congr_right fun _ => ⟨?_, ?_⟩
  · rintro ⟨x, mid, hself, h⟩
    rcases returns_ite.mp h with ⟨rfl, hparams⟩ | ⟨-, h⟩
    · exact ⟨mid, hself, hparams⟩
    · cases (returns_pure.mp h).1
  · rintro ⟨mid, hself, hparams⟩
    exact ⟨true, mid, hself, hparams⟩

/-- Unifying two references solves the equations between their types. -/
theorem unifyReferences_solved (h : (unifyReferences r s).Returns env true left) :
    r.params.length = s.params.length ∧ env.Solved (r.types.zip s.types) left := by
  obtain ⟨hlen, mid, hself, hparams⟩ := returns_unifyReferences_true.mp h
  exact ⟨hlen, (unify_solved hself).trans (unifyAll_solved hparams)⟩

theorem unifyReferences_stable {I : Env → Prop} {T : Ty → Prop} (hstable : Stable I T)
    (henv : I env) (hr : ∀ t ∈ r.types, T t) (hs : ∀ t ∈ s.types, T t)
    (h : (unifyReferences r s).Returns env true left) : I left := by
  obtain ⟨-, mid, hself, hparams⟩ := returns_unifyReferences_true.mp h
  obtain ⟨hrself, hrparams⟩ := List.forall_mem_cons.mp hr
  obtain ⟨hsself, hsparams⟩ := List.forall_mem_cons.mp hs
  refine unifyAll_stable hstable (unify_stable hstable henv hrself hsself hself) ?_ hparams
  rintro ⟨x, y⟩ hp
  exact ⟨hrparams x (List.of_mem_zip hp).1, hsparams y (List.of_mem_zip hp).2⟩

theorem unifyReferences_unified (henv : env.Valid) (hr : ∀ t ∈ r.types, env.Covers t)
    (hs : ∀ t ∈ s.types, env.Covers t) (h : (unifyReferences r s).Returns env true left) :
    r.params.length = s.params.length ∧ env.Unified (r.types.zip s.types) left := by
  obtain ⟨hlen, hsolved⟩ := unifyReferences_solved h
  exact ⟨hlen, hsolved, (unifyReferences_stable (stable_valid env) ⟨henv, rfl⟩ hr hs h).1⟩

/-- Unifying two references fails only where no solution makes them equal. -/
theorem unifyReferences_complete (henv : env.Valid) (hr : ∀ t ∈ r.types, env.Covers t)
    (hs : ∀ t ∈ s.types, env.Covers t) (hf : env.SolvedBy f)
    (heq : Equates f (r.types.zip s.types)) : ¬(unifyReferences r s).Returns env false left := by
  intro h
  obtain ⟨hlen, h⟩ := returns_unifyReferences.mp h
  obtain ⟨⟨gone, h⟩, -⟩ := (returns_attempt_false (grows_unifyParts r s)).mp h
  simp only [returns_bind, returns_ite, returns_pure] at h
  have hcr := hr _ (by simp [Reference.types] : r.self ∈ r.types)
  have hcs := hs _ (by simp [Reference.types] : s.self ∈ s.types)
  obtain ⟨hself, hparams⟩ := equates_cons.mp heq
  obtain ⟨x, mid, hunify, ⟨rfl, h⟩ | ⟨hfalse, -, -⟩⟩ := h
  · have hfirst := unify_unified henv hcr hcs hunify
    have hfMid : mid.SolvedBy f :=
      (hfirst.solvedBy_iff f).mpr ⟨hf, equates_cons.mpr ⟨hself, by simp [Equates]⟩⟩
    refine unifyAll_complete hfirst.valid ?_ ?_ hfMid hparams h
    · exact fun t ht => hfirst.covers (hr t (by simp [Reference.types, ht]))
    · exact fun t ht => hfirst.covers (hs t (by simp [Reference.types, ht]))
  · obtain rfl : x = false := by simpa using hfalse
    exact unify_complete henv hcr hcs hf hself hunify

/-- The solutions left by unifying two references of one trait are those that make them equal. -/
theorem solvedBy_of_unifyReferences (henv : env.Valid) (hr : ∀ t ∈ r.types, env.Covers t)
    (hs : ∀ t ∈ s.types, env.Covers t) (hid : r.id = s.id)
    (h : (unifyReferences r s).Returns env true left) :
    left.SolvedBy f ↔ env.SolvedBy f ∧ r.replaceVars f = s.replaceVars f := by
  obtain ⟨hlen, hunified⟩ := unifyReferences_unified henv hr hs h
  have htypes : r.types.length = s.types.length := by simp [Reference.types, hlen]
  rw [hunified.solvedBy_iff, equates_zip htypes, Reference.replaceVars_eq_iff]
  simp only [hid, true_and]

theorem replaceVars_ne_of_unifyReferences (henv : env.Valid) (hr : ∀ t ∈ r.types, env.Covers t)
    (hs : ∀ t ∈ s.types, env.Covers t) (hf : env.SolvedBy f)
    (h : (unifyReferences r s).Returns env false left) : r.replaceVars f ≠ s.replaceVars f := by
  intro heq
  have hmap := (Reference.replaceVars_eq_iff.mp heq).2
  have hlen : r.types.length = s.types.length := by
    simpa using congrArg List.length hmap
  exact unifyReferences_complete henv hr hs hf ((equates_zip hlen).mpr hmap) h

end Entry

end Engine

end TraitResolution
