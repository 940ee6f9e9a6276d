import Mathlib.Data.List.Zip
import TraitResolution.Proofs.Acyclicity
import TraitResolution.Proofs.Reachability

/-!
# Laws of unification

Unification treats its two sides alike: exchanging them changes neither the answer nor the bindings.
It makes all its bindings or none, and once two types are unified, to unify them again answers
`true` and binds nothing. The same goes for lists of types and for references.

## Implementation notes

Where unification gives up, the two orders of the sides give different reasons, so the runs are not
equal. `Operation.EndRelated` compares what they return and what they leave. Two variables are told
apart by their indices only if both exist, which is why the types have to be over variables of the
environment.
-/

namespace TraitResolution

namespace Env

variable {env : Env} {v w : Var} {a b : Ty}

/-- Variables that exist are told apart by their indices. -/
theorem Live.ext (hv : env.Live v) (hw : env.Live w) (h : v.index = w.index) : v = w := by
  obtain ⟨i, g⟩ := v
  obtain ⟨j, g'⟩ := w
  simp_all [Live]

namespace Valid

/-- The values of a valid environment bring no type parameter into a type. -/
theorem hasParams_resolve (h : env.Valid) (t : Ty) : (env.resolve t).hasParams = t.hasParams := by
  rw [resolve_eq_replaceVars, Bool.eq_iff_iff, Ty.hasParams_replaceVars]
  simp [h.hasParams_answer]

theorem hasParams_shallow (h : env.Valid) (t : Ty) : (env.shallow t).hasParams = t.hasParams := by
  rw [← h.hasParams_resolve, h.resolve_shallow, h.hasParams_resolve]

end Valid

/-- Types without type parameters that stand for the same. -/
structure Agree (env : Env) (a b : Ty) : Prop where
  closed : a.hasParams = false ∧ b.hasParams = false
  resolve_eq : env.resolve a = env.resolve b

theorem Agree.symm (h : env.Agree a b) : env.Agree b a :=
  ⟨h.closed.symm, h.resolve_eq.symm⟩

/-- Types that agree have the same unbound variable at their roots, or the same constructor with
arguments that agree. -/
theorem Agree.roots (h : env.Agree a b) (henv : env.Valid) :
    (∃ v, env.shallow a = .var v ∧ env.shallow b = .var v) ∨
      ∃ id xs ys, env.shallow a = .con id xs ∧ env.shallow b = .con id ys ∧
        xs.length = ys.length ∧ ∀ p ∈ xs.zip ys, env.Agree p.1 p.2 := by
  obtain ⟨hclosedA, hclosedB⟩ := h.closed
  have heq := h.resolve_eq
  rw [henv.resolve_eq a, henv.resolve_eq b] at heq
  rw [← henv.hasParams_shallow] at hclosedA hclosedB
  cases ha : env.shallow a with
  | param i => simp [ha] at hclosedA
  | var v =>
      cases hb : env.shallow b with
      | param j => simp [hb] at hclosedB
      | con g ys => simp [ha, hb] at heq
      | var w =>
          obtain rfl : v = w := by simpa [ha, hb] using heq
          exact Or.inl ⟨v, rfl, rfl⟩
  | con f xs =>
      cases hb : env.shallow b with
      | param j => simp [hb] at hclosedB
      | var w => simp [ha, hb] at heq
      | con g ys =>
          obtain ⟨rfl, hargs⟩ : f = g ∧ xs.map env.resolve = ys.map env.resolve := by
            simpa [ha, hb] using heq
          have hlen : xs.length = ys.length := by simpa using congrArg List.length hargs
          have hresolve : env.resolve = Ty.replaceVars env.answer :=
            funext env.resolve_eq_replaceVars
          rw [hresolve] at hargs
          refine Or.inr ⟨f, xs, ys, rfl, rfl, hlen, ?_⟩
          rw [ha, Ty.hasParams_con, List.any_eq_false] at hclosedA
          rw [hb, Ty.hasParams_con, List.any_eq_false] at hclosedB
          rintro ⟨x, y⟩ hp
          obtain ⟨hx, hy⟩ := List.of_mem_zip hp
          refine ⟨⟨by simpa using hclosedA x hx, by simpa using hclosedB y hy⟩, ?_⟩
          rw [hresolve]
          exact (equates_zip hlen).mpr hargs (x, y) hp

end Env

namespace Engine

open Operation

variable {env left : Env} {a b : Ty} {n : Nat}

/-- Attempts end alike if what is attempted does. -/
theorem endRelated_attempt {x y : Engine Bool} (hx : x.Grows) (hy : y.Grows)
    (h : EndRelated (· = ·) x y env) : EndRelated (· = ·) (attempt x) (attempt y) env := by
  constructor
  · rw [attempt_outcome hx, attempt_outcome hy]
    exact h.outcome
  · by_cases htrue : ∃ left, x.Returns env true left
    · obtain ⟨left, hleft⟩ := htrue
      rw [((returns_attempt_true hx).mpr hleft).2,
        ((returns_attempt_true hy).mpr (h.returns_iff.mp hleft)).2]
    · have hne : ∀ {z : Engine Bool}, z.Grows → (∀ left, ¬z.Returns env true left) →
          ((attempt z).run env).env = env := by
        intro z hz hnone
        apply attempt_env hz
        rw [attempt_outcome hz]
        exact fun hok => hnone _ ⟨hok, rfl⟩
      rw [hne hx fun left hleft => htrue ⟨left, hleft⟩,
        hne hy fun left hleft => htrue ⟨left, h.returns_iff.mpr hleft⟩]

/-- Which of two variables is bound does not depend on their order. -/
theorem unifyVars_comm {v w : Var} (h : v.index = w.index → v = w) :
    unifyVars v w = unifyVars w v := by
  by_cases hvw : v = w
  · rw [hvw]
  · have hne : v.index ≠ w.index := fun heq => hvw (h heq)
    rw [unifyVars, unifyVars, if_neg hvw, if_neg (Ne.symm hvw)]
    by_cases hlt : v.index < w.index
    · rw [if_pos hlt, if_neg (by omega)]
    · rw [if_neg hlt, if_pos (by omega)]

section Sequence

variable {f : Ty × Ty → Engine Bool} {eqs : List (Ty × Ty)} {xs ys : List Ty}

/-- Pairs can be exchanged one by one. -/
theorem endRelated_allM_swap
    (hswap : ∀ p {env}, env.Valid → env.Covers p.1 ∧ env.Covers p.2 →
      EndRelated (· = ·) (f p) (f p.swap) env)
    (hunified : ∀ p {env left}, env.Valid → env.Covers p.1 ∧ env.Covers p.2 →
      (f p).Returns env true left → env.Unified [p] left)
    (henv : env.Valid) (heqs : ∀ p ∈ eqs, env.Covers p.1 ∧ env.Covers p.2) :
    EndRelated (· = ·) (eqs.allM f) ((eqs.map Prod.swap).allM f) env := by
  induction eqs generalizing env with
  | nil => exact endRelated_refl _ _
  | cons p eqs ih =>
      obtain ⟨hp, heqs⟩ := List.forall_mem_cons.mp heqs
      rw [List.map_cons, List.allM, List.allM]
      apply (hswap p henv hp).bind
      rintro same _ mid hmid - rfl
      cases same with
      | false => exact endRelated_refl _ _
      | true =>
          have hfirst := hunified p henv hp hmid
          apply ih hfirst.valid
          intro q hq
          exact ⟨hfirst.covers (heqs q hq).1, hfirst.covers (heqs q hq).2⟩

/-- Two lists can be exchanged if the types at each position can. -/
theorem endRelated_zip (hgrows : ∀ p, (f p).Grows)
    (hswap : ∀ p {env}, env.Valid → env.Covers p.1 ∧ env.Covers p.2 →
      EndRelated (· = ·) (f p) (f p.swap) env)
    (hunified : ∀ p {env left}, env.Valid → env.Covers p.1 ∧ env.Covers p.2 →
      (f p).Returns env true left → env.Unified [p] left)
    (henv : env.Valid) (hxs : ∀ x ∈ xs, env.Covers x) (hys : ∀ y ∈ ys, env.Covers y) :
    EndRelated (· = ·) (attempt ((xs.zip ys).allM f)) (attempt ((ys.zip xs).allM f)) env := by
  apply endRelated_attempt (Grows.allM hgrows _) (Grows.allM hgrows _)
  rw [← List.zip_swap xs ys]
  exact endRelated_allM_swap hswap hunified henv (covers_zip hxs hys)

/-- What each successful test shows of its pair, a successful sequence shows of all pairs. -/
theorem forall_of_allM {P : Ty × Ty → Prop}
    (hstep : ∀ p {env left}, env.Valid → env.Covers p.1 ∧ env.Covers p.2 →
      (f p).Returns env true left → P p ∧ env.Unified [p] left)
    (henv : env.Valid) (heqs : ∀ p ∈ eqs, env.Covers p.1 ∧ env.Covers p.2)
    (h : (eqs.allM f).Returns env true left) : ∀ p ∈ eqs, P p := by
  induction eqs generalizing env with
  | nil => simp
  | cons p eqs ih =>
      obtain ⟨hp, heqs⟩ := List.forall_mem_cons.mp heqs
      obtain ⟨-, hfalse⟩ | ⟨mid, hmid, hrest⟩ := returns_allM_cons.mp h
      · cases hfalse
      · obtain ⟨hP, hfirst⟩ := hstep p henv hp hmid
        refine List.forall_mem_cons.mpr ⟨hP, ih hfirst.valid (fun q hq => ?_) hrest⟩
        exact ⟨hfirst.covers (heqs q hq).1, hfirst.covers (heqs q hq).2⟩

/-- A sequence of tests that change nothing changes nothing. -/
theorem allM_idle (h : ∀ p ∈ eqs, ∃ r, (f p).Returns env r env) :
    ∃ r, (eqs.allM f).Returns env r env := by
  induction eqs with
  | nil => exact ⟨true, returns_allM_nil.mpr ⟨rfl, rfl⟩⟩
  | cons p eqs ih =>
      obtain ⟨⟨r, hr⟩, hrest⟩ := List.forall_mem_cons.mp h
      cases r with
      | false => exact ⟨false, returns_allM_cons.mpr (Or.inl ⟨hr, rfl⟩)⟩
      | true =>
          obtain ⟨r, hrest⟩ := ih hrest
          exact ⟨r, returns_allM_cons.mpr (Or.inr ⟨env, hr, hrest⟩)⟩

theorem allM_true (h : ∀ p ∈ eqs, (f p).Returns env true env) :
    (eqs.allM f).Returns env true env := by
  induction eqs with
  | nil => exact returns_allM_nil.mpr ⟨rfl, rfl⟩
  | cons p eqs ih =>
      obtain ⟨hp, hrest⟩ := List.forall_mem_cons.mp h
      exact returns_allM_cons.mpr (Or.inr ⟨env, hp, ih hrest⟩)

end Sequence

/-- Unification treats its two sides alike, at every level. -/
theorem endRelated_unifyWithin (n : Nat) (henv : env.Valid) (ha : env.Covers a)
    (hb : env.Covers b) :
    EndRelated (· = ·) (unifyWithin n a b) (unifyWithin n b a) env := by
  induction n generalizing env a b with
  | zero => exact endRelated_refl _ _
  | succ n ih =>
      have hca := henv.covers_shallow ha
      have hcb := henv.covers_shallow hb
      apply endRelated_present_bind
      generalize env.shallow a = x at hca ⊢
      generalize env.shallow b = y at hcb ⊢
      cases x with
      | var v =>
          cases y with
          | var w =>
              change EndRelated (· = ·) (unifyVars v w) (unifyVars w v) env
              rw [unifyVars_comm ((hca v (by simp)).ext (hcb w (by simp)))]
              exact endRelated_refl _ _
          | con g ys => exact endRelated_refl _ _
          | param j => exact endRelated_fail
      | param i =>
          cases y with
          | var w => exact endRelated_fail
          | con g ys => exact endRelated_fail
          | param j => exact endRelated_fail
      | con f xs =>
          cases y with
          | var w => exact endRelated_refl _ _
          | param j => exact endRelated_fail
          | con g ys =>
              have hargs := endRelated_zip (f := fun p => unifyWithin n p.1 p.2)
                (fun p => grows_unifyWithin n p.1 p.2) (fun p _ henv hp => ih henv hp.1 hp.2)
                (fun p _ _ henv hp => unifyWithin_unified henv hp.1 hp.2) henv (covers_args hca)
                (covers_args hcb)
              simp only [ne_comm (a := g), ne_comm (a := ys.length)]
              split
              · exact endRelated_refl _ _
              · split
                · exact endRelated_fail
                · exact hargs

/-- Types that were unified have no type parameter. -/
theorem closed_of_unifyWithin (henv : env.Valid) (ha : env.Covers a) (hb : env.Covers b)
    (h : (unifyWithin n a b).Returns env true left) :
    a.hasParams = false ∧ b.hasParams = false := by
  induction n generalizing env a b left with
  | zero => simp [unifyWithin] at h
  | succ n ih =>
      have hmeets := returns_unifyWithin h
      have hca := henv.covers_shallow ha
      have hcb := henv.covers_shallow hb
      rw [← henv.hasParams_shallow a, ← henv.hasParams_shallow b]
      generalize env.shallow a = x at hmeets hca ⊢
      generalize env.shallow b = y at hmeets hcb ⊢
      cases hmeets with
      | same v => simp
      | bindLeft hbind => exact ⟨by simp, henv.hasParams_resolve _ ▸ hbind.paramFree⟩
      | bindRight hbind => exact ⟨henv.hasParams_resolve _ ▸ hbind.paramFree, by simp⟩
      | @args f xs ys _ _ hlen hargs =>
          have hall := (returns_attempt_true (grows_unifyArgs n _)).mp hargs
          have hclosed : ∀ p ∈ xs.zip ys, p.1.hasParams = false ∧ p.2.hasParams = false :=
            forall_of_allM
              (fun p _ _ henv hp h => ⟨ih henv hp.1 hp.2 h, unifyWithin_unified henv hp.1 hp.2 h⟩)
              henv (covers_zip (covers_args hca) (covers_args hcb)) hall
          rw [Ty.hasParams_con, Ty.hasParams_con, List.any_eq_false, List.any_eq_false]
          constructor
          · intro x hx
            rw [← List.map_fst_zip hlen.le] at hx
            obtain ⟨p, hp, rfl⟩ := List.mem_map.mp hx
            simp [hclosed p hp]
          · intro y hy
            rw [← List.map_snd_zip hlen.ge] at hy
            obtain ⟨p, hp, rfl⟩ := List.mem_map.mp hy
            simp [hclosed p hp]

/-- To unify types that agree changes nothing, however many levels it goes down. -/
theorem unifyWithin_idle (n : Nat) (henv : env.Valid) (h : env.Agree a b) :
    ∃ r, (unifyWithin n a b).Returns env r env := by
  induction n generalizing a b with
  | zero => exact ⟨false, returns_pure.mpr ⟨rfl, rfl⟩⟩
  | succ n ih =>
      rcases h.roots henv with ⟨v, ha, hb⟩ | ⟨id, xs, ys, ha, hb, hlen, hagree⟩
      · refine ⟨true, ?_⟩
        rw [unifyWithin, returns_bind]
        refine ⟨env, env, returns_present.mpr ⟨rfl, rfl⟩, ?_⟩
        rw [ha, hb]
        simp [unifyVars]
      · obtain ⟨r, hall⟩ := allM_idle (f := fun p => unifyWithin n p.1 p.2)
          fun p hp => ih (hagree p hp)
        refine ⟨r, ?_⟩
        rw [unifyWithin, returns_bind]
        refine ⟨env, env, returns_present.mpr ⟨rfl, rfl⟩, ?_⟩
        rw [ha, hb]
        simp only [hlen, ne_eq, not_true_eq_false, if_false]
        cases r with
        | true => exact (returns_attempt_true (grows_unifyArgs n _)).mpr hall
        | false => exact (returns_attempt_false (grows_unifyArgs n _)).mpr ⟨⟨env, hall⟩, rfl⟩

/-- To unify types that agree succeeds and binds nothing. -/
theorem unify_of_agree (henv : env.Valid) (ha : env.Covers a) (hb : env.Covers b)
    (h : env.Agree a b) : (unify a b).Returns env true env := by
  obtain ⟨r, hr⟩ := unifyWithin_idle (env.unifyBound a b) henv h
  have hrun : (unify a b).Returns env r env := returns_unify.mpr hr
  cases r with
  | true => exact hrun
  | false =>
      have heq : a.replaceVars env.answer = b.replaceVars env.answer := by
        rw [← Env.resolve_eq_replaceVars, ← Env.resolve_eq_replaceVars, h.resolve_eq]
      exact absurd hrun (unify_complete henv ha hb henv.solvedBy_answer heq)

theorem agree_of_equates {left : Env} {eqs : List (Ty × Ty)} (h : env.Unified eqs left)
    (hclosed : ∀ p ∈ eqs, p.1.hasParams = false ∧ p.2.hasParams = false) :
    ∀ p ∈ eqs, left.Agree p.1 p.2 := by
  intro p hp
  refine ⟨hclosed p hp, ?_⟩
  rw [Env.resolve_eq_replaceVars, Env.resolve_eq_replaceVars]
  exact ((h.solvedBy_iff _).mp h.valid.solvedBy_answer).2 p hp

theorem closed_of_unify (henv : env.Valid) (ha : env.Covers a) (hb : env.Covers b)
    (h : (unify a b).Returns env true left) : a.hasParams = false ∧ b.hasParams = false :=
  closed_of_unifyWithin henv ha hb (returns_unify.mp h)

theorem endRelated_unify (henv : env.Valid) (ha : env.Covers a) (hb : env.Covers b) :
    EndRelated (· = ·) (unify a b) (unify b a) env := by
  have hbound : env.unifyBound b a = env.unifyBound a b := by
    simp only [Env.unifyBound]
    omega
  apply endRelated_present_bind
  rw [hbound]
  exact endRelated_unifyWithin _ henv ha hb

/-- The laws of a test `x` that unifies, where `y` is the test with the sides exchanged. -/
structure Lawful (x y : Engine Bool) (env : Env) : Prop where
  /-- Exchanging the sides changes neither the answer nor what is left. -/
  symmetric : EndRelated (· = ·) x y env
  /-- A test that fails or gives up leaves the environment as it was. -/
  allOrNothing : (x.run env).outcome ≠ .ok true → (x.run env).env = env
  /-- A test that succeeds keeps the bindings there are. -/
  keeps : ∀ {left}, x.Returns env true left → env.trail <:+ left.trail
  /-- What succeeded once succeeds again, in either order, and binds nothing. -/
  idempotent : ∀ {left}, x.Returns env true left →
    x.Returns left true left ∧ y.Returns left true left

theorem lawful_unify (henv : env.Valid) (ha : env.Covers a) (hb : env.Covers b) :
    Lawful (unify a b) (unify b a) env where
  symmetric := endRelated_unify henv ha hb
  allOrNothing := allOrNothing_unify a b env
  keeps h := (h.extends_env (grows_unify a b)).trail
  idempotent {left} h := by
    have hunified := unify_unified henv ha hb h
    have hagree := agree_of_equates hunified
      (List.forall_mem_singleton.mpr (closed_of_unify henv ha hb h)) (a, b) (by simp)
    have hla := hunified.covers ha
    have hlb := hunified.covers hb
    exact ⟨unify_of_agree hunified.valid hla hlb hagree,
      unify_of_agree hunified.valid hlb hla hagree.symm⟩

theorem closed_of_unifyAll {as bs : List Ty} (henv : env.Valid) (has : ∀ a ∈ as, env.Covers a)
    (hbs : ∀ b ∈ bs, env.Covers b) (h : (unifyAll as bs).Returns env true left) :
    ∀ p ∈ as.zip bs, p.1.hasParams = false ∧ p.2.hasParams = false := by
  refine forall_of_allM (fun p _ _ henv hp hstep => ?_) henv (covers_zip has hbs)
    (returns_unifyAll_true.mp h).2
  exact ⟨closed_of_unify henv hp.1 hp.2 hstep, unify_unified henv hp.1 hp.2 hstep⟩

theorem endRelated_unifyAll {as bs : List Ty} (henv : env.Valid) (has : ∀ a ∈ as, env.Covers a)
    (hbs : ∀ b ∈ bs, env.Covers b) : EndRelated (· = ·) (unifyAll as bs) (unifyAll bs as) env := by
  rw [unifyAll, unifyAll]
  by_cases hlen : as.length = bs.length
  · rw [if_neg (not_not.mpr hlen), if_neg (not_not.mpr hlen.symm)]
    exact endRelated_zip (fun p => grows_unify p.1 p.2)
      (fun p _ henv hp => endRelated_unify henv hp.1 hp.2)
      (fun p _ _ henv hp => unify_unified henv hp.1 hp.2) henv has hbs
  · rw [if_pos hlen, if_pos (Ne.symm hlen)]
    exact endRelated_fail

/-- To unify lists that agree position by position succeeds and binds nothing. -/
theorem unifyAll_of_agree {as bs : List Ty} (henv : env.Valid) (hlen : as.length = bs.length)
    (has : ∀ a ∈ as, env.Covers a) (hbs : ∀ b ∈ bs, env.Covers b)
    (h : ∀ p ∈ as.zip bs, env.Agree p.1 p.2) :
    (unifyAll as bs).Returns env true env := by
  refine returns_unifyAll_true.mpr ⟨hlen, allM_true fun p hp => ?_⟩
  obtain ⟨ha, hb⟩ := covers_zip has hbs p hp
  exact unify_of_agree henv ha hb (h p hp)

theorem agree_swap {xs ys : List Ty} (h : ∀ p ∈ xs.zip ys, env.Agree p.1 p.2) :
    ∀ p ∈ ys.zip xs, env.Agree p.1 p.2 := by
  rw [← List.zip_swap xs ys]
  exact List.forall_mem_map.mpr fun p hp => (h p hp).symm

theorem lawful_unifyAll {as bs : List Ty} (henv : env.Valid) (has : ∀ a ∈ as, env.Covers a)
    (hbs : ∀ b ∈ bs, env.Covers b) : Lawful (unifyAll as bs) (unifyAll bs as) env where
  symmetric := endRelated_unifyAll henv has hbs
  allOrNothing := allOrNothing_unifyAll as bs env
  keeps h := (h.extends_env (grows_unifyAll as bs)).trail
  idempotent {left} h := by
    have hunified := unifyAll_unified henv has hbs h
    have hagree := agree_of_equates hunified (closed_of_unifyAll henv has hbs h)
    have hlen := (returns_unifyAll_true.mp h).1
    have hla := fun a ha => hunified.covers (has a ha)
    have hlb := fun b hb => hunified.covers (hbs b hb)
    exact ⟨unifyAll_of_agree hunified.valid hlen hla hlb hagree,
      unifyAll_of_agree hunified.valid hlen.symm hlb hla (agree_swap hagree)⟩

theorem endRelated_unifyReferences {r s : Reference} (henv : env.Valid) (hr : env.CoversRef r)
    (hs : env.CoversRef s) :
    EndRelated (· = ·) (unifyReferences r s) (unifyReferences s r) env := by
  obtain ⟨hrself, hrparams⟩ := List.forall_mem_cons.mp hr
  obtain ⟨hsself, hsparams⟩ := List.forall_mem_cons.mp hs
  rw [unifyReferences, unifyReferences]
  by_cases hlen : r.params.length = s.params.length
  · rw [if_neg (not_not.mpr hlen), if_neg (not_not.mpr hlen.symm)]
    apply endRelated_attempt (grows_unifyParts r s) (grows_unifyParts s r)
    apply (endRelated_unify henv hrself hsself).bind
    rintro same _ mid hmid - rfl
    cases same with
    | false => exact endRelated_refl _ _
    | true =>
        have hunified := unify_unified henv hrself hsself hmid
        exact endRelated_unifyAll hunified.valid (fun t ht => hunified.covers (hrparams t ht))
          fun t ht => hunified.covers (hsparams t ht)
  · rw [if_pos hlen, if_pos (Ne.symm hlen)]
    exact endRelated_fail

theorem closed_of_unifyReferences {r s : Reference} (henv : env.Valid) (hr : env.CoversRef r)
    (hs : env.CoversRef s) (h : (unifyReferences r s).Returns env true left) :
    ∀ p ∈ r.types.zip s.types, p.1.hasParams = false ∧ p.2.hasParams = false := by
  obtain ⟨-, mid, hself, hparams⟩ := returns_unifyReferences_true.mp h
  obtain ⟨hrself, hrparams⟩ := List.forall_mem_cons.mp hr
  obtain ⟨hsself, hsparams⟩ := List.forall_mem_cons.mp hs
  have hunified := unify_unified henv hrself hsself hself
  refine List.forall_mem_cons.mpr ⟨closed_of_unify henv hrself hsself hself, ?_⟩
  exact closed_of_unifyAll hunified.valid (fun t ht => hunified.covers (hrparams t ht))
    (fun t ht => hunified.covers (hsparams t ht)) hparams

theorem unifyReferences_of_agree {r s : Reference} (henv : env.Valid)
    (hlen : r.params.length = s.params.length) (hr : env.CoversRef r) (hs : env.CoversRef s)
    (h : ∀ p ∈ r.types.zip s.types, env.Agree p.1 p.2) :
    (unifyReferences r s).Returns env true env := by
  obtain ⟨hself, hparams⟩ := List.forall_mem_cons.mp h
  obtain ⟨hrself, hrparams⟩ := List.forall_mem_cons.mp hr
  obtain ⟨hsself, hsparams⟩ := List.forall_mem_cons.mp hs
  exact returns_unifyReferences_true.mpr ⟨hlen, env, unify_of_agree henv hrself hsself hself,
    unifyAll_of_agree henv hlen hrparams hsparams hparams⟩

theorem lawful_unifyReferences {r s : Reference} (henv : env.Valid) (hr : env.CoversRef r)
    (hs : env.CoversRef s) : Lawful (unifyReferences r s) (unifyReferences s r) env where
  symmetric := endRelated_unifyReferences henv hr hs
  allOrNothing := allOrNothing_unifyReferences r s env
  keeps h := (h.extends_env (grows_unifyReferences r s)).trail
  idempotent {left} h := by
    obtain ⟨hlen, hunified⟩ := unifyReferences_unified henv hr hs h
    have hagree := agree_of_equates hunified (closed_of_unifyReferences henv hr hs h)
    have hlr : left.CoversRef r := fun t ht => hunified.covers (hr t ht)
    have hls : left.CoversRef s := fun t ht => hunified.covers (hs t ht)
    exact ⟨unifyReferences_of_agree hunified.valid hlen hlr hls hagree,
      unifyReferences_of_agree hunified.valid hlen.symm hls hlr (agree_swap hagree)⟩

/-- Unification is symmetric, makes all its bindings or none, and is idempotent: for types, lists of
types and references over the variables of a reachable environment, whether or not they hold type
parameters or use a constructor with several numbers of arguments. -/
theorem unification_lawful (henv : env.Reachable) :
    (∀ a b, env.Covers a → env.Covers b → Lawful (unify a b) (unify b a) env) ∧
    (∀ as bs, (∀ a ∈ as, env.Covers a) → (∀ b ∈ bs, env.Covers b) →
      Lawful (unifyAll as bs) (unifyAll bs as) env) ∧
    (∀ r s, env.CoversRef r → env.CoversRef s →
      Lawful (unifyReferences r s) (unifyReferences s r) env) :=
  ⟨fun _ _ => lawful_unify henv.valid, fun _ _ => lawful_unifyAll henv.valid,
    fun _ _ => lawful_unifyReferences henv.valid⟩

/-- A pair of the last two variables, of which the first stands for lists. -/
def listAndThird : Ty :=
  .con "Pair" [.var ⟨1, 0⟩, .var ⟨2, 0⟩]

/-- A pair of lists of the third variable and an integer. -/
def thirdsAndInt : Ty :=
  .con "Pair" [.con "List" [.var ⟨2, 0⟩], .con "Int" []]

/-- A pair of the first variable and lists without an argument. -/
def firstAndLists : Ty :=
  .con "Pair" [.var ⟨0, 0⟩, .con "List" []]

/-- A pair of an integer and lists of the first variable. -/
def intAndFirsts : Ty :=
  .con "Pair" [.con "Int" [], .con "List" [.var ⟨0, 0⟩]]

/-- The first two pairs are unified by two bindings, whichever comes first, and by none when they
are unified again. The last two make unification give up, whichever comes first, after a binding
that is then taken back. -/
theorem unification_lawful_listed :
    (∃ left, (unify listAndThird thirdsAndInt).Returns listed true left ∧
      left.len = listed.len + 2 ∧ (unify thirdsAndInt listAndThird).Returns listed true left ∧
      (unify listAndThird thirdsAndInt).Returns left true left ∧
      (unify thirdsAndInt listAndThird).Returns left true left) ∧
    (∃ m, ((unify firstAndLists intAndFirsts).run listed).outcome = .error m) ∧
    ((unify intAndFirsts firstAndLists).run listed).outcome.toOption = none ∧
    ((unify intAndFirsts firstAndLists).run listed).env = listed := by
  have hgivesUp : ∃ m, ((unify firstAndLists intAndFirsts).run listed).outcome = .error m :=
    ⟨_, rfl⟩
  have hlaw := (unification_lawful listed_reachable).1 listAndThird thirdsAndInt (by decide)
    (by decide)
  have hlaw' := (unification_lawful listed_reachable).1 firstAndLists intAndFirsts (by decide)
    (by decide)
  constructor
  · have hrun : ∃ left, (unify listAndThird thirdsAndInt).Returns listed true left ∧
        left.len = listed.len + 2 := ⟨_, ⟨rfl, rfl⟩, rfl⟩
    obtain ⟨left, hleft, hlen⟩ := hrun
    exact ⟨left, hleft, hlen, hlaw.symmetric.returns_iff.mp hleft, hlaw.idempotent hleft⟩
  · refine ⟨hgivesUp, ?_⟩
    obtain ⟨m, hm⟩ := hlaw'.symmetric.error_iff.mp hgivesUp
    obtain ⟨m', hm'⟩ := hgivesUp
    rw [← hlaw'.symmetric.env, hm]
    exact ⟨rfl, hlaw'.allOrNothing (by simp [hm'])⟩

end Engine

end TraitResolution
