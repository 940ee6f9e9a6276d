import TraitResolution.Proofs.Accounting
import TraitResolution.Proofs.Safety

/-!
# Limits that are never felt

Unification goes down a limited number of levels, and resolution settles a limited number of
generations. Both limits are great enough: with a greater one the run is the same.

## Implementation notes

The types on a path of unification that are met on one side grow from the innermost outwards under
every solution of the present environment. Bindings made on the way leave fewer solutions, so this
stays true while siblings are unified. Hence the types on a path are distinct, and the path is no
longer than the list of types that can be met.
-/

namespace TraitResolution

namespace Operation

variable {ε α β : Type} {env : Env}

/-- What follows an operation matters only for what it returns. -/
theorem bind_run_congr {x : Operation ε α} {f g : α → Operation ε β}
    (h : ∀ {a mid}, x.Returns env a mid → (f a).run mid = (g a).run mid) :
    (x >>= f).run env = (x >>= g).run env := by
  simp only [run, bind_run, Execution.follow]
  cases houtcome : (x env).outcome with
  | error e => rfl
  | ok a =>
      have hsame : f a (x env).env = g a (x env).env := h ⟨houtcome, rfl⟩
      simp only [hsame]

end Operation

namespace Engine

open Operation

variable {env : Env} {known path : List Ty} {a b : Ty} {m n : Nat}

theorem allM_cons (step : Ty × Ty → Engine Bool) (p : Ty × Ty) (eqs : List (Ty × Ty)) :
    (p :: eqs).allM step = step p >>= fun b => if b then eqs.allM step else pure false := by
  rw [List.allM]
  congr 1
  funext b
  cases b <;> rfl

/-- Steps that run the same as far as an invariant reaches make sequences that run the same. -/
theorem allM_run_congr {step step' : Ty × Ty → Engine Bool} {I : Env → Prop}
    {eqs : List (Ty × Ty)}
    (hsame : ∀ p ∈ eqs, ∀ {env}, I env → (step p).run env = (step' p).run env)
    (hkeeps : ∀ p ∈ eqs, ∀ {env left}, I env → (step p).Returns env true left → I left)
    (henv : I env) : (eqs.allM step).run env = (eqs.allM step').run env := by
  induction eqs generalizing env with
  | nil => rfl
  | cons p eqs ih =>
      obtain ⟨hsameHead, hsameTail⟩ := List.forall_mem_cons.mp hsame
      obtain ⟨hkeepsHead, hkeepsTail⟩ := List.forall_mem_cons.mp hkeeps
      have hhead : step p env = step' p env := hsameHead henv
      rw [allM_cons, allM_cons]
      calc
        _ = (step p >>= fun b => if b then eqs.allM step' else pure false).run env := by
          refine bind_run_congr fun {b mid} hb => ?_
          cases b with
          | false => rfl
          | true => exact ih hsameTail hkeepsTail (hkeepsHead henv hb)
        _ = _ := by simp only [run, bind_run, hhead]

/-- The types on a path of unification, the innermost first: they are known, and each stands for
less than the next. -/
structure Descent (known path : List Ty) (env : Env) : Prop where
  consistent : env.Consistent
  knows : Knows known env
  known : ∀ t ∈ path, t ∈ known
  ascending : ∀ {f}, env.SolvedBy f →
    path.Pairwise fun s t => (s.replaceVars f).size < (t.replaceVars f).size

/-- A path is no longer than the list of known types. -/
theorem Descent.length_le (h : Descent known path env) : path.length ≤ known.length := by
  have hascending := h.ascending h.consistent.solvedBy_answer
  have hnodup : path.Nodup := by
    refine List.Pairwise.imp (fun hlt => ?_) hascending
    rintro rfl
    exact Nat.lt_irrefl _ hlt
  exact (List.subperm_of_subset hnodup h.known).length_le

/-- The root of the innermost type can take its place. -/
theorem Descent.shallow (h : Descent known (a :: path) env) :
    Descent known (env.shallow a :: path) env := by
  obtain ⟨ha, hpath⟩ := List.forall_mem_cons.mp h.known
  refine ⟨h.consistent, h.knows, List.forall_mem_cons.mpr ⟨h.knows.shallow ha, hpath⟩, ?_⟩
  intro f hf
  have hascending := h.ascending hf
  rw [List.pairwise_cons] at hascending ⊢
  rw [hf.shallow]
  exact hascending

theorem Descent.arg {id : String} {args : List Ty} (h : Descent known (.con id args :: path) env)
    (ha : a ∈ args) : Descent known (a :: .con id args :: path) env := by
  have hcon := h.known (.con id args) List.mem_cons_self
  refine ⟨h.consistent, h.knows,
    List.forall_mem_cons.mpr ⟨h.knows.args id args hcon a ha, h.known⟩, fun {f} hf => ?_⟩
  have hlt : (a.replaceVars f).size < ((Ty.con id args).replaceVars f).size := by
    rw [Ty.replaceVars_con]
    exact Ty.size_lt_size_con (List.mem_map_of_mem ha)
  have hascending := h.ascending hf
  refine List.pairwise_cons.mpr ⟨List.forall_mem_cons.mpr ⟨hlt, fun t ht => ?_⟩, hascending⟩
  exact Nat.lt_trans hlt (List.rel_of_pairwise_cons hascending ht)

/-- A path stays one while types beside it are unified. -/
theorem Descent.unifyWithin {left : Env} (h : Descent known path env) (ha : a ∈ known)
    (hb : b ∈ known) (hunify : (unifyWithin n a b).Returns env true left) :
    Descent known path left where
  consistent := unifyWithin_stable stable_consistent h.consistent trivial trivial hunify
  knows := unifyWithin_stable (stable_knows known) h.knows ha hb hunify
  known := h.known
  ascending hf := h.ascending (hf.of_extends (unifyWithin_solved hunify).extends_env)

theorem present_bind_run {α : Type} (f : Env → Engine α) :
    (present >>= f).run env = (f env).run env :=
  rfl

/-- Unification runs the same with more levels, if there are enough for the rest of the path. -/
theorem unifyWithin_run_eq (h : Descent known (a :: path) env) (hb : b ∈ known)
    (hn : known.length < n + (a :: path).length) (hnm : n ≤ m) :
    (unifyWithin n a b).run env = (unifyWithin m a b).run env := by
  induction n generalizing m a b path env with
  | zero =>
      have hle := h.length_le
      omega
  | succ n ih =>
      obtain ⟨m, rfl⟩ : ∃ k, m = k + 1 := ⟨m - 1, by omega⟩
      have hroot := h.shallow
      have hrootB := h.knows.shallow hb
      rw [unifyWithin, unifyWithin, present_bind_run, present_bind_run]
      generalize env.shallow a = x at hroot
      generalize env.shallow b = y at hrootB
      cases x with
      | var v => cases y <;> rfl
      | param i => cases y <;> rfl
      | con f xs =>
          cases y with
          | var v => rfl
          | param i => rfl
          | con g ys =>
              have hargs : ((xs.zip ys).allM fun p => unifyWithin n p.1 p.2).run env =
                  ((xs.zip ys).allM fun p => unifyWithin m p.1 p.2).run env := by
                have hknown := (stable_knows known).zip hroot.knows
                  (hroot.known _ List.mem_cons_self) hrootB
                refine allM_run_congr (I := Descent known (.con f xs :: path)) ?_ ?_ hroot
                · intro p hp env hdescent
                  refine ih (hdescent.arg (List.of_mem_zip hp).1) (hknown p hp).2 ?_ (by omega)
                  simp only [List.length_cons] at hn ⊢
                  omega
                · intro p hp env left hdescent hunify
                  exact hdescent.unifyWithin (hknown p hp).1 (hknown p hp).2 hunify
              have hattempt : (attempt ((xs.zip ys).allM fun p => unifyWithin n p.1 p.2)).run env =
                  (attempt ((xs.zip ys).allM fun p => unifyWithin m p.1 p.2)).run env :=
                congrArg (fun x : Execution Malformed Bool => x.settled env.snapshot) hargs
              simp only
              split
              · rfl
              · split
                · rfl
                · exact hattempt

/-- The levels that unification is given are enough. -/
theorem unify_run_eq (henv : env.Consistent) (hm : env.unifyBound a b ≤ m) :
    (unify a b).run env = (unifyWithin m a b).run env := by
  have hlength := length_knownTypes env a b
  have hdescent : Descent (knownTypes env a b) [a] env := by
    refine ⟨henv, knows_knownTypes env a b, ?_, fun _ => List.pairwise_singleton _ _⟩
    simp [knownTypes, Ty.self_mem_subterms]
  rw [unify, present_bind_run]
  refine unifyWithin_run_eq hdescent ?_ ?_ hm
  · simp [knownTypes, Ty.self_mem_subterms]
  · simp only [List.length_singleton]
    omega

theorem returns_unify_iff {x : Bool} {left : Env} (henv : env.Consistent)
    (hm : env.unifyBound a b ≤ m) :
    (unify a b).Returns env x left ↔ (unifyWithin m a b).Returns env x left := by
  rw [Returns, Returns, unify_run_eq henv hm]

end Engine

namespace Solver

open Operation Engine

variable {program : Program} {speculate speculate' : List Obligation → Engine Resolution}
  {o : Obligation} {os : List Obligation} {maxDepth : Int} {m n : Nat}

theorem settleAll_of_beyond (hos : ∀ o ∈ os, beyond maxDepth o = true) :
    settleAll (settle maxDepth program speculate) os =
      (os.forM fun o => report (.overflow o)) >>= fun _ => pure (.ofOverflow os, []) := by
  induction os with
  | nil => rfl
  | cons o os ih =>
      obtain ⟨ho, hos⟩ := List.forall_mem_cons.mp hos
      have hsettle : settle maxDepth program speculate o =
          report (.overflow o) >>= fun _ => pure (.ofOverflow [o], []) := if_pos ho
      have hforM : ((o :: os).forM fun o => report (.overflow o)) =
          report (.overflow o) >>= fun _ => os.forM fun o => report (.overflow o) := rfl
      rw [settleAll, hsettle, ih hos, hforM]
      simp only [bind_assoc, pure_bind]
      rfl

/-- How an obligation is settled depends on the speculation about what may arise from it only. -/
theorem settle_congr
    (h : beyond maxDepth o = false → ∀ bounds,
      speculate (o.nestedAll bounds) = speculate' (o.nestedAll bounds)) :
    settle maxDepth program speculate o = settle maxDepth program speculate' o := by
  cases hdepth : beyond maxDepth o with
  | true => simp only [settle, hdepth, if_true]
  | false =>
      have hweigh : ∀ impl, weigh speculate o impl = weigh speculate' o impl := by
        intro impl
        have hbounds : ∀ vars, (boundsOf o impl vars >>= fun nested =>
            speculate nested >>= fun r => pure r.noImpl.isEmpty : Engine Bool) =
            boundsOf o impl vars >>= fun nested =>
            speculate' nested >>= fun r => pure r.noImpl.isEmpty := by
          intro vars
          funext env
          refine bind_run_congr fun {nested mid} hnested => ?_
          obtain ⟨⟨bounds, -, rfl⟩, -⟩ := returns_boundsOf.mp hnested
          rw [h hdepth bounds]
        simp only [weigh, hbounds]
      have hviable : viable speculate o = viable speculate' o := by
        funext impl
        have hprobe : ∀ speculate, viable speculate o impl =
            probe (weigh speculate o impl) >>= fun holds =>
              if holds then pure true else report (.discarded o impl.id) >>= fun _ => pure false :=
          fun _ => rfl
        rw [hprobe, hprobe, hweigh]
      simp only [settle, candidates, hviable]

theorem settleAll_congr
    {settleOne settleOne' : Obligation → Engine (Resolution × List Obligation)}
    (h : ∀ o ∈ os, settleOne o = settleOne' o) :
    settleAll settleOne os = settleAll settleOne' os := by
  induction os with
  | nil => rfl
  | cons o os ih =>
      obtain ⟨ho, hos⟩ := List.forall_mem_cons.mp h
      rw [settleAll, settleAll, ho, ih hos]

/-- What arises from a generation is one step closer to the greatest depth. -/
theorem reaches_nested {env left : Env} {p : Resolution × List Obligation}
    (hos : ∀ o ∈ os, Reaches maxDepth (n + 1) o)
    (h : (settleAll (settle maxDepth program (resolveWithin maxDepth program m)) os).Returns env p
      left) : ∀ x ∈ p.2, Reaches maxDepth n x := by
  obtain ⟨htallies, hsplit⟩ := generation_tallies h
  intro x hx
  rw [htallies.nested_eq] at hx
  obtain ⟨c, hc, hx⟩ := List.mem_flatMap.mp hx
  obtain ⟨bounds, hbounds⟩ := htallies.substituted c hc
  rw [Confirmation.arising_eq hbounds] at hx
  have hmem : c.obligation ∈ os :=
    htallies.perm.mem_iff.mp (List.mem_append_left _ (List.mem_map_of_mem hc))
  have hwithin : c.obligation.depth ≤ maxDepth :=
    hsplit.within c.obligation (by simpa using Or.inl ⟨c, hc, rfl⟩)
  exact (hos _ hmem).nested (by simpa [beyond] using hwithin) (Obligation.depth_of_mem_nestedAll hx)

theorem resolveWithin_cons_zero :
    resolveWithin maxDepth program 0 (o :: os) =
      if (o :: os).all (beyond maxDepth) then
        ((o :: os).forM fun o => report (.overflow o)) >>= fun _ => pure (.ofOverflow (o :: os))
      else fail .endless :=
  rfl

theorem resolveWithin_cons_succ :
    resolveWithin maxDepth program (n + 1) (o :: os) =
      settleAll (settle maxDepth program (resolveWithin maxDepth program n)) (o :: os) >>= fun p =>
        resolveWithin maxDepth program n p.2 >>= fun rest => pure (p.1 ++ rest) :=
  rfl

/-- More generations than it takes to pass the greatest depth make no difference. -/
theorem resolveWithin_eq (hlimit : maxDepth + 1 < Number.signedLimit)
    (hos : ∀ o ∈ os, Reaches maxDepth m o) (hmn : m ≤ n) :
    resolveWithin maxDepth program n os = resolveWithin maxDepth program m os := by
  induction m generalizing n os with
  | zero =>
      cases n with
      | zero => rfl
      | succ n =>
          cases os with
          | nil => rfl
          | cons o os =>
              have hbeyond : ∀ x ∈ o :: os, beyond maxDepth x = true := by
                intro x hx
                have hreaches := hos x hx hlimit
                exact decide_eq_true (by omega)
              have hnil : resolveWithin maxDepth program n [] = pure .empty := by
                cases n <;> rfl
              have hall : (o :: os).all (beyond maxDepth) = true := List.all_eq_true.mpr hbeyond
              rw [resolveWithin_cons_succ, resolveWithin_cons_zero, settleAll_of_beyond hbeyond,
                if_pos hall]
              simp only [bind_assoc, pure_bind, hnil]
              congr 1
              funext _
              change pure (Resolution.mk [] [] ((o :: os) ++ []) []) = _
              rw [List.append_nil]
              rfl
  | succ m ih =>
      obtain ⟨n, rfl⟩ : ∃ k, n = k + 1 := ⟨n - 1, by omega⟩
      cases os with
      | nil => rfl
      | cons o os =>
          have hgeneration : settleAll (settle maxDepth program (resolveWithin maxDepth program n))
              (o :: os) = settleAll (settle maxDepth program (resolveWithin maxDepth program m))
              (o :: os) := by
            refine settleAll_congr fun x hx => settle_congr fun hdepth bounds => ?_
            refine ih (fun y hy => ?_) (by omega)
            exact (hos x hx).nested hdepth (Obligation.depth_of_mem_nestedAll hy)
          rw [resolveWithin_cons_succ, resolveWithin_cons_succ, hgeneration]
          funext env
          refine bind_run_congr fun {p mid} hp => ?_
          obtain ⟨r, nested⟩ := p
          simp only
          rw [ih (reaches_nested hos hp) (by omega)]

theorem generations_le {os' : List Obligation} (hlimit : maxDepth + 1 < Number.signedLimit)
    (h : ∀ o ∈ os, ∃ o' ∈ os', o'.depth = o.depth) :
    generations maxDepth os ≤ generations maxDepth os' := by
  have hbound : ∀ o ∈ os, (maxDepth + 1 - o.depth).toNat ≤ generations maxDepth os' := by
    intro o ho
    obtain ⟨o', ho', hdepth⟩ := h o ho
    have hreaches := reaches_generations ho' hlimit
    omega
  rw [generations, if_pos hlimit]
  clear h
  induction os with
  | nil => exact Nat.zero_le _
  | cons o os ih =>
      obtain ⟨ho, hos⟩ := List.forall_mem_cons.mp hbound
      exact Nat.max_le.mpr ⟨ho, ih hos⟩

/-- The generations that suffice for some obligations suffice for obligations of the same depths. -/
theorem resolveWithin_generations {config : Config} {os' : List Obligation}
    (h : ∀ o ∈ os, ∃ o' ∈ os', o'.depth = o.depth) :
    resolveWithin config.maxDepth program (generations config.maxDepth os') os =
      resolve config program os := by
  by_cases hlimit : config.maxDepth + 1 < Number.signedLimit
  · exact resolveWithin_eq hlimit (fun _ => reaches_generations) (generations_le hlimit h)
  · rw [resolve, generations, generations, if_neg hlimit, if_neg hlimit]

end Solver

end TraitResolution
