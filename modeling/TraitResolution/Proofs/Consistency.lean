import TraitResolution.Proofs.ReachableResolution
import TraitResolution.Proofs.Speculation

/-!
# Operations keep environments consistent

Whatever types a program, an obligation or a receiver is made of, resolutions and method calls never
bind a variable twice or let it reach itself. So what the variables resolve to satisfies every
binding at any time, also where impls mention variables of their own.
-/

namespace TraitResolution

theorem Env.Consistent.restored {env : Env} (h : env.Consistent) (s : Snapshot) :
    (env.restored s).Consistent := by
  have hsublist : (env.restored s).trail.Sublist env.trail := List.drop_sublist _ _
  obtain ⟨rank, hrank⟩ := h.acyclic
  exact ⟨h.distinct.sublist (hsublist.map _), rank, fun b hb => hrank b (hsublist.subset hb)⟩

namespace Engine

open Operation

/-- What is found at the root of a type in a consistent environment is unbound. So no variable is
bound twice, none comes to reach itself, and no operation gives up on its own account. -/
theorem consistency : Invariant Env.Consistent fun cause => ¬cause.Internal where
  empty := Env.valid_empty.toConsistent
  created henv := henv.created
  bound henv hbind := hbind.consistent henv fun _ hw => henv.value?_of_shallow hw
  unbound henv hv := Or.inl (henv.value?_of_shallow hv)
  given hcause _ := hcause

end Engine

namespace Solver

open Engine

theorem upholds_consistency {env : Env} (config : Config) (program : Program)
    (os : List Obligation) (henv : env.Consistent) :
    Upholds Env.Consistent (fun cause => ¬cause.Internal) env (resolve config program os) env :=
  upholds_resolve consistency id config program os henv

end Solver

namespace Coherence

open Engine

theorem upholds_consistency {env : Env} (config : Config) (program : Program)
    (henv : env.Consistent) :
    Upholds Env.Consistent (fun cause => ¬cause.Internal) env (check config program) env :=
  upholds_check consistency (fun os _ => Solver.upholds_consistency config program os) henv

end Coherence

namespace MethodCall

open Engine

theorem upholds_consistency {env : Env} (config : Config) (program : Program) (receiver : Ty)
    (traits : List Trait) (name : Text) (henv : env.Consistent) :
    Upholds Env.Consistent (fun cause => ¬cause.Internal) env
      (resolve config program receiver traits name) env :=
  upholds_resolve consistency (fun os _ => Solver.upholds_consistency config program os) receiver
    traits name henv

end MethodCall

namespace Engine

open Operation

variable {env : Env}

theorem consistent_rollback (s : Snapshot) (henv : env.Consistent) :
    ((rollback s).run env).env.Consistent := by
  simp only [run, rollback]
  split
  · exact henv
  · exact henv.restored s

/-- Whatever clients make of the operations keeps environments consistent. -/
theorem Above.consistent {α : Type} {x : Engine α} (hx : Above Env.empty.snapshot x)
    (henv : env.Consistent) : (x.run env).env.Consistent := by
  induction hx generalizing env with
  | pure a => exact henv
  | bind _ _ ihx ihf => exact bind_env (P := Env.Consistent) (ihx henv) fun _ hmid => ihf _ hmid
  | present _ ihf => exact ihf env (Nat.zero_le _) (Nat.zero_le _) henv
  | fail cause => exact henv
  | report event => exact henv
  | ofSubst x => exact (upholds_ofSubst consistency x henv).kept
  | fresh => exact henv.created
  | freshTypes n => exact (upholds_freshTypes consistency n henv).kept
  | unify a b => exact (upholds_unify consistency a b henv).kept
  | unifyAll as bs => exact (upholds_unifyAll consistency as bs henv).kept
  | unifyReferences a b => exact (upholds_unifyReferences consistency a b henv).kept
  | resolve config program os => exact (Solver.upholds_consistency config program os henv).kept
  | check config program => exact (Coherence.upholds_consistency config program henv).kept
  | call config program receiver traits name =>
      exact (MethodCall.upholds_consistency config program receiver traits name henv).kept
  | @attempt x _ ih =>
      by_cases htrue : (x.run env).outcome = .ok true
      · rw [attempt_run_of_true htrue]
        exact ih henv
      · rw [attempt_run_of_ne_true htrue, probe_env]
        exact consistent_rollback _ (ih henv)
  | probe _ ih =>
      rw [probe_env]
      exact consistent_rollback _ (ih henv)
  | rollback t _ _ => exact consistent_rollback t henv

end Engine

end TraitResolution
