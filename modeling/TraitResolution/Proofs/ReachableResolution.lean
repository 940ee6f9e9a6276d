import TraitResolution.Proofs.Settling

/-!
# Resolution stays among the reachable environments

A resolution creates variables and unifies references over existing ones, and it undoes whatever it
only tries out. So it leads from a reachable environment to a reachable one, whether it returns or
gives up halfway.
-/

namespace TraitResolution

namespace Operation

variable {ε α β : Type} {env : Env} {x : Operation ε α} {f : α → Operation ε β}

/-- The operation leaves `env` as it is, whether it returns or gives up. -/
def Idle (x : Operation ε α) (env : Env) : Prop :=
  (x.run env).env = env

theorem idle_pure (a : α) : (pure a : Operation ε α).Idle env :=
  rfl

theorem Idle.bind (hx : x.Idle env) (hf : ∀ a, (f a).Idle env) : (x >>= f).Idle env := by
  refine bind_env (P := (· = env)) hx fun _ hmid => ?_
  rw [hmid]
  exact hf _

theorem Idle.ite {c : Prop} [Decidable c] {y : Operation ε α} (hx : x.Idle env) (hy : y.Idle env) :
    (if c then x else y).Idle env := by
  split
  · exact hx
  · exact hy

/-- The operation leads from `env` to an environment that is reached with the same snapshots,
whether it returns or gives up. -/
def Stays (x : Operation ε α) (env : Env) : Prop :=
  ∀ ss, env.ReachedWith ss → (x.run env).env.ReachedWith ss

theorem Idle.stays (h : x.Idle env) : x.Stays env := by
  intro ss hss
  rw [h]
  exact hss

theorem Stays.bind (hx : x.Stays env)
    (hf : ∀ {a mid}, x.Returns env a mid → (f a).Stays mid) : (x >>= f).Stays env :=
  fun ss hss => bind_env (P := (·.ReachedWith ss)) (hx ss hss) fun ha hmid => hf ha ss hmid

end Operation

namespace Engine

open Operation

variable {α : Type} {env : Env}

theorem idle_report (event : Event) : (report event).Idle env :=
  rfl

theorem idle_ofSubst (x : Except SubstError α) : (ofSubst x).Idle env := by
  cases x with
  | error e => rfl
  | ok a => rfl

theorem idle_select {p : α → Engine Bool} (hp : ∀ a, (p a).Idle env) (l : List α) :
    (select p l).Idle env := by
  induction l with
  | nil => exact idle_pure []
  | cons a l ih => exact (hp a).bind fun _ => ih.bind fun _ => idle_pure _

theorem idle_reportAll (f : Obligation → Event) (os : List Obligation) :
    (os.forM fun o => report (f o)).Idle env := by
  induction os with
  | nil => exact idle_pure ()
  | cons o os ih => exact (idle_report _).bind fun _ => ih

theorem stays_freshTypes (n : Nat) : (freshTypes n).Stays env := by
  induction n generalizing env with
  | zero => exact (idle_pure []).stays
  | succ n ih =>
      have hfresh : fresh.Stays env := fun ss hss => hss.fresh
      refine hfresh.bind fun _ => ih.bind fun _ => ?_
      exact (idle_pure _).stays

end Engine

namespace Solver

open Operation Engine

variable {program : Program} {speculate : List Obligation → Engine Resolution} {impl : Impl}
  {o : Obligation} {os : List Obligation} {env : Env} {maxDepth : Int} {n : Nat}

theorem idle_unifies (o : Obligation) (impl : Impl) : (unifies o impl).Idle env :=
  (probe_run ((grows_apply impl o).bind fun _ => grows_pure _) env).2

theorem idle_viable (hs : ∀ os, (speculate os).Grows) (o : Obligation) (impl : Impl) :
    (viable speculate o impl).Idle env := by
  have hweigh : (probe (weigh speculate o impl)).Idle env :=
    (probe_run (grows_weigh hs o impl) env).2
  apply hweigh.bind
  intro holds
  exact (idle_pure true).ite ((idle_report _).bind fun _ => idle_pure false)

theorem idle_candidates (hs : ∀ os, (speculate os).Grows) :
    (candidates program speculate o).Idle env := by
  apply (idle_select (idle_unifies o) _).bind
  intro unifiable
  exact (idle_pure _).ite (idle_select (idle_viable hs o) _)

theorem idle_boundsOf (vars : List Ty) : (boundsOf o impl vars).Idle env :=
  (idle_ofSubst _).bind fun _ => idle_pure _

/-- Applying an impl creates variables and unifies over them. -/
theorem stays_apply (henv : env.Valid) (himpl : impl.VarFree) (ho : env.CoversRef o.trait) :
    (apply impl o).Stays env := by
  have hinstantiate : (instantiate impl).Stays env := by
    refine (stays_freshTypes _).bind fun _ => Idle.stays ?_
    exact (idle_ofSubst _).bind fun _ => idle_pure _
  apply hinstantiate.bind
  intro inst mid hinstance
  obtain ⟨vars, ref⟩ := inst
  obtain ⟨rfl, hsubst, rfl⟩ := (returns_instantiate henv).mp hinstance
  have hunify : (unifyReferences ref o.trait).Stays (env.grown impl.params.length) := by
    intro ss hss
    apply hss.unifyReferences (covers_instance himpl hsubst)
    intro t ht
    exact (env.extends_grown _).covers (ho t ht)
  refine hunify.bind fun _ => Idle.stays ?_
  exact (idle_pure _).ite (idle_pure _)

theorem stays_confirm (henv : env.Valid) (himpl : impl.VarFree) (ho : env.CoversRef o.trait) :
    (confirm o impl).Stays env := by
  refine (stays_apply henv himpl ho).bind fun {vars? mid} _ => Idle.stays ?_
  cases vars? with
  | none => rfl
  | some vars => exact (idle_boundsOf vars).bind fun _ => idle_pure _

theorem stays_settle (hs : ∀ os, (speculate os).Grows) (hprogram : program.VarFree)
    (henv : env.Valid) (ho : env.CoversRef o.trait) :
    (settle maxDepth program speculate o).Stays env := by
  rw [settle]
  split
  · exact ((idle_report _).bind fun _ => idle_pure _).stays
  · apply (idle_candidates hs).stays.bind
    intro cs mid hcs
    obtain rfl : mid = env := ((returns_candidates hs).mp hcs).2
    split
    · rename_i impl
      obtain ⟨himpl, -⟩ := mem_impls_of_mem_candidates hs hcs (List.mem_singleton.mpr rfl)
      refine (idle_report _).stays.bind fun hreport => ?_
      obtain rfl := returns_report.mp hreport
      exact stays_confirm henv (hprogram impl himpl) ho
    · have hpresent : (present : Engine Env).Idle mid := rfl
      apply Idle.stays
      apply hpresent.bind
      intro env
      exact ((idle_report _).bind fun _ => idle_pure _).ite
        ((idle_report _).bind fun _ => idle_pure _)
    · exact ((idle_report _).bind fun _ => idle_pure _).stays

theorem stays_settleAll {settleOne : Obligation → Engine (Resolution × List Obligation)}
    (hprogress : ∀ {o env p left}, env.Valid → env.CoversRef o.trait →
      (settleOne o).Returns env p left → Progress env p.2 left)
    (hstep : ∀ {o env}, env.Valid → env.CoversRef o.trait → (settleOne o).Stays env)
    (henv : env.Valid) (hos : env.CoversAll os) : (settleAll settleOne os).Stays env := by
  induction os generalizing env with
  | nil => exact (idle_pure _).stays
  | cons o os ih =>
      obtain ⟨ho, hos⟩ := List.forall_mem_cons.mp hos
      refine (hstep henv ho).bind fun hone => ?_
      have hfirst := hprogress henv ho hone
      refine (ih hfirst.valid (hfirst.extends_env.coversAll hos)).bind fun _ => ?_
      exact (idle_pure _).stays

theorem stays_resolveWithin (hprogram : program.VarFree) (henv : env.Valid)
    (hos : env.CoversAll os) : (resolveWithin maxDepth program n os).Stays env := by
  induction n generalizing env os with
  | zero =>
      cases os with
      | nil => exact (idle_pure _).stays
      | cons o os =>
          apply Idle.stays
          exact ((idle_reportAll _ _).bind fun _ => idle_pure _).ite rfl
  | succ n ih =>
      cases os with
      | nil => exact (idle_pure _).stays
      | cons o os =>
          have hs := grows_resolveWithin maxDepth program n
          have hgeneration : (settleAll (settle maxDepth program (resolveWithin maxDepth program n))
              (o :: os)).Stays env := by
            refine stays_settleAll (fun henv ho h => ?_) (fun henv ho => ?_) henv hos
            · exact ((returns_settle hs).mp h).progress hs hprogram henv ho
            · exact stays_settle hs hprogram henv ho
          refine hgeneration.bind fun hall => ?_
          have hfirst := generation_progress hprogram henv hos hall
          refine (ih hfirst.valid hfirst.covers).bind fun _ => ?_
          exact (idle_pure _).stays

end Solver

/-- A resolution leads from a reachable environment to a reachable one. -/
theorem Env.Reachable.resolve {env : Env} {program : Program} {os : List Obligation}
    (h : env.Reachable) (config : Config) (hprogram : program.VarFree) (hos : env.CoversAll os) :
    ((Solver.resolve config program os).run env).env.Reachable := by
  obtain ⟨ss, hss⟩ := h
  exact ⟨ss, Solver.stays_resolveWithin hprogram hss.kept.valid hos ss hss⟩

end TraitResolution
