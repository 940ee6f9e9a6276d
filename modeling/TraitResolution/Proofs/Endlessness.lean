import TraitResolution.Proofs.Safety
import TraitResolution.Proofs.Worklist

/-!
# Endless resolutions

A resolution is given up as endless when obligations still arise after all the generations that it
is given. This is not a way to end: it stands for a resolution that never returns, neither with a
result nor with an error. So an operation fails, in the sense of `Engine.Fails`, only if it gives up
for another cause.

With a greatest depth no resolution is given up as endless, in whatever environment and with
whatever program: the queue of obligations is empty before. Coherence checks and method calls are
not either. Without one it happens to every obligation for a trait whose only impl has the trait
itself as its bound, however many generations are given.
-/

namespace TraitResolution

namespace Engine

open Operation

variable {α β : Type} {E : Cause → Prop} {env mid : Env} {x : Engine α}

/-- However it is started, the operation is not given up as endless. -/
def Concludes (x : Engine α) : Prop :=
  ∀ env m, (x.run env).outcome = .error m → m.cause ≠ .endless

/-- Started in `env`, the operation gives up for a cause in `E`. -/
def GivesUpFor (E : Cause → Prop) (x : Engine α) (env : Env) : Prop :=
  ∃ m, (x.run env).outcome = .error m ∧ E m.cause

/-- Started in `env`, the operation never returns. -/
def NeverReturns (x : Engine α) (env : Env) : Prop :=
  GivesUpFor (· = .endless) x env

/-- Started in `env`, the operation returns an error. One that never returns does not. -/
def Fails (x : Engine α) (env : Env) : Prop :=
  GivesUpFor (· ≠ .endless) x env

/-- What is not given up as endless fails where it does not return a result. -/
theorem Concludes.fails_iff (h : Concludes x) :
    Fails x env ↔ ¬∃ a left, x.Returns env a left := by
  rw [← exists_error_iff]
  constructor
  · rintro ⟨m, hm, -⟩
    exact ⟨m, hm⟩
  · rintro ⟨m, hm⟩
    exact ⟨m, hm, h env m hm⟩

theorem GivesUpFor.bind (h : GivesUpFor E x env) (f : α → Engine β) :
    GivesUpFor E (x >>= f) env := by
  obtain ⟨m, hm, hcause⟩ := h
  exact ⟨m, (givesUp_bind.mpr (Or.inl ⟨hm, rfl⟩)).1, hcause⟩

theorem GivesUpFor.after {a : α} {f : α → Engine β} (h : GivesUpFor E (f a) mid)
    (hx : x.Returns env a mid) : GivesUpFor E (x >>= f) env := by
  obtain ⟨m, hm, hcause⟩ := h
  exact ⟨m, (givesUp_bind.mpr (Or.inr ⟨a, mid, hx, hm, rfl⟩)).1, hcause⟩

theorem GivesUpFor.probe (h : GivesUpFor E x env) (hx : x.Grows) :
    GivesUpFor E (probe x) env := by
  obtain ⟨m, hm, hcause⟩ := h
  exact ⟨m, (probe_run hx env).1.trans hm, hcause⟩

/-- No step gives up as endless on its own. -/
theorem conclusion : Invariant (fun _ => True) (· ≠ .endless) where
  empty := trivial
  created _ := trivial
  bound _ _ := trivial
  unbound _ _ := Or.inr (by simp)
  given _ hcause := hcause

end Engine

namespace Solver

open Operation Engine

variable {config : Config} {program : Program} {env : Env}

/-- The queue is empty before a resolution would be given up as endless. -/
theorem upholds_conclusion (hlimit : config.maxDepth + 1 < Number.signedLimit)
    (program : Program) (os : List Obligation) :
    Upholds (fun _ => True) (· ≠ .endless) env (resolve config program os) env := by
  induction os using (wellFounded_lower config.maxDepth).induction generalizing env with
  | _ os ih =>
      rw [resolve_eq_round hlimit]
      cases os with
      | nil => exact upholds_pure trivial _
      | cons o os =>
          have hsettle : Upholds (fun _ => True) (· ≠ .endless) env
              (settle config.maxDepth program (resolve config program) o) env := by
            apply upholds_settle conclusion program (grows_resolve config program) ?_ trivial
            intro hdepth bounds mid _
            apply ih
            apply lower_trial
            intro x hx
            exact height_lt_of_depth_eq hlimit hdepth (Obligation.depth_of_mem_nestedAll hx)
          apply hsettle.bind
          rintro ⟨r, nested⟩ mid hreturns -
          have hlower : Lower config.maxDepth (os ++ nested) (o :: os) :=
            lower_queue (height_lt_of_settle hlimit hreturns)
          exact (ih _ hlower).bind fun _ _ => upholds_pure trivial _

theorem concludes_resolve (program : Program) (hlimit : config.maxDepth + 1 < Number.signedLimit)
    (os : List Obligation) : Concludes (resolve config program os) :=
  fun _ => (upholds_conclusion hlimit program os).cause

end Solver

/-- Two resolutions at most are made for each pair of impls. -/
theorem Coherence.concludes_check {config : Config} (program : Program)
    (hlimit : config.maxDepth + 1 < Number.signedLimit) :
    Engine.Concludes (check config program) :=
  fun _ => (upholds_check Engine.conclusion
    (fun os _ _ => Solver.upholds_conclusion hlimit program os) trivial).cause

/-- A method call makes finitely many resolutions, and none of them is given up as endless. -/
theorem MethodCall.concludes_resolve {config : Config} (program : Program)
    (hlimit : config.maxDepth + 1 < Number.signedLimit) (receiver : Ty) (traits : List Trait)
    (name : Text) : Engine.Concludes (resolve config program receiver traits name) :=
  fun _ => (upholds_resolve Engine.conclusion
    (fun os _ _ => Solver.upholds_conclusion hlimit program os) receiver traits name trivial).cause

namespace Solver

open Operation Engine

variable {sig : Signature} {program : Program} {id bound trait : Text} {o : Obligation}
  {env : Env} {maxDepth : Int}

/-- The impl of a trait for every type that another trait is implemented for. -/
def blanket (id bound trait : Text) : Impl :=
  ⟨id, [[⟨bound, .param 0, []⟩]], ⟨trait, .param 0, []⟩⟩

theorem varFree_blanket (id bound trait : Text) : (blanket id bound trait).VarFree := by
  simp [blanket, Impl.VarFree, Reference.VarFree, Reference.types]

theorem wellFormed_blanket (id : Text) (hbound : sig.params bound = 0)
    (htrait : sig.params trait = 0) : (blanket id bound trait).WellFormed sig := by
  have hself : (Ty.param 0).WellFormed sig 1 :=
    ⟨⟨by simp, Ty.inScope_param.mpr (by decide)⟩, by simp [Ty.Fits]⟩
  have href : ∀ t, sig.params t = 0 → Reference.WellFormed sig 1 ⟨t, .param 0, []⟩ :=
    fun t ht => ⟨by simpa [Reference.types] using hself, ht.symm⟩
  exact ⟨href trait htrait, by simpa [blanket] using href bound hbound⟩

theorem subst_param_zero (trait : Text) {t : Ty} (ht : t.NotParam) :
    Reference.subst [t] ⟨trait, .param 0, []⟩ = .ok ⟨trait, t, []⟩ := by
  have hself : (Ty.param 0).subst [t] = .ok t := by
    rw [Ty.subst]
    exact Ty.replacement_eq_ok.mpr ⟨by decide, rfl, ht⟩
  exact Reference.subst_eq_ok.mpr ⟨rfl, hself, rfl⟩

/-- An obligation for a trait without parameters, as it may arise in a search whose depths have no
limit. -/
structure Demanded (sig : Signature) (trait : Text) (env : Env) (o : Obligation) : Prop where
  typed : env.Typed sig
  admits : env.AdmitsRef sig o.trait
  id_eq : o.trait.id = trait
  unary : sig.params trait = 0
  depth_lt : o.depth < Number.signedLimit

/-- No type has arguments, and no trait has parameters. -/
def plain : Signature :=
  ⟨fun _ => 0, fun _ => 0⟩

/-- A trait can be demanded of every type without arguments. -/
theorem demanded_con (henv : env.Typed plain) (id trait : Text) (c : String) :
    Demanded plain trait env (.topLevel id ⟨trait, .con c [], []⟩) := by
  have hself : env.Admits plain (.con c []) := Env.admits_con.mpr ⟨rfl, by simp⟩
  have hdepth : (0 : Int) < Number.signedLimit := by decide
  exact ⟨henv, ⟨by simpa [Obligation.topLevel, Reference.types] using hself, rfl⟩, rfl, rfl, hdepth⟩

theorem Demanded.ref_eq (h : Demanded sig trait env o) (σ : Assignment) :
    σ.ref o.trait = ⟨trait, σ.type o.trait.self, []⟩ := by
  have hparams : o.trait.params = [] := by
    rw [← List.length_eq_zero_iff, h.admits.length_params, h.id_eq, h.unary]
  simp [Assignment.ref, Reference.replaceVars, h.id_eq, hparams, Assignment.type]

theorem depthBelow_lt {depth : Int} (h : depth < Number.signedLimit) :
    Obligation.depthBelow depth < Number.signedLimit := by
  unfold Obligation.depthBelow
  split
  · decide
  · omega

/-- Nothing lies beyond the greatest number. -/
theorem Demanded.not_beyond (h : Demanded sig trait env o)
    (hlimit : Number.signedLimit ≤ maxDepth + 1) : beyond maxDepth o = false := by
  have hdepth := h.depth_lt
  simp only [beyond, decide_eq_false_iff_not]
  omega

/-- Such an impl applies to every obligation for its trait, and demands its bound of the same
type. -/
theorem Demanded.step (h : Demanded sig trait env o) (id : Text) (hbound : sig.params bound = 0) :
    ∃ vars bounds x left, (apply (blanket id bound trait) o).Returns env (some vars) left ∧
      (blanket id bound trait).boundsWith vars = .ok bounds ∧ o.nestedAll bounds = [x] ∧
      Demanded sig bound left x := by
  have hvarFree := varFree_blanket id bound trait
  have hcovers : env.CoversRef o.trait := fun t ht => (h.admits.types t ht).covers
  obtain ⟨vars?, left, happly, htyped, hvars⟩ | ⟨e, -, himpossible⟩ := safe_iff.mp
    (safe_apply (E := fun _ => False) h.typed (wellFormed_blanket id hbound h.unary) h.id_eq.symm
      h.admits)
  · cases vars? with
    | none =>
        -- with the self type for its parameter, the impl is one of what is demanded
        obtain ⟨σ, hσ⟩ := h.typed.valid.exists_solves
        have hself : (σ.type o.trait.self).Ground := σ.ground_type
          (h.admits.types o.trait.self (by simp [Reference.types])).paramFree
        have hinstance : (blanket id bound trait).Implements [σ.type o.trait.self]
            (σ.ref o.trait) := by
          refine ⟨rfl, by simpa using hself, ?_⟩
          rw [h.ref_eq σ]
          exact subst_param_zero trait hself.notParam
        have hnone := not_implements_of_returns h.typed.valid hvarFree hcovers happly hσ
        exact absurd hinstance (hnone _)
    | some vars =>
        have happlied := applied_of_returns h.typed.valid hvarFree h.id_eq.symm hcovers happly
        obtain rfl : vars = [.var ⟨env.count, 0⟩] := happlied.vars_eq
        have hnotParam : (Ty.var ⟨env.count, 0⟩).NotParam := by simp [Ty.NotParam]
        have hbounds : (blanket id bound trait).boundsWith [.var ⟨env.count, 0⟩] =
            .ok [⟨bound, .var ⟨env.count, 0⟩, []⟩] := by
          simp [Impl.boundsWith, blanket, subst_param_zero bound hnotParam]
        obtain ⟨-, hadmits⟩ := hvars _ rfl
        refine ⟨_, _, _, left, happly, hbounds, rfl, htyped, ⟨?_, hbound.symm⟩, rfl, hbound,
          depthBelow_lt h.depth_lt⟩
        simpa [Obligation.nested, Reference.types] using hadmits
  · exact himpossible.elim

/-- The one impl of a trait is confirmed for an obligation it applies to. -/
theorem returns_settle_of_implsOf {speculate : List Obligation → Engine Resolution} {impl : Impl}
    {vars : List Ty} {bounds : List Reference} {left : Env} (hs : ∀ os, (speculate os).Grows)
    (hdepth : beyond maxDepth o = false) (himpls : program.implsOf o.trait.id = [impl])
    (happly : (apply impl o).Returns env (some vars) left)
    (hbounds : impl.boundsWith vars = .ok bounds) :
    (settle maxDepth program speculate o).Returns env
      (.ofConfirmed ⟨o, impl, vars⟩, o.nestedAll bounds) left := by
  have hunifies : (unifies o impl).Returns env true env :=
    returns_unifies.mpr ⟨⟨some vars, left, happly, rfl⟩, rfl⟩
  have hunifiable : unifiable program o env = [impl] := by
    simp [unifiable, himpls, verdict_eq hunifies]
  have hcandidates : (candidates program speculate o).Returns env [impl] env := by
    refine (returns_candidates hs).mpr ⟨⟨?_, ?_, ?_⟩, rfl⟩
    · rw [himpls, List.forall_mem_singleton]
      exact ⟨true, hunifies⟩
    · simp [hunifiable]
    · simp [contenders, hunifiable]
  exact (returns_settle hs).mpr (.decided hdepth hcandidates (.confirmed happly hbounds))

/-- Where the only impl of a trait has the trait itself as its bound, what is demanded of the trait
arises again in every generation, however many there are. -/
theorem neverReturns_resolveWithin (hlimit : Number.signedLimit ≤ maxDepth + 1)
    (himpls : program.implsOf trait = [blanket id trait trait]) (n : Nat)
    (h : Demanded sig trait env o) : NeverReturns (resolveWithin maxDepth program n [o]) env := by
  induction n generalizing env o with
  | zero =>
      have hfail : resolveWithin maxDepth program 0 [o] = fail .endless := by
        simp [resolveWithin, h.not_beyond hlimit]
      rw [hfail]
      exact ⟨_, rfl, rfl⟩
  | succ n ih =>
      obtain ⟨vars, bounds, x, mid, happly, hbounds, hnested, hx⟩ := h.step id h.unary
      have hsettle : (settle maxDepth program (resolveWithin maxDepth program n) o).Returns env
          (.ofConfirmed ⟨o, blanket id trait trait, vars⟩, [x]) mid := by
        rw [← hnested]
        exact returns_settle_of_implsOf (grows_resolveWithin maxDepth program n)
          (h.not_beyond hlimit) (h.id_eq.symm ▸ himpls) happly hbounds
      rw [resolveWithin_cons_succ, settleAll_singleton]
      exact GivesUpFor.after ((ih hx).bind _) hsettle

/-- An impl cannot be weighed if the resolution of its bound never returns. -/
theorem Demanded.neverReturns_weigh {speculate : List Obligation → Engine Resolution}
    (h : Demanded sig trait env o) (id : Text) (hbound : sig.params bound = 0)
    (hspeculate : ∀ {x mid}, Demanded sig bound mid x → NeverReturns (speculate [x]) mid) :
    NeverReturns (weigh speculate o (blanket id bound trait)) env := by
  obtain ⟨vars, bounds, x, mid, happly, hbounds, hnested, hx⟩ := h.step id hbound
  have hboundsOf : (boundsOf o (blanket id bound trait) vars).Returns mid [x] mid :=
    returns_boundsOf.mpr ⟨⟨bounds, hbounds, hnested.symm⟩, rfl⟩
  refine GivesUpFor.after ?_ happly
  refine GivesUpFor.after ?_ hboundsOf
  exact (hspeculate hx).bind _

end Solver

end TraitResolution
