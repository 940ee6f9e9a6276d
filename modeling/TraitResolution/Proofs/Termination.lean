import TraitResolution.Proofs.CallSearch
import TraitResolution.Proofs.CallTyping
import TraitResolution.Proofs.Endlessness
import TraitResolution.Proofs.InternalChecks

/-!
# Resolution always ends

Impls may have bounds that lead back to themselves or to ever larger types, and a type may
dereference to itself. Resolutions, coherence checks and method calls end nevertheless, as long as
there is a greatest depth: a queue of obligations runs empty with everything that is tried out for
it, a coherence check makes one comparison for each pair of impls, and a method call dereferences
its receiver no more often than it is allowed to. Each of them rests on unification, which goes down
to the end in every environment that they come to.
-/

namespace TraitResolution

namespace Engine

open Operation

variable {α : Type} {env : Env}

/-- What is done with a list of candidates for a selection, with the selection from the rest as a
parameter. -/
def selectFirst (p : α → Engine Bool) (again : List α → Engine (List α)) :
    List α → Engine (List α)
  | [] => pure []
  | a :: as => do
    let keep ← p a
    let rest ← again as
    pure (if keep then a :: rest else rest)

theorem terminates_select {p : α → Engine Bool} (hp : ∀ a {env}, (p a).Idle env) (l : List α)
    (henv : env.Consistent) :
    Terminates Env.Consistent (selectFirst p) (select p) l env := by
  induction l generalizing env with
  | nil => exact .unfold henv (fun _ _ => False) (fun _ _ h => h.elim) fun _ _ => rfl
  | cons a as ih =>
      apply Terminates.unfold henv fun l mid => l = as ∧ mid.Consistent
      · rintro l mid ⟨rfl, hmid⟩
        exact ih hmid
      · intro y hy
        apply bind_run_congr
        intro keep mid hkeep
        obtain rfl : mid = env := hkeep.2.symm.trans (hp a)
        exact bind_run_congr_left _ (hy as mid ⟨rfl, henv⟩)

end Engine

namespace Coherence

open Operation Engine

/-- Two impls are compared in an environment of their own. -/
theorem idle_conflicting (config : Config) (program : Program) (p : Impl × Impl) {env : Env} :
    (conflicting config program p).Idle env := by
  have hisolated : (isolated (overlap config program p.1 p.2)).Idle env := rfl
  exact hisolated.bind fun _ => ((idle_report _).bind fun _ => idle_pure _).ite (idle_pure _)

end Coherence

namespace MethodCall

open Operation Engine Relation

namespace Lookup

variable {cx : Lookup} {env : Env} {place : Place}

/-- What a search does at a place, with the search from the place behind it as a parameter. -/
def visit (cx : Lookup) (again : Place → Engine MethodResult) (place : Place) :
    Engine MethodResult :=
  cx.choose place <|
    if cx.config.maxAutoderef ≤ place.derefs then do
      report (.autoderefLimit cx.name place)
      pure (.cannotDeref place.type)
    else
      cx.deref place again

/-- The search from a place that was dereferenced a number of times already. -/
def searchFrom (cx : Lookup) (place : Place) : Engine MethodResult :=
  cx.search (cx.config.maxAutoderef.toNat - place.derefs) place

/-- What is done at a place where nothing could provide the method is all that matters of it. -/
theorem choose_run_congr {x y : Engine MethodResult} (h : x.run env = y.run env) :
    (cx.choose place x).run env = (cx.choose place y).run env := by
  apply bind_run_congr
  intro found mid hfound
  obtain rfl : mid = env :=
    hfound.2.symm.trans (idle_select (fun d => cx.idle_couldApply place d) _)
  rcases found with _ | ⟨d, _ | ⟨other, found⟩⟩
  · exact h
  · rfl
  · rfl

theorem deref_run_congr {next next' : Place → Engine MethodResult} (henv : env.Consistent)
    (h : ∀ p mid, p.derefs = place.derefs + 1 ∧ mid.Consistent →
      (next p).run mid = (next' p).run mid) :
    (cx.deref place next).run env = (cx.deref place next').run env := by
  apply bind_run_congr
  intro v mid hv
  have hmid : mid.Consistent := hv.2 ▸ henv.created
  apply bind_run_congr
  intro r left hr
  have hleft : left.Consistent := hr.2 ▸ (Solver.upholds_consistency _ _ _ hmid).kept
  split
  · exact bind_run_congr fun {_ later} hlater => by
      obtain rfl : later = left := hlater.2.symm
      exact h _ later ⟨rfl, hleft⟩
  · rfl

/-- A search goes from place to place until the limit is reached. -/
theorem terminates_search (cx : Lookup) (place : Place) (henv : env.Consistent) :
    Terminates Env.Consistent cx.visit cx.searchFrom place env := by
  -- over the number of dereferences that are left
  induction hn : cx.config.maxAutoderef.toNat - place.derefs generalizing place env with
  | zero =>
      have hlimit : cx.config.maxAutoderef ≤ place.derefs := by omega
      apply Terminates.unfold henv fun _ _ => False
      · exact fun _ _ h => h.elim
      · intro y _
        rw [visit, if_pos hlimit, searchFrom, hn]
        rfl
  | succ n ih =>
      have hlimit : ¬cx.config.maxAutoderef ≤ place.derefs := by omega
      apply Terminates.unfold henv fun p mid => p.derefs = place.derefs + 1 ∧ mid.Consistent
      · rintro p mid ⟨hderefs, hmid⟩
        exact ih p hmid (by omega)
      · intro y hy
        rw [visit, if_neg hlimit, searchFrom, hn, search]
        apply choose_run_congr
        apply deref_run_congr henv
        intro p mid hp
        have hsearch : cx.searchFrom p = cx.search n p := by
          rw [searchFrom]
          congr 1
          omega
        rw [hy p mid hp, hsearch]

/-- On its way a search makes one dereference after the other. -/
theorem derefs_of_way {p q : Point} (h : ReflTransGen cx.Goes p q) :
    q.place.derefs + q.limit = p.place.derefs + p.limit := by
  induction h with
  | refl => rfl
  | tail _ hgoes ih =>
      cases hgoes with
      | deref _ _ _ =>
          simp only [Place.derefs] at ih ⊢
          omega

end Lookup

end MethodCall

open Operation Engine MethodCall Relation

/-- With a greatest depth, resolution ends for every program, in every environment that clients come
to. Obligations of whatever depths are resolved as by a queue, and the queue runs empty with all
that is tried out; every loop that handles the queue in this way does the same. Unification goes
down to the end in all environments met on the way. A coherence check ends, and so does a method
call, which dereferences its receiver no more often than allowed. None of them is given up as
endless. -/
theorem resolution_terminates {config : Config} (program : Program)
    (hlimit : config.maxDepth + 1 < Number.signedLimit) {env : Env} (henv : env.Attained) :
    (∀ os,
      Terminates Env.Consistent (Solver.round config.maxDepth program)
        (Solver.resolve config program) os env ∧
      (∀ loop : List Obligation → Engine Resolution,
        (∀ os env, (loop os).run env = (Solver.round config.maxDepth program loop os).run env) →
          (loop os).run env = (Solver.resolve config program os).run env) ∧
      Concludes (Solver.resolve config program os)) ∧
    (∀ a b mid, mid.Consistent → Terminates Env.Consistent unifyRoots unifyPair (a, b) mid) ∧
    ((∀ pairs, Terminates Env.Consistent (selectFirst (Coherence.conflicting config program))
        (select (Coherence.conflicting config program)) pairs env) ∧
      Concludes (Coherence.check config program)) ∧
    ∀ receiver traits name,
      let cx : Lookup := ⟨config, program, declaring traits name, name⟩
      Terminates Env.Consistent cx.visit cx.searchFrom (.receiver receiver) env ∧
      MethodCall.resolve config program receiver traits name =
        cx.searchFrom (.receiver receiver) ∧
      Concludes (MethodCall.resolve config program receiver traits name) ∧
      ∀ p, ReflTransGen cx.Goes ⟨env, .receiver receiver, config.maxAutoderef.toNat⟩ p →
        p.place.derefs ≤ max 0 config.maxAutoderef := by
  have hconsistent : env.Consistent := henv.consistent
  refine ⟨fun os => ?_, fun a b mid hmid => terminates_unify hmid a b, ⟨fun pairs => ?_, ?_⟩,
    fun receiver traits name => ?_⟩
  · have hends : Terminates Env.Consistent (Solver.round config.maxDepth program)
        (Solver.resolve config program) os env := Solver.terminates_resolve hlimit os hconsistent
    exact ⟨hends, fun loop hloop => hends.run_eq hloop, Solver.concludes_resolve program hlimit os⟩
  · exact terminates_select (fun p _ => Coherence.idle_conflicting config program p) pairs
      hconsistent
  · exact Coherence.concludes_check program hlimit
  · refine ⟨Lookup.terminates_search _ _ hconsistent, rfl,
      MethodCall.concludes_resolve program hlimit receiver traits name, fun p hway => ?_⟩
    have hderefs := Lookup.derefs_of_way hway
    simp only [Place.derefs] at hderefs
    omega

/-- A type that dereferences to itself. -/
def looping : Program :=
  ⟨[pushing], [⟨"DerefLoop", [], ⟨"Deref", .con "Loop" [], [.con "Loop" []]⟩⟩]⟩

/-- Impls that lead to ever larger types are left at the greatest depth, and a type that
dereferences to itself is dereferenced twice when that is the limit. -/
theorem resolution_terminates_looping :
    (∃ r left, (Solver.resolve .default Solver.growing Solver.shownAndHashed).Returns
      Env.empty.created r left) ∧
    Terminates Env.Consistent (Solver.round 4 Solver.growing)
      (Solver.resolve .default Solver.growing) Solver.shownAndHashed Env.empty.created ∧
    (∃ t left, (MethodCall.resolve ⟨4, 2⟩ looping (.con "Loop" []) [pushing] "push").Returns
      .empty (.cannotDeref t) left) ∧
    ∀ p, ReflTransGen
        (Lookup.Goes ⟨⟨4, 2⟩, looping, declaring [pushing] "push", "push"⟩)
        ⟨.empty, .receiver (.con "Loop" []), 2⟩ p → p.place.derefs ≤ 2 := by
  have hcreated : Env.Attained Env.empty.created := .run .empty .fresh
  obtain ⟨hqueue, -, -, -⟩ :=
    @resolution_terminates .default Solver.growing (by decide) _ hcreated
  obtain ⟨-, -, -, hcall⟩ := @resolution_terminates ⟨4, 2⟩ looping (by decide) _ .empty
  obtain ⟨-, -, -, hderefs⟩ := hcall (.con "Loop" []) [pushing] "push"
  have hresolve : ∃ r left, (Solver.resolve .default Solver.growing Solver.shownAndHashed).Returns
      Env.empty.created r left := ⟨_, _, rfl, rfl⟩
  have hsearch : ∃ t left,
      (MethodCall.resolve ⟨4, 2⟩ looping (.con "Loop" []) [pushing] "push").Returns
        .empty (.cannotDeref t) left := ⟨_, _, rfl, rfl⟩
  refine ⟨hresolve, (hqueue Solver.shownAndHashed).1, hsearch, fun p hway => ?_⟩
  exact Int.ofNat_le.mp (hderefs p hway)

end TraitResolution
