import TraitResolution.Proofs.Strands

/-!
# Strands keep in step

Unification and the application of impls do the same for types of a whole run as for the types that
stand for the same in the run on a strand alone.

## Implementation notes

The whole run leads: what it returns, the run alone returns as well. So nothing is said where the
whole run gives up. There is one rule for each way to put operations together, and then one lemma
for each operation.
-/

namespace TraitResolution

namespace Strand

open Operation Engine

variable {p : Strand} {env left : Env} {s t a a' b b' : Ty} {v w : Var}

/-- What the whole run returns, the run alone returns as well. If it is `true`, the strand has moved
on in both runs. -/
def Follows (p : Strand) (env : Env) (alone whole : Engine Bool) : Prop :=
  ∀ r left, whole.Returns env r left →
    ∃ solo, alone.Returns p.solo r solo ∧ (r = true → p.Acts env (p.moved solo) left)

section Rules

variable {x x' y y' : Engine Bool}

theorem follows_pure (h : p.Of env) (r : Bool) : p.Follows env (pure r) (pure r) := by
  intro r left hreturns
  obtain ⟨rfl, rfl⟩ := returns_pure.mp hreturns
  exact ⟨p.solo, returns_pure.mpr ⟨rfl, rfl⟩, fun _ => acts_refl h⟩

theorem follows_fail (x : Engine Bool) (cause : Cause) : p.Follows env x (fail cause) :=
  fun _ _ hreturns => absurd hreturns not_returns_fail

theorem Follows.ite {c c' : Prop} [Decidable c] [Decidable c'] (hc : c ↔ c')
    (hx : c → p.Follows env x x') (hy : ¬c → p.Follows env y y') :
    p.Follows env (if c then x else y) (if c' then x' else y') := by
  by_cases h : c
  · rw [if_pos h, if_pos (hc.mp h)]
    exact hx h
  · rw [if_neg h, if_neg fun h' => h (hc.mpr h')]
    exact hy h

theorem Follows.present {f f' : Env → Engine Bool} (h : p.Follows env (f p.solo) (f' env)) :
    p.Follows env (present >>= f) (present >>= f') := by
  intro r left hreturns
  simp only [returns_bind, returns_present] at hreturns
  obtain ⟨_, _, ⟨rfl, rfl⟩, hreturns⟩ := hreturns
  obtain ⟨solo, hsolo, hacts⟩ := h r left hreturns
  exact ⟨solo, returns_bind.mpr ⟨p.solo, p.solo, returns_present.mpr ⟨rfl, rfl⟩, hsolo⟩, hacts⟩

theorem Follows.report {event event' : Event} (h : p.Follows env x x') :
    p.Follows env (report event >>= fun _ => x) (report event' >>= fun _ => x') := by
  intro r left hreturns
  obtain ⟨solo, hsolo, hacts⟩ := h r left (returns_report_bind.mp hreturns)
  exact ⟨solo, returns_report_bind.mpr hsolo, hacts⟩

theorem Follows.attempt (hx : x.Grows) (hx' : x'.Grows) (h : p.Follows env x x') :
    p.Follows env (attempt x) (attempt x') := by
  intro r left hreturns
  cases r with
  | true =>
      obtain ⟨solo, hsolo, hacts⟩ := h true left ((returns_attempt_true hx').mp hreturns)
      exact ⟨solo, (returns_attempt_true hx).mpr hsolo, hacts⟩
  | false =>
      obtain ⟨⟨gone, hgone⟩, rfl⟩ := (returns_attempt_false hx').mp hreturns
      obtain ⟨solo, hsolo, -⟩ := h false gone hgone
      exact ⟨p.solo, (returns_attempt_false hx).mpr ⟨⟨solo, hsolo⟩, rfl⟩, nofun⟩

/-- The second step is made from wherever the first one has led. -/
theorem Follows.andThen (henv : env.Valid) (hx : p.Follows env x x')
    (hy : ∀ {solo left}, p.Acts env (p.moved solo) left → (p.moved solo).Follows left y y') :
    p.Follows env (x >>= fun r => if r then y else pure false)
      (x' >>= fun r => if r then y' else pure false) := by
  intro r left hreturns
  obtain ⟨first, mid, hfirst, hreturns⟩ := returns_bind.mp hreturns
  obtain ⟨solo, hsolo, hacts⟩ := hx first mid hfirst
  cases first with
  | false =>
      obtain ⟨rfl, rfl⟩ := returns_pure.mp hreturns
      exact ⟨solo, returns_bind.mpr ⟨false, solo, hsolo, returns_pure.mpr ⟨rfl, rfl⟩⟩, nofun⟩
  | true =>
      obtain ⟨last, hlast, hacts'⟩ := hy (hacts rfl) r left hreturns
      exact ⟨last, returns_bind.mpr ⟨true, solo, hsolo, hlast⟩,
        fun hr => (hacts rfl).trans (hacts' hr) henv⟩

end Rules

theorem follows_bindVar (h : p.Of env) (hv : p.Open env v) (hst : p.Shows env s t)
    (hocc : v ∉ (p.solo.resolve s).vars) (holder : ∀ w, s = .var w → w.index < v.index)
    (holder' : ∀ w, t = .var w → w.index < (v.renamed p.index).index) :
    p.Follows env (bindVar v s >>= fun _ => pure true)
      (bindVar (v.renamed p.index) t >>= fun _ => pure true) := by
  intro r left hreturns
  simp only [returns_bind, returns_bindVar, returns_pure] at hreturns
  obtain ⟨_, _, ⟨-, hparams, rfl⟩, rfl, rfl⟩ := hreturns
  have hparams' : p.solo.hasParams s = false := by
    rw [Env.hasParams, hst.resolve_eq, Ty.hasParams_renamed] at hparams
    exact hparams
  refine ⟨p.solo.bound v s, ?_, fun _ => acts_bound h hv hst hparams' hocc holder holder'⟩
  exact returns_bind.mpr ⟨(), _, returns_bindVar.mpr ⟨hv.unbound_solo, hparams', rfl⟩,
    returns_pure.mpr ⟨rfl, rfl⟩⟩

theorem follows_unifyVars (h : p.Of env) (hv : p.Open env v) (hw : p.Open env w) :
    p.Follows env (unifyVars v w) (unifyVars (v.renamed p.index) (w.renamed p.index)) := by
  have hvars : ∀ {x}, p.Open env x → (p.solo.resolve (.var x)).vars = [x] := by
    intro x hx
    rw [Env.resolve_of_unbound hx.unbound_solo, Ty.vars_var]
  refine Follows.ite (Var.renamed_injective h.mono).eq_iff.symm (fun _ => follows_pure h true)
    fun hne => Follows.ite h.mono.lt_iff_lt.symm (fun hlt => ?_) fun hge => ?_
  · refine follows_bindVar h hw hv.shows ?_ ?_ ?_
    · rw [hvars hv, List.mem_singleton]
      exact Ne.symm hne
    · rintro x ⟨⟩
      exact hlt
    · rintro x ⟨⟩
      exact h.mono hlt
  · -- two variables of one index are the same
    have hlt : w.index < v.index := by
      have hgenV := (hv.shows.covers_solo v (by simp)).2
      have hgenW := (hw.shows.covers_solo w (by simp)).2
      have hindex : v.index ≠ w.index := by
        intro heq
        cases v
        cases w
        simp_all
      omega
    refine follows_bindVar h hv hw.shows ?_ ?_ ?_
    · rw [hvars hw, List.mem_singleton]
      exact hne
    · rintro x ⟨⟩
      exact hlt
    · rintro x ⟨⟩
      exact h.mono hlt

theorem follows_unifyVarCon {id : String} {xs ys : List Ty} (h : p.Of env) (hv : p.Open env v)
    (hst : p.Shows env (.con id xs) (.con id ys)) :
    p.Follows env (unifyVarCon v (.con id xs)) (unifyVarCon (v.renamed p.index) (.con id ys)) := by
  have hocc : p.solo.occurs v (.con id xs) = true ↔
      env.occurs (v.renamed p.index) (.con id ys) = true := by
    simp only [Env.occurs, List.contains_iff_mem, hst.resolve_eq, Ty.vars_renamed,
      List.mem_map_of_injective (Var.renamed_injective h.mono)]
  refine Follows.present (Follows.ite hocc (fun _ => (follows_pure h false).report) fun hnot => ?_)
  refine follows_bindVar h hv hst ?_ ?_ ?_
  · simpa [Env.occurs] using hnot
  · rintro w ⟨⟩
  · rintro w ⟨⟩

theorem follows_allM {step : Ty × Ty → Engine Bool}
    (hstep : ∀ {p env a a' b b'}, Of p env → p.Shows env a a' → p.Shows env b b' →
      p.Follows env (step (a, b)) (step (a', b')))
    {as as' bs bs' : List Ty} (h : p.Of env) (has : List.Forall₂ (p.Shows env) as as')
    (hbs : List.Forall₂ (p.Shows env) bs bs') :
    p.Follows env ((as.zip bs).allM step) ((as'.zip bs').allM step) := by
  induction as generalizing p env as' bs bs' with
  | nil =>
      cases has
      exact follows_pure h true
  | cons a as ih =>
      obtain ⟨a', as', ha, htail, rfl⟩ := List.forall₂_cons_left_iff.mp has
      cases hbs with
      | nil => exact follows_pure h true
      | cons hb hbs =>
          rw [List.zip_cons_cons, List.zip_cons_cons, allM_cons, allM_cons]
          refine (hstep h ha hb).andThen h.whole fun hacts => ?_
          exact ih hacts.of (htail.imp fun _ _ hs => hacts.shows hs)
            (hbs.imp fun _ _ hs => hacts.shows hs)

/-- Unification through the same number of levels keeps in step. -/
theorem follows_unifyWithin (n : Nat) (h : p.Of env) (ha : p.Shows env a a')
    (hb : p.Shows env b b') : p.Follows env (unifyWithin n a b) (unifyWithin n a' b') := by
  induction n generalizing p env a a' b b' with
  | zero => exact follows_pure h false
  | succ n ih =>
      rw [unifyWithin, unifyWithin]
      apply Follows.present
      have hrootA := ha.shallow h
      have hrootB := hb.shallow h
      have hrootsA := ha.roots h
      have hrootsB := hb.roots h
      generalize p.solo.shallow a = x at hrootA hrootsA
      generalize env.shallow a' = x' at hrootA hrootsA
      generalize p.solo.shallow b = y at hrootB hrootsB
      generalize env.shallow b' = y' at hrootB hrootsB
      cases hrootsA with
      | param i => cases hrootsB <;> exact follows_fail _ _
      | var hv =>
          cases hrootsB with
          | param i => exact follows_fail _ _
          | var hw => exact follows_unifyVars h hv hw
          | con g hys => exact follows_unifyVarCon h hv hrootB
      | con f hxs =>
          cases hrootsB with
          | param i => exact follows_fail _ _
          | var hw => exact follows_unifyVarCon h hw hrootA
          | con g hys =>
              refine Follows.ite Iff.rfl (fun _ => follows_pure h false) fun _ =>
                Follows.ite ?_ (fun _ => follows_fail _ _) fun _ => ?_
              · rw [hxs.length_eq, hys.length_eq]
              · exact (follows_allM ih h hxs hys).attempt (grows_unifyArgs n _)
                  (grows_unifyArgs n _)

theorem follows_unify (h : p.Of env) (ha : p.Shows env a a') (hb : p.Shows env b b') :
    p.Follows env (unify a b) (unify a' b') := by
  intro r left hreturns
  -- the two runs may go down a different number of levels, but more of them make no difference
  let levels := max (p.solo.unifyBound a b) (env.unifyBound a' b')
  have hwhole : (unifyWithin levels a' b').Returns env r left :=
    (returns_unify_iff h.whole.toConsistent (Nat.le_max_right _ _)).mp hreturns
  obtain ⟨solo, hsolo, hacts⟩ := follows_unifyWithin levels h ha hb r left hwhole
  exact ⟨solo, (returns_unify_iff h.solo.toConsistent (Nat.le_max_left _ _)).mpr hsolo, hacts⟩

theorem follows_unifyAll {as as' bs bs' : List Ty} (h : p.Of env)
    (has : List.Forall₂ (p.Shows env) as as') (hbs : List.Forall₂ (p.Shows env) bs bs') :
    p.Follows env (unifyAll as bs) (unifyAll as' bs') := by
  refine Follows.ite ?_ (fun _ => follows_fail _ _) fun _ => ?_
  · rw [has.length_eq, hbs.length_eq]
  · exact (follows_allM follows_unify h has hbs).attempt (grows_unifyZip _) (grows_unifyZip _)

/-- References of the same trait whose types stand for the same. -/
structure ShowsRef (p : Strand) (env : Env) (r r' : Reference) : Prop where
  id_eq : r'.id = r.id
  types : List.Forall₂ (p.Shows env) r.types r'.types

theorem ShowsRef.mono {q : Strand} {r r' : Reference} (h : p.ShowsRef env r r')
    (hbecomes : p.Becomes env q left) : q.ShowsRef left r r' :=
  ⟨h.id_eq, h.types.imp fun _ _ hs => hbecomes.shows hs⟩

theorem follows_unifyReferences {r r' u u' : Reference} (h : p.Of env) (hr : p.ShowsRef env r r')
    (hu : p.ShowsRef env u u') : p.Follows env (unifyReferences r u) (unifyReferences r' u') := by
  obtain ⟨hself, hparams⟩ := List.forall₂_cons.mp hr.types
  obtain ⟨hself', hparams'⟩ := List.forall₂_cons.mp hu.types
  refine Follows.ite ?_ (fun _ => follows_fail _ _) fun _ => ?_
  · rw [hparams.length_eq, hparams'.length_eq]
  · refine Follows.attempt (grows_unifyParts r u) (grows_unifyParts r' u') ?_
    refine (follows_unify h hself hself').andThen h.whole fun hacts => ?_
    exact follows_unifyAll hacts.of (hparams.imp fun _ _ hs => hacts.shows hs)
      (hparams'.imp fun _ _ hs => hacts.shows hs)

section Apply

variable {n : Nat}

/-- The strand after `n` variables were created for it in both runs. -/
def grown (p : Strand) (env : Env) (n : Nat) : Strand where
  solo := p.solo.grown n
  index i := if i < p.solo.count then p.index i else env.count + (i - p.solo.count)
  root := p.root
  own v := p.own v ∨ (env.grown n).Live v ∧ ¬env.Live v

theorem strictMono_index_grown (h : p.Of env) (n : Nat) : StrictMono (p.grown env n).index := by
  intro i j hij
  simp only [grown]
  split
  · rename_i hi
    split
    · exact h.mono hij
    · have hbelow := h.below i hi
      omega
  · rename_i hi
    rw [if_neg (by omega)]
    omega

theorem acts_grown (h : p.Of env) (n : Nat) : p.Acts env (p.grown env n) (env.grown n) where
  of := by
    refine ⟨h.solo.grown n, h.whole.grown n, strictMono_index_grown h n, fun i hi => ?_, ?_⟩
    · have hi' : i < p.solo.count + n := hi
      change (if i < p.solo.count then _ else _) < env.count + n
      split
      · rename_i hlt
        have hbelow := h.below i hlt
        omega
      · omega
    · rintro v (hv | hv)
      · exact (env.extends_grown n).live (h.live hv)
      · exact hv.1
  extends_env := env.extends_grown n
  shows {s t} hst := by
    refine ⟨(p.solo.extends_grown n).covers hst.covers_solo,
      (env.extends_grown n).covers hst.covers, ?_, fun v hv => Or.inl (hst.own v ?_)⟩
    · change _ = ((p.solo.grown n).resolve s).renamed _
      rw [Env.resolve_grown, Env.resolve_grown, hst.resolve_eq]
      apply Ty.renamed_congr
      intro v hv
      exact (if_pos (h.solo.covers_resolve hst.covers_solo v hv).1).symm
    · rwa [Env.resolve_grown] at hv
  root_eq := rfl
  count_le := Nat.le_add_right _ _
  index_eq i hi := if_pos hi
  created i hi _ := by
    change env.count ≤ if i < p.solo.count then _ else _
    rw [if_neg (Nat.not_lt.mpr hi)]
    exact Nat.le_add_right _ _
  own hv := hv.imp_right fun hnew => hnew.2
  untouched _ _ := env.resolve_grown n _

/-- The variable of the run alone that was created with a new variable of the whole run. -/
def back (p : Strand) (env : Env) (v : Var) : Ty :=
  .var ⟨p.solo.count + (v.index - env.count), 0⟩

theorem map_back_nextVars (p : Strand) (env : Env) (n : Nat) :
    (env.nextVars n).map (Ty.replaceVars (p.back env)) = p.solo.nextVars n := by
  simp [Env.nextVars, back, Function.comp_def]

theorem shows_back (h : p.Of env) (hv : .var v ∈ env.nextVars n) :
    (p.grown env n).Shows (env.grown n) (p.back env v) (.var v) := by
  obtain ⟨i, hi, hvar⟩ := List.mem_map.mp hv
  obtain rfl : (⟨env.count + i, 0⟩ : Var) = v := Ty.var.inj hvar
  have hlt : i < n := List.mem_range.mp hi
  have hwhole : (env.grown n).resolve (.var ⟨env.count + i, 0⟩) = .var ⟨env.count + i, 0⟩ := by
    rw [Env.resolve_grown]
    exact Env.resolve_of_unbound (h.whole.value?_of_count_le (Nat.le_add_right _ _))
  have hsolo : (p.grown env n).solo.resolve (.var ⟨p.solo.count + i, 0⟩) =
      .var ⟨p.solo.count + i, 0⟩ := by
    change (p.solo.grown n).resolve _ = _
    rw [Env.resolve_grown]
    exact Env.resolve_of_unbound (h.solo.value?_of_count_le (Nat.le_add_right _ _))
  have hback : p.back env ⟨env.count + i, 0⟩ = .var ⟨p.solo.count + i, 0⟩ := by simp [back]
  rw [hback]
  refine ⟨?_, Env.covers_nextVars hv, ?_, ?_⟩
  · refine Env.covers_nextVars (List.mem_map.mpr ⟨i, hi, rfl⟩)
  · rw [hwhole, hsolo]
    simp [Ty.renamed, Var.renamed, grown]
  · intro w hw
    rw [hwhole, Ty.vars_var, List.mem_singleton] at hw
    subst hw
    refine Or.inr ⟨⟨Nat.add_lt_add_left hlt _, rfl⟩, fun hlive => ?_⟩
    exact absurd hlive.1 (Nat.not_lt.mpr (Nat.le_add_right _ _))

/-- Types stand for the same when their variables do. -/
theorem shows_replaceVars {f : Var → Ty} (h : ∀ v ∈ t.vars, p.Shows env (f v) (.var v)) :
    p.Shows env (t.replaceVars f) t := by
  refine ⟨fun w hw => ?_, fun v hv => (h v hv).covers v (by simp), ?_, fun w hw => ?_⟩
  · obtain ⟨v, hv, hw⟩ := Ty.mem_vars_replaceVars.mp hw
    exact (h v hv).covers_solo w hw
  · have hsolo : ∀ u, p.solo.resolve u = u.replaceVars p.solo.answer :=
      p.solo.resolve_eq_replaceVars
    rw [Env.resolve_eq_replaceVars, hsolo, Ty.replaceVars_replaceVars, Ty.renamed_replaceVars]
    apply Ty.replaceVars_congr
    intro v hv
    rw [← hsolo]
    exact (h v hv).resolve_eq
  · rw [Env.resolve_eq_replaceVars] at hw
    obtain ⟨v, hv, hw⟩ := Ty.mem_vars_replaceVars.mp hw
    exact (h v hv).own w hw

theorem showsRef_replaceVars {f : Var → Ty} {r : Reference}
    (h : ∀ t ∈ r.types, ∀ v ∈ t.vars, p.Shows env (f v) (.var v)) :
    p.ShowsRef env (r.replaceVars f) r := by
  refine ⟨rfl, ?_⟩
  have htypes : (r.replaceVars f).types = r.types.map (Ty.replaceVars f) := rfl
  rw [htypes, List.forall₂_map_left_iff, List.forall₂_same]
  exact fun t ht => shows_replaceVars (h t ht)

/-- What is written with new variables of the whole run is written with those of the run alone as
well. -/
theorem showsRef_subst (h : p.Of env) {r ref : Reference} (hr : r.VarFree)
    (hsubst : r.subst (env.nextVars n) = .ok ref) :
    r.subst (p.solo.nextVars n) = .ok (ref.replaceVars (p.back env)) ∧
      (p.grown env n).ShowsRef (env.grown n) (ref.replaceVars (p.back env)) ref := by
  have hnotParam : ∀ u ∈ env.nextVars n, (u.replaceVars (p.back env)).NotParam := by
    intro u hu i
    obtain ⟨j, -, rfl⟩ := List.mem_map.mp hu
    simp [back]
  refine ⟨?_, showsRef_replaceVars fun u hu v hv => shows_back h ?_⟩
  · rw [← map_back_nextVars p env n]
    exact Reference.subst_map_replaceVars hnotParam hr hsubst
  · rcases Reference.mem_vars_subst hsubst ⟨u, hu, hv⟩ with ⟨x, hx, hv⟩ | ⟨x, hx, hv⟩
    · simp [hr x hx] at hv
    · obtain ⟨i, hi, rfl⟩ := List.mem_map.mp hx
      rw [Ty.vars_var, List.mem_singleton] at hv
      exact hv ▸ hx

theorem showsRef_boundsWith {impl : Impl} {bounds : List Reference} (h : p.Of env)
    (himpl : impl.VarFree) (hbounds : impl.boundsWith (env.nextVars n) = .ok bounds) :
    impl.boundsWith (p.solo.nextVars n) = .ok (bounds.map (Reference.replaceVars (p.back env))) ∧
      List.Forall₂ ((p.grown env n).ShowsRef (env.grown n))
        (bounds.map (Reference.replaceVars (p.back env))) bounds := by
  constructor
  · exact mapM_map_of_ok (fun r hr _ href => (showsRef_subst h (himpl.2 r hr) href).1) hbounds
  · rw [List.forall₂_map_left_iff, List.forall₂_same]
    intro ref href
    obtain ⟨r, hr, hsubst⟩ := exists_of_mem_mapM hbounds href
    exact (showsRef_subst h (himpl.2 r hr) hsubst).2

variable {impl : Impl} {o o' : Obligation}

/-- An impl is applied or refused in the run alone as in the whole run. -/
theorem follows_apply (h : p.Of env) (himpl : impl.VarFree) (ho : p.ShowsRef env o.trait o'.trait)
    {vars? : Option (List Ty)} (happly : (Solver.apply impl o').Returns env vars? left) :
    ∃ solo, (Solver.apply impl o).Returns p.solo
        (if vars?.isSome then some (p.solo.nextVars impl.params.length) else none) solo ∧
      (vars?.isSome = true → (p.grown env impl.params.length).Acts (env.grown impl.params.length)
        ((p.grown env impl.params.length).moved solo) left) := by
  obtain ⟨ref, hsubst, hunify, -⟩ := Solver.returns_apply h.whole happly
  obtain ⟨hsubst', hshows⟩ := showsRef_subst h himpl.1 hsubst
  have hgrown := acts_grown h impl.params.length
  obtain ⟨solo, hsolo, hacts⟩ :=
    follows_unifyReferences hgrown.of hshows (ho.mono hgrown.toBecomes) _ _ hunify
  exact ⟨solo, Solver.apply_of_unifyReferences h.solo hsubst' hsolo, hacts⟩

/-- What an impl is applied with, and the bounds that it leads to, stand for the same in both
runs. -/
theorem follows_apply_some (h : p.Of env) (himpl : impl.VarFree)
    (ho : p.ShowsRef env o.trait o'.trait) {vars' : List Ty} {bounds' : List Reference}
    (happly : (Solver.apply impl o').Returns env (some vars') left)
    (hbounds' : impl.boundsWith vars' = .ok bounds') :
    ∃ q vars bounds, p.Acts env q left ∧ (Solver.apply impl o).Returns p.solo (some vars) q.solo ∧
      impl.boundsWith vars = .ok bounds ∧ List.Forall₂ (q.Shows left) vars vars' ∧
      List.Forall₂ (q.ShowsRef left) bounds bounds' := by
  obtain ⟨-, -, -, hvars⟩ := Solver.returns_apply h.whole happly
  obtain rfl := hvars vars' rfl
  obtain ⟨solo, hsolo, hacts⟩ := follows_apply h himpl ho happly
  obtain ⟨hbounds, hshows⟩ := showsRef_boundsWith h himpl hbounds'
  have hacts := hacts rfl
  refine ⟨_, _, _, (acts_grown h _).trans hacts h.whole, hsolo, hbounds, ?_,
    hshows.imp fun _ _ hs => hs.mono hacts.toBecomes⟩
  rw [← map_back_nextVars p env, List.forall₂_map_left_iff, List.forall₂_same]
  intro t ht
  obtain ⟨i, -, rfl⟩ := List.mem_map.mp ht
  exact hacts.shows (shows_back h ht)

end Apply

end Strand

end TraitResolution
