import Mathlib.Data.List.Forall2
import Mathlib.Order.Monotone.Basic
import TraitResolution.Proofs.Acyclicity
import TraitResolution.Proofs.Limits

/-!
# Strands of a run

A strand of a run is made of some of its obligations and of all that arises from these. It can be
followed beside the run, in a run on these obligations alone. The variables that the second run
creates have other indices in the first, but they come in the same order. Types of the two runs
stand for the same when they resolve to the same up to this renaming. A strand acts by binding
variables that belong to it and by creating new ones. Then what stood for the same still does, and
whatever avoids the variables of the strand is not touched.

## Implementation notes

A strand keeps the environment of the run on it alone. The relation between types of the two runs is
stated about resolved types and not about bindings, since the whole run may bind variables in
between that the strand never sees. Every step of the whole run only adds to the relation.
-/

namespace TraitResolution

/-- A variable under another index. -/
def Var.renamed (index : Nat → Nat) (v : Var) : Var :=
  ⟨index v.index, v.generation⟩

theorem Var.renamed_injective {index : Nat → Nat} (h : StrictMono index) :
    Function.Injective (Var.renamed index) := by
  rintro ⟨i, g⟩ ⟨j, g'⟩ heq
  simp only [renamed, Var.mk.injEq] at heq ⊢
  exact ⟨h.injective heq.1, heq.2⟩

namespace Ty

variable {index index' : Nat → Nat} {t : Ty}

/-- A type with its variables under other indices. -/
def renamed (index : Nat → Nat) (t : Ty) : Ty :=
  t.replaceVars fun v => .var (v.renamed index)

@[simp] theorem vars_renamed (index : Nat → Nat) (t : Ty) :
    (t.renamed index).vars = t.vars.map (Var.renamed index) := by
  induction t using induction with
  | con id args ih =>
      have hargs : args.flatMap (fun a => (a.renamed index).vars) =
          args.flatMap fun a => a.vars.map (Var.renamed index) :=
        List.flatMap_congr ih
      simpa [renamed, List.flatMap_map, List.map_flatMap] using hargs
  | param i => simp [renamed]
  | var v => simp [renamed]

@[simp] theorem hasParams_renamed (index : Nat → Nat) (t : Ty) :
    (t.renamed index).hasParams = t.hasParams := by
  rw [Bool.eq_iff_iff, renamed, hasParams_replaceVars]
  simp

@[simp] theorem renamed_id (t : Ty) : t.renamed id = t :=
  replaceVars_self t

theorem renamed_congr (h : ∀ v ∈ t.vars, index v.index = index' v.index) :
    t.renamed index = t.renamed index' := by
  apply replaceVars_congr
  intro v hv
  rw [Var.renamed, Var.renamed, h v hv]

theorem renamed_replaceVars (f : Var → Ty) (t : Ty) :
    (t.replaceVars f).renamed index = t.replaceVars fun v => (f v).renamed index :=
  replaceVars_replaceVars f _ t

theorem replaceVars_renamed (f : Var → Ty) (t : Ty) :
    (t.renamed index).replaceVars f = t.replaceVars fun v => f (v.renamed index) := by
  rw [renamed, replaceVars_replaceVars]
  simp

end Ty

/-- A strand of a run, followed beside it: the environment of a run on the strand alone, the indices
that the variables of this environment have in the whole run, the text with which the ids of the
whole run begin in addition, and the variables of the whole run that belong to the strand. -/
structure Strand where
  solo : Env
  index : Nat → Nat
  root : Text
  own : Var → Prop

namespace Strand

variable {p q : Strand} {env mid left : Env} {s t : Ty} {v : Var}

/-- The environment of the run alone has changed. -/
def moved (p : Strand) (solo : Env) : Strand :=
  { p with solo := solo }

/-- A strand of a run that has come to the environment `env`. -/
structure Of (p : Strand) (env : Env) : Prop where
  solo : p.solo.Valid
  whole : env.Valid
  mono : StrictMono p.index
  below : ∀ i < p.solo.count, p.index i < env.count
  live : ∀ {v}, p.own v → env.Live v

/-- The type `s` of the run alone stands for the same as the type `t` of the whole run, in which
only variables of the strand are open. -/
structure Shows (p : Strand) (env : Env) (s t : Ty) : Prop where
  covers_solo : p.solo.Covers s
  covers : env.Covers t
  resolve_eq : env.resolve t = (p.solo.resolve s).renamed p.index
  own : ∀ v ∈ (env.resolve t).vars, p.own v

/-- An open variable of the strand. -/
structure Open (p : Strand) (env : Env) (v : Var) : Prop where
  shows : p.Shows env (.var v) (.var (v.renamed p.index))
  unbound_solo : p.solo.value? v = none
  unbound : env.value? (v.renamed p.index) = none

/-- What a strand has become while the whole run went on. -/
structure Becomes (p : Strand) (env : Env) (q : Strand) (left : Env) : Prop where
  of : q.Of left
  extends_env : left.Extends env
  shows : ∀ {s t}, p.Shows env s t → q.Shows left s t
  root_eq : q.root = p.root
  count_le : p.solo.count ≤ q.solo.count
  index_eq : ∀ i < p.solo.count, q.index i = p.index i
  created : ∀ i, p.solo.count ≤ i → i < q.solo.count → env.count ≤ q.index i

/-- What a strand has become by steps of its own. Types without variables of the strand resolve to
the same as before, and only new variables were added to those of the strand. -/
structure Acts (p : Strand) (env : Env) (q : Strand) (left : Env) : Prop extends
    Becomes p env q left where
  own : ∀ {v}, q.own v → p.own v ∨ ¬env.Live v
  untouched : ∀ {t}, env.Covers t → (∀ v ∈ (env.resolve t).vars, ¬p.own v) →
    left.resolve t = env.resolve t

theorem becomes_refl (h : p.Of env) : p.Becomes env p env where
  of := h
  extends_env := Env.Extends.refl env
  shows hs := hs
  root_eq := rfl
  count_le := Nat.le_refl _
  index_eq _ _ := rfl
  created _ hi hi' := absurd hi' (Nat.not_lt.mpr hi)

theorem acts_refl (h : p.Of env) : p.Acts env p env where
  toBecomes := becomes_refl h
  own hv := Or.inl hv
  untouched _ _ := rfl

theorem Becomes.trans {r : Strand} (h : p.Becomes env q mid) (h' : q.Becomes mid r left) :
    p.Becomes env r left where
  of := h'.of
  extends_env := h'.extends_env.trans h.extends_env
  shows hs := h'.shows (h.shows hs)
  root_eq := h'.root_eq.trans h.root_eq
  count_le := Nat.le_trans h.count_le h'.count_le
  index_eq i hi := (h'.index_eq i (Nat.lt_of_lt_of_le hi h.count_le)).trans (h.index_eq i hi)
  created i hi hi' := by
    by_cases hmid : i < q.solo.count
    · rw [h'.index_eq i hmid]
      exact h.created i hi hmid
    · exact Nat.le_trans h.extends_env.count (h'.created i (Nat.le_of_not_lt hmid) hi')

theorem Acts.trans {r : Strand} (h : p.Acts env q mid) (h' : q.Acts mid r left) (henv : env.Valid) :
    p.Acts env r left where
  toBecomes := h.toBecomes.trans h'.toBecomes
  own hv := by
    rcases h'.own hv with hv | hv
    · exact h.own hv
    · exact Or.inr fun hlive => hv (h.extends_env.live hlive)
  untouched {t} ht havoids := by
    have hmid := h.untouched ht havoids
    rw [← hmid] at havoids ⊢
    refine h'.untouched (h.extends_env.covers ht) fun v hv hown => ?_
    rcases h.own hown with hown | hnew
    · exact havoids v hv hown
    · exact hnew (henv.covers_resolve ht v (hmid ▸ hv))

/-- A strand is not touched by the steps of another one with which it shares no variable. -/
theorem Acts.idle {u : Strand} (h : p.Acts env q left) (hu : u.Of env)
    (hdisjoint : ∀ v, p.own v → ¬u.own v) :
    u.Becomes env u left ∧ ∀ v, q.own v → ¬u.own v := by
  have hshows : ∀ {s t}, u.Shows env s t → u.Shows left s t := by
    intro s t hst
    have heq : left.resolve t = env.resolve t :=
      h.untouched hst.covers fun v hv hown => hdisjoint v hown (hst.own v hv)
    exact ⟨hst.covers_solo, h.extends_env.covers hst.covers, heq.trans hst.resolve_eq,
      heq ▸ hst.own⟩
  have hof : u.Of left :=
    ⟨hu.solo, h.of.whole, hu.mono,
      fun i hi => Nat.lt_of_lt_of_le (hu.below i hi) h.extends_env.count,
      fun hv => h.extends_env.live (hu.live hv)⟩
  refine ⟨⟨hof, h.extends_env, hshows, rfl, Nat.le_refl _, fun _ _ => rfl, fun i hi hi' => ?_⟩,
    fun v hv hown => ?_⟩
  · exact absurd hi' (Nat.not_lt.mpr hi)
  · rcases h.own hv with hv | hnew
    · exact hdisjoint v hv hown
    · exact hnew (hu.live hown)

/-- What is found at the roots of two types that stand for the same. -/
inductive Roots (p : Strand) (env : Env) : Ty → Ty → Prop
  | con (id : String) {xs ys : List Ty} (h : List.Forall₂ (p.Shows env) xs ys) :
      Roots p env (.con id xs) (.con id ys)
  | param (i : Int) : Roots p env (.param i) (.param i)
  | var {v : Var} (h : p.Open env v) : Roots p env (.var v) (.var (v.renamed p.index))

theorem Shows.shallow (h : p.Shows env s t) (hp : p.Of env) :
    p.Shows env (p.solo.shallow s) (env.shallow t) := by
  refine ⟨hp.solo.covers_shallow h.covers_solo, hp.whole.covers_shallow h.covers, ?_, ?_⟩
  · rw [hp.whole.resolve_shallow, hp.solo.resolve_shallow]
    exact h.resolve_eq
  · rw [hp.whole.resolve_shallow]
    exact h.own

theorem Shows.args {id id' : String} {xs ys : List Ty}
    (h : p.Shows env (.con id xs) (.con id' ys)) : id = id' ∧ List.Forall₂ (p.Shows env) xs ys := by
  have heq := h.resolve_eq
  simp only [Ty.renamed, Env.resolve_eq_replaceVars, Ty.replaceVars_con, Ty.con.injEq,
    List.map_map] at heq
  obtain ⟨hid, hargs⟩ := heq
  refine ⟨hid.symm, ?_⟩
  rw [← List.forall₂_eq_eq_eq, List.forall₂_map_left_iff, List.forall₂_map_right_iff] at hargs
  refine List.forall₂_iff_zip.mpr ⟨hargs.length_eq.symm, fun {x y} hxy => ?_⟩
  obtain ⟨hx, hy⟩ := List.of_mem_zip hxy
  have hresolve : env.resolve y = (p.solo.resolve x).renamed p.index := by
    rw [Env.resolve_eq_replaceVars, Env.resolve_eq_replaceVars]
    exact (List.forall₂_iff_zip.mp hargs.flip).2 hxy
  refine ⟨Engine.covers_args h.covers_solo x hx, Engine.covers_args h.covers y hy, hresolve, ?_⟩
  intro v hv
  apply h.own v
  rw [Env.resolve_eq_replaceVars, Ty.replaceVars_con, Ty.vars_con, List.mem_flatMap]
  refine ⟨_, List.mem_map_of_mem hy, ?_⟩
  rw [← Env.resolve_eq_replaceVars]
  exact hv

theorem Shows.roots (h : p.Shows env s t) (hp : p.Of env) :
    p.Roots env (p.solo.shallow s) (env.shallow t) := by
  have hroots := h.shallow hp
  have hsolo : ∀ v, p.solo.shallow s = .var v → p.solo.value? v = none :=
    fun v hv => hp.solo.value?_of_shallow hv
  have hwhole : ∀ v, env.shallow t = .var v → env.value? v = none :=
    fun v hv => hp.whole.value?_of_shallow hv
  generalize p.solo.shallow s = x at hroots hsolo
  generalize env.shallow t = y at hroots hwhole
  have heq := hroots.resolve_eq
  cases x with
  | con id xs =>
      cases y with
      | con id' ys =>
          obtain ⟨rfl, hargs⟩ := hroots.args
          exact .con id hargs
      | param i => simp [Ty.renamed, Env.resolve_eq_replaceVars] at heq
      | var w =>
          rw [Env.resolve_of_unbound (hwhole w rfl)] at heq
          simp [Ty.renamed, Env.resolve_eq_replaceVars] at heq
  | param i =>
      cases y with
      | con id' ys => simp [Ty.renamed, Env.resolve_eq_replaceVars] at heq
      | param j =>
          obtain rfl : j = i := by simpa [Ty.renamed, Env.resolve_eq_replaceVars] using heq
          exact .param j
      | var w =>
          rw [Env.resolve_of_unbound (hwhole w rfl)] at heq
          simp [Ty.renamed, Env.resolve_eq_replaceVars] at heq
  | var v =>
      rw [Env.resolve_of_unbound (hsolo v rfl)] at heq
      cases y with
      | con id' ys => simp [Ty.renamed, Env.resolve_eq_replaceVars] at heq
      | param j => simp [Ty.renamed, Env.resolve_eq_replaceVars] at heq
      | var w =>
          rw [Env.resolve_of_unbound (hwhole w rfl)] at heq
          obtain rfl : w = v.renamed p.index := by simpa [Ty.renamed] using heq
          exact .var ⟨hroots, hsolo v rfl, hwhole _ rfl⟩

/-- Binding the same variable to the same in both runs keeps all that types stand for the same. -/
theorem acts_bound (h : p.Of env) (hv : p.Open env v) (hst : p.Shows env s t)
    (hparams : p.solo.hasParams s = false) (hocc : v ∉ (p.solo.resolve s).vars)
    (holder : ∀ w, s = .var w → w.index < v.index)
    (holder' : ∀ w, t = .var w → w.index < (v.renamed p.index).index) :
    p.Acts env (p.moved (p.solo.bound v s)) (env.bound (v.renamed p.index) t) := by
  have hinjective := Var.renamed_injective h.mono
  have hown : p.own (v.renamed p.index) := by
    apply hv.shows.own
    rw [Env.resolve_of_unbound hv.unbound]
    simp
  have hocc' : v.renamed p.index ∉ (env.resolve t).vars := by
    rw [hst.resolve_eq, Ty.vars_renamed, List.mem_map_of_injective hinjective]
    exact hocc
  have hparams' : env.hasParams t = false := by
    rw [Env.hasParams, hst.resolve_eq, Ty.hasParams_renamed]
    exact hparams
  have hresolve := h.whole.resolve_bound hv.unbound hocc'
  have hvars : ∀ {x}, ∀ w ∈ ((env.bound (v.renamed p.index) t).resolve x).vars,
      w ∈ (env.resolve x).vars ∨ w ∈ (env.resolve t).vars := by
    intro x w hw
    rw [hresolve] at hw
    obtain ⟨y, hy, hw⟩ := Ty.mem_vars_replaceVars.mp hw
    split at hw
    · exact Or.inr hw
    · rw [Ty.vars_var, List.mem_singleton] at hw
      exact Or.inl (hw ▸ hy)
  refine ⟨⟨⟨?_, ?_, h.mono, h.below, h.live⟩, Env.extends_bound _ _ _, fun {x y} hxy => ?_, rfl,
    Nat.le_refl _, fun _ _ => rfl, fun i hi hi' => absurd hi' (Nat.not_lt.mpr hi)⟩,
    fun hw => Or.inl hw, fun {x} hx havoids => ?_⟩
  · exact h.solo.bound (hv.shows.covers_solo v (by simp)) hst.covers_solo hv.unbound_solo hparams
      hocc holder
  · exact h.whole.bound (h.live hown) hst.covers hv.unbound hparams' hocc' holder'
  · refine ⟨hxy.covers_solo, hxy.covers, ?_, fun w hw => ?_⟩
    · have hsolo := h.solo.resolve_bound hv.unbound_solo hocc x
      change _ = ((p.solo.bound v s).resolve x).renamed p.index
      rw [hresolve, hsolo, hxy.resolve_eq, Ty.replaceVars_renamed, Ty.renamed_replaceVars]
      apply Ty.replaceVars_congr
      intro w _
      by_cases hwv : w = v
      · simp [hwv, hst.resolve_eq]
      · simp [hwv, hinjective.ne hwv, Ty.renamed]
    · rcases hvars w hw with hw | hw
      · exact hxy.own w hw
      · exact hst.own w hw
  · rw [hresolve]
    refine (Ty.replaceVars_congr fun w hw => if_neg ?_).trans (Ty.replaceVars_self _)
    rintro rfl
    exact havoids _ hw hown

end Strand

end TraitResolution
