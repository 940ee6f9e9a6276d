import TraitResolution.Proofs.Interleaving

/-!
# Unrelated obligations do not influence each other

Obligations that share no open variable can be resolved together or apart. The entries that one sort
of them has in the buckets are those of a run on this sort alone. The two sorts may use the same
impls and create variables in turn, so the variables created by the run alone have other indices in
the whole run, but in the same order. An obligation whose types are all known shares variables with
no other one: what becomes of it can be told from these types, its depth and the program.
-/

namespace TraitResolution

/-- A reference with its variables under other indices. -/
def Reference.renamed (index : Nat → Nat) (r : Reference) : Reference :=
  r.replaceVars fun v => .var (v.renamed index)

namespace Resolution

/-- The same entries for other obligations, and with other types for replacements. -/
def mapEntries (f : Obligation → Obligation) (g : Ty → Ty) (r : Resolution) : Resolution :=
  ⟨r.confirmed.map fun c => ⟨f c.obligation, c.impl, c.replacements.map g⟩, r.deferred.map f,
    r.overflow.map f, r.noImpl.map f⟩

/-- A resolution with every bound variable replaced by its value. -/
def resolved (env : Env) (r : Resolution) : Resolution :=
  r.mapEntries (fun o => { o with trait := env.resolveRef o.trait }) env.resolve

/-- A resolution with its variables under other indices. -/
def renamed (index : Nat → Nat) (r : Resolution) : Resolution :=
  r.mapEntries (fun o => { o with trait := o.trait.renamed index }) (Ty.renamed index)

/-- A resolution with a text before every id. -/
def under (root : Text) (r : Resolution) : Resolution :=
  r.mapEntries (fun o => { o with id := root ++ o.id }) id

theorem under_empty (r : Resolution) : r.under "" = r := by
  have hid : ∀ t : Text, ("" : Text) ++ t = t := fun _ => rfl
  simp [under, mapEntries, hid]

end Resolution

/-- The indices that variables of a run from `start` to `last` have in a run from `env` to `left`.
They come in the same order. Variables from before the run keep their index, and those it creates
are created by the other run as well. -/
structure Renaming (start last env left : Env) (index : Nat → Nat) : Prop where
  mono : StrictMono index
  kept : ∀ i < start.count, index i = i
  created : ∀ i, start.count ≤ i → i < last.count → env.count ≤ index i ∧ index i < left.count

/-- Obligations of two sorts that share no open variable. -/
def Env.Unrelated (env : Env) (as bs : List Obligation) : Prop :=
  ∀ a ∈ as, ∀ b ∈ bs, ∀ s ∈ a.trait.types, ∀ t ∈ b.trait.types,
    ∀ v ∈ (env.resolve s).vars, v ∉ (env.resolve t).vars

instance (env : Env) (as bs : List Obligation) : Decidable (env.Unrelated as bs) :=
  inferInstanceAs (Decidable (∀ a ∈ as, ∀ b ∈ bs, ∀ s ∈ a.trait.types, ∀ t ∈ b.trait.types,
    ∀ v ∈ (env.resolve s).vars, v ∉ (env.resolve t).vars))

namespace Strand

variable {p q : Strand} {env left : Env} {o o' : Obligation} {os : List Obligation}
  {r r' : Resolution}

theorem Becomes.renaming (h : p.Becomes env q left) (hkept : ∀ i < p.solo.count, p.index i = i) :
    Renaming p.solo q.solo env left q.index where
  mono := h.of.mono
  kept i hi := (h.index_eq i hi).trans (hkept i hi)
  created i hi hi' := ⟨h.created i hi hi', h.of.below i hi'⟩

theorem ShowsRef.resolveRef_eq {r r' : Reference} (h : p.ShowsRef env r r') :
    env.resolveRef r' = (p.solo.resolveRef r).renamed p.index := by
  obtain ⟨hself, hparams⟩ := List.forall₂_cons.mp h.types
  have hparams : r'.params.map env.resolve =
      (r.params.map p.solo.resolve).map (Ty.renamed p.index) := by
    rw [List.map_map]
    exact map_eq_map_of_forall₂ (fun _ _ hs => hs.resolve_eq) hparams
  simp only [Env.resolveRef, Reference.renamed, Reference.replaceVars, h.id_eq, hself.resolve_eq,
    hparams]
  rfl

theorem Matches.resolved_eq (h : p.Matches env o o') :
    { o' with trait := env.resolveRef o'.trait } =
      (⟨p.root ++ o.id, (p.solo.resolveRef o.trait).renamed p.index, o.depth⟩ : Obligation) := by
  rw [h.shows.resolveRef_eq, h.id_eq, h.depth_eq]

/-- Matching resolutions are the same once their types are resolved, up to the indices of
variables. -/
theorem Reflects.resolved_eq (h : p.Reflects env r r') :
    r'.resolved env = ((r.resolved p.solo).renamed p.index).under p.root := by
  have hmatches : ∀ {os os' : List Obligation}, List.Forall₂ (p.Matches env) os os' →
      os'.map (fun o => { o with trait := env.resolveRef o.trait }) =
        os.map fun o => ⟨p.root ++ o.id, (p.solo.resolveRef o.trait).renamed p.index, o.depth⟩ :=
    fun h => map_eq_map_of_forall₂ (fun _ _ hm => hm.resolved_eq) h
  have hconfirmed : r'.confirmed.map (fun c => (⟨{ c.obligation with
      trait := env.resolveRef c.obligation.trait }, c.impl, c.replacements.map env.resolve⟩ :
        Confirmation)) = r.confirmed.map fun c => ⟨⟨p.root ++ c.obligation.id,
          (p.solo.resolveRef c.obligation.trait).renamed p.index, c.obligation.depth⟩, c.impl,
          c.replacements.map fun t => (p.solo.resolve t).renamed p.index⟩ := by
    refine map_eq_map_of_forall₂ (fun c c' hc => ?_) h.confirmed
    rw [hc.obligation.resolved_eq, hc.impl_eq,
      map_eq_map_of_forall₂ (fun _ _ hs => hs.resolve_eq) hc.replacements]
  simp only [Resolution.resolved, Resolution.renamed, Resolution.under, Resolution.mapEntries,
    List.map_map, hmatches h.deferred, hmatches h.overflow, hmatches h.noImpl, hconfirmed]
  simp [Function.comp_def]

/-- The strand made of some of the obligations of a run, with the variables open in them. -/
def among (env : Env) (os : List Obligation) : Strand :=
  ⟨env, id, "", fun v => ∃ o ∈ os, ∃ t ∈ o.trait.types, v ∈ (env.resolve t).vars⟩

theorem among_of (henv : env.Valid) (hos : env.CoversAll os) : (among env os).Of env where
  solo := henv
  whole := henv
  mono := strictMono_id
  below _ hi := hi
  live := by
    rintro v ⟨o, ho, t, ht, hv⟩
    exact henv.covers_resolve (hos o ho t ht) v hv

theorem among_matches (hos : env.CoversAll os) :
    List.Forall₂ ((among env os).Matches env) os os := by
  refine List.forall₂_same.mpr fun o ho => ⟨rfl, rfl, rfl, List.forall₂_same.mpr fun t ht => ?_⟩
  exact ⟨hos o ho t ht, hos o ho t ht, (Ty.renamed_id _).symm, fun v hv => ⟨o, ho, t, ht, hv⟩⟩

/-- The strand made of an obligation whose types are known, with nothing else around. -/
def bare (o : Obligation) : Strand :=
  ⟨.empty, id, o.id, fun _ => False⟩

theorem bare_of (henv : env.Valid) : (bare o).Of env :=
  ⟨Env.valid_empty, henv, strictMono_id, fun i hi => absurd hi (Nat.not_lt_zero i), False.elim⟩

theorem bare_matches (ho : env.CoversRef o.trait) (hknown : env.fullyBound o.trait.types = true) :
    (bare o).Matches env ⟨"", env.resolveRef o.trait, o.depth⟩ o := by
  refine ⟨(Text.append_empty o.id).symm, rfl, rfl, ?_⟩
  have htypes : (env.resolveRef o.trait).types = o.trait.types.map env.resolve := rfl
  rw [htypes, List.forall₂_map_left_iff, List.forall₂_same]
  intro t ht
  have hvars := Env.fullyBound_iff.mp hknown t ht
  exact ⟨by simp [Env.Covers, hvars], ho t ht, (Ty.renamed_id _).symm, by simp [hvars]⟩

end Strand

namespace Solver

open Operation Engine Strand

variable {program : Program} {env left : Env} {os : List Obligation} {r : Resolution}

/-- The run on some obligations alone leads to these entries as well, up to the indices of the
variables that it creates. -/
def FoundAlone (config : Config) (program : Program) (env : Env) (os : List Obligation) (left : Env)
    (r : Resolution) : Prop :=
  ∃ alone last index, (resolve config program os).Returns env alone last ∧
    Renaming env last env left index ∧ r.resolved left = (alone.resolved last).renamed index

theorem foundAlone_of_resolves {config : Config} {as : List Obligation} {q : Strand}
    {a ra : Resolution} (hsub : ∀ o ∈ as, o ∈ os)
    (h : (among env as).Resolves env
      (resolveWithin config.maxDepth program (generations config.maxDepth os) as) as q left a ra) :
    FoundAlone config program env as left ra := by
  have hroot : q.root = "" := h.becomes.root_eq
  have hreturns := h.returns
  rw [resolveWithin_generations fun o ho => ⟨o, hsub o ho, rfl⟩] at hreturns
  refine ⟨a, q.solo, q.index, hreturns, h.becomes.renaming fun _ _ => rfl, ?_⟩
  rw [h.reflects.resolved_eq, hroot, Resolution.under_empty]

/-- Unrelated obligations do not influence each other. When the given obligations are interleaved
from two sorts that share no open variable, each sort alone is resolved too, and each bucket is
interleaved from the entries that descend from either sort. These are, in order, the entries of the
run on that sort alone: the same ids, depths, impls and resolved references, up to the indices of
variables created by the run, which come in the same order. What becomes of an obligation whose
types are known, and of all that arises from it, is what becomes of the resolved obligation in an
empty environment, whatever its id. -/
theorem resolve_splits {config : Config} (hprogram : program.VarFree) (henv : env.Reachable)
    (hos : env.CoversAll os) (h : (resolve config program os).Returns env r left) :
    (∀ as bs, Interleaves as bs os → env.Unrelated as bs →
      ∃ ra rb : Resolution, ra.Interleaves rb r ∧ ra.Accounts as ∧ rb.Accounts bs ∧
        FoundAlone config program env as left ra ∧ FoundAlone config program env bs left rb) ∧
    ∀ o rest, Interleaves [o] rest os → env.fullyBound o.trait.types = true →
      ∃ ro rs : Resolution, ro.Interleaves rs r ∧ ro.Accounts [o] ∧ rs.Accounts rest ∧
        ∃ alone last index,
          (∀ config' : Config, config'.maxDepth = config.maxDepth →
            (resolve config' program [⟨"", env.resolveRef o.trait, o.depth⟩]).Returns .empty alone
              last) ∧
          Renaming .empty last env left index ∧
          ro.resolved left = ((alone.resolved last).renamed index).under o.id := by
  have hvalid := henv.valid
  constructor
  · intro as bs hmix hunrelated
    have has : env.CoversAll as := fun o ho => hos o (hmix.mem_iff.mpr (Or.inl ho))
    have hbs : env.CoversAll bs := fun o ho => hos o (hmix.mem_iff.mpr (Or.inr ho))
    have hdisjoint : ∀ v, (among env as).own v → ¬(among env bs).own v := by
      rintro v ⟨a, ha, s, hs, hv⟩ ⟨b, hb, t, ht, hv'⟩
      exact hunrelated a ha b hb s hs t ht v hv hv'
    obtain ⟨q, w, a, b, ra, rb, hq, hw, hr⟩ := resolveWithin_splits hprogram hmix
      (among_of hvalid has) (among_of hvalid hbs) hdisjoint (among_matches has)
      (among_matches hbs) h
    exact ⟨ra, rb, hr, hq.accounts, hw.accounts,
      foundAlone_of_resolves (fun o ho => hmix.mem_iff.mpr (Or.inl ho)) hq,
      foundAlone_of_resolves (fun o ho => hmix.mem_iff.mpr (Or.inr ho)) hw⟩
  · intro o rest hmix hknown
    have ho : o ∈ os := hmix.mem_iff.mpr (Or.inl (List.mem_singleton.mpr rfl))
    have hrest : env.CoversAll rest := fun x hx => hos x (hmix.mem_iff.mpr (Or.inr hx))
    obtain ⟨q, w, a, b, ra, rb, hq, hw, hr⟩ := resolveWithin_splits hprogram hmix
      (bare_of (o := o) hvalid) (among_of hvalid hrest) (fun _ => False.elim)
      (.cons (bare_matches (hos o ho) hknown) .nil) (among_matches hrest) h
    have hroot : q.root = o.id := hq.becomes.root_eq
    have hdepth : ∀ x ∈ [(⟨"", env.resolveRef o.trait, o.depth⟩ : Obligation)],
        ∃ o' ∈ os, o'.depth = x.depth := List.forall_mem_singleton.mpr ⟨o, ho, rfl⟩
    have hreturns := hq.returns
    rw [resolveWithin_generations hdepth] at hreturns
    refine ⟨ra, rb, hr, hq.accounts, hw.accounts, a, q.solo, q.index, fun config' hconfig => ?_,
      hq.becomes.renaming fun _ _ => rfl, hroot ▸ hq.reflects.resolved_eq⟩
    rw [resolve, hconfig]
    exact hreturns

/-- A box is printed if something else is shown, and integers and truth values are shown. -/
def wrapping : Program :=
  ⟨[], [⟨"Box", [[], [⟨"Show", .param 1, []⟩]], ⟨"Print", .con "Box" [.param 0], []⟩⟩, showInt,
    ⟨"Bool", [], ⟨"Show", .con "Bool" [], []⟩⟩]⟩

/-- A box of lists is to be printed. -/
def wrappedLists : Obligation :=
  .topLevel "lists" ⟨"Print", .con "Box" [.var ⟨1, 0⟩], []⟩

/-- What the lists hold is to be shown. -/
def listItem : Obligation :=
  .topLevel "item" ⟨"Show", .var ⟨0, 0⟩, []⟩

/-- A box of something else is to be printed. -/
def wrappedOther : Obligation :=
  .topLevel "other" ⟨"Print", .con "Box" [.var ⟨2, 0⟩], []⟩

/-- A box of integers is to be printed. -/
def wrappedInt : Obligation :=
  .topLevel "int" ⟨"Print", .con "Box" [.con "Int" []], []⟩

/-- Each box brings a variable for what else is shown. In the whole run it has another index than in
the run on the box alone. -/
theorem resolve_splits_wrapping :
    ∃ r left, (resolve .default wrapping
        [wrappedLists, wrappedOther, listItem, wrappedInt]).Returns listed r left ∧
      r.deferred.map (·.trait.self) =
        [.var ⟨0, 0⟩, .var ⟨4, 0⟩, .var ⟨6, 0⟩, .var ⟨8, 0⟩] ∧
      (∃ ra rb : Resolution, ra.Interleaves rb r ∧ ra.Accounts [wrappedLists, listItem] ∧
        rb.Accounts [wrappedOther, wrappedInt] ∧
        FoundAlone .default wrapping listed [wrappedLists, listItem] left ra ∧
        FoundAlone .default wrapping listed [wrappedOther, wrappedInt] left rb) ∧
      ∃ ro rs : Resolution, ro.Interleaves rs r ∧ ro.Accounts [wrappedInt] ∧
        ∃ alone last index,
          (resolve ⟨4, 0⟩ wrapping [⟨"", wrappedInt.trait, 0⟩]).Returns .empty alone last ∧
          Renaming .empty last listed left index ∧
          ro.resolved left = ((alone.resolved last).renamed index).under "int" := by
  have hrun : ∃ r left, (resolve .default wrapping
        [wrappedLists, wrappedOther, listItem, wrappedInt]).Returns listed r left ∧
      r.deferred.map (·.trait.self) =
        [.var ⟨0, 0⟩, .var ⟨4, 0⟩, .var ⟨6, 0⟩, .var ⟨8, 0⟩] := ⟨_, _, ⟨rfl, rfl⟩, rfl⟩
  obtain ⟨r, left, hrun, hdeferred⟩ := hrun
  obtain ⟨hsplits, hknown⟩ := resolve_splits (by decide) listed_reachable (by decide) hrun
  have hmix : Interleaves [wrappedLists, listItem] [wrappedOther, wrappedInt]
      [wrappedLists, wrappedOther, listItem, wrappedInt] :=
    .left _ (.right _ (.left _ (.right _ .nil)))
  have hlast : Interleaves [wrappedInt] [wrappedLists, wrappedOther, listItem]
      [wrappedLists, wrappedOther, listItem, wrappedInt] :=
    .right _ (.right _ (.right _ (.left _ .nil)))
  obtain ⟨ro, rs, hr, haccounts, -, alone, last, index, halone, hrenaming, heq⟩ :=
    hknown _ _ hlast (by decide)
  exact ⟨r, left, hrun, hdeferred, hsplits _ _ hmix (by decide), ro, rs, hr, haccounts, alone, last,
    index, halone ⟨4, 0⟩ rfl, hrenaming, heq⟩

end Solver

end TraitResolution
