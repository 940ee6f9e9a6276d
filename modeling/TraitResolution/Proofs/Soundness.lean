import TraitResolution.Proofs.Settling

/-!
# Confirmations form proofs

A confirmation says that an impl, with some types for its parameters, has the reference of an
obligation. It stays true whatever is bound afterwards. When nothing is left open, the confirmations
of a resolution make up a finite tree above each obligation, and every ground instance of the
obligation is derivable.

## Implementation notes

Obligations are settled generation by generation, so the confirmations of one tree are spread over
the result. Settling a generation confirms each of its obligations and hands the bounds of the
chosen impls to the next generation. The tree is then built from the last generation upwards.
-/

namespace TraitResolution

namespace Confirmation

variable {program : Program} {env later : Env} {c : Confirmation}

/-- The impl of a confirmation belongs to the program, and with the given types for its parameters
it has the reference of the obligation under every solution. -/
structure Justified (program : Program) (env : Env) (c : Confirmation) : Prop where
  mem_impls : c.impl ∈ program.impls
  length_eq : c.replacements.length = c.impl.params.length
  paramFree : ∀ t ∈ c.replacements, t.hasParams = false
  head : ∃ ref, c.impl.trait.subst c.replacements = .ok ref ∧
    ∀ f, env.SolvedBy f → ref.replaceVars f = c.obligation.trait.replaceVars f

/-- More bindings leave fewer solutions, so a confirmation is never disturbed. -/
theorem Justified.of_extends (h : c.Justified program env) (hextends : later.Extends env) :
    c.Justified program later := by
  obtain ⟨ref, hsubst, heq⟩ := h.head
  refine ⟨h.mem_impls, h.length_eq, h.paramFree, ref, hsubst, fun f hf => ?_⟩
  exact heq f (hf.of_extends hextends)

/-- The reference of the impl and that of the obligation resolve to the same. -/
theorem Justified.resolveRef_eq (h : c.Justified program env) (henv : env.Valid) :
    ∃ ref, c.impl.trait.subst c.replacements = .ok ref ∧
      env.resolveRef ref = env.resolveRef c.obligation.trait := by
  obtain ⟨ref, hsubst, heq⟩ := h.head
  refine ⟨ref, hsubst, ?_⟩
  rw [Env.resolveRef_eq_replaceVars, Env.resolveRef_eq_replaceVars]
  exact heq env.answer henv.solvedBy_answer

/-- Under every solution a confirmation is a step of a derivation. -/
theorem Justified.implements (h : c.Justified program env) (hprogram : program.VarFree)
    {σ : Assignment} (hσ : σ.Solves env) :
    c.impl.Implements (c.replacements.map σ.type) (σ.ref c.obligation.trait) := by
  have hground : ∀ t ∈ c.replacements, (σ.type t).Ground :=
    fun t ht => σ.ground_type (h.paramFree t ht)
  obtain ⟨ref, hsubst, heq⟩ := h.head
  refine ⟨by rw [List.length_map, h.length_eq], List.forall_mem_map.mpr hground, ?_⟩
  have hinstance := Reference.subst_map_replaceVars (fun t ht => (hground t ht).notParam)
    (hprogram c.impl h.mem_impls).1 hsubst
  calc
    c.impl.trait.subst (c.replacements.map σ.type) = .ok (σ.ref ref) := hinstance
    _ = .ok (σ.ref c.obligation.trait) := congrArg _ (heq σ.value hσ)

end Confirmation

/-- A finite tree of confirmations for an obligation: the obligation is confirmed, and every bound
of the chosen impl has a tree of its own. -/
inductive ProvenBy (cs : List Confirmation) : Obligation → Prop
  | node {c : Confirmation} {bounds : List Reference} (hc : c ∈ cs)
      (hbounds : c.impl.boundsWith c.replacements = .ok bounds)
      (hnested : ∀ o ∈ c.obligation.nestedAll bounds, ProvenBy cs o) : ProvenBy cs c.obligation

theorem ProvenBy.mono {cs ds : List Confirmation} {o : Obligation} (h : ProvenBy cs o)
    (hsubset : cs ⊆ ds) : ProvenBy ds o := by
  induction h with
  | node hc hbounds hnested ih => exact .node (hsubset hc) hbounds ih

/-- What a tree of confirmations proves is derivable under every solution. -/
theorem ProvenBy.derivable {program : Program} {env : Env} {cs : List Confirmation} {o : Obligation}
    (h : ProvenBy cs o) (hprogram : program.VarFree) (hcs : ∀ c ∈ cs, c.Justified program env)
    {σ : Assignment} (hσ : σ.Solves env) : program.Derivable (σ.ref o.trait) := by
  induction h with
  | @node c bounds hc hbounds hnested ih =>
      have hjustified := hcs c hc
      have hinstances : c.impl.boundsWith (c.replacements.map σ.type) = .ok (bounds.map σ.ref) := by
        refine Impl.boundsWith_map (hprogram c.impl hjustified.mem_impls) (fun t ht => ?_) hbounds
        exact (σ.ground_type (hjustified.paramFree t ht)).notParam
      refine .intro hjustified.mem_impls (hjustified.implements hprogram hσ) hinstances ?_
      refine List.forall_mem_map.mpr ?_
      exact Obligation.forall_mem_nestedAll (P := fun b => program.Derivable (σ.ref b)) |>.mp ih

namespace Resolution

/-- Everything is confirmed: nothing is open, too deep or without an impl. -/
def Complete (r : Resolution) : Prop :=
  r.deferred = [] ∧ r.overflow = [] ∧ r.noImpl = []

theorem complete_append {a b : Resolution} : (a ++ b).Complete ↔ a.Complete ∧ b.Complete := by
  have happend : (a ++ b).Complete ↔ a.deferred ++ b.deferred = [] ∧
      a.overflow ++ b.overflow = [] ∧ a.noImpl ++ b.noImpl = [] := Iff.rfl
  rw [happend]
  simp only [Complete, List.append_eq_nil_iff]
  constructor
  · rintro ⟨⟨ha, hb⟩, ⟨ha', hb'⟩, ha'', hb''⟩
    exact ⟨⟨ha, ha', ha''⟩, hb, hb', hb''⟩
  · rintro ⟨⟨ha, ha', ha''⟩, hb, hb', hb''⟩
    exact ⟨⟨ha, hb⟩, ⟨ha', hb'⟩, ha'', hb''⟩

theorem mem_confirmed_append {a b : Resolution} {c : Confirmation} :
    c ∈ (a ++ b).confirmed ↔ c ∈ a.confirmed ∨ c ∈ b.confirmed :=
  List.mem_append

end Resolution

namespace Solver

open Operation Engine

variable {program : Program} {speculate : List Obligation → Engine Resolution} {o : Obligation}
  {os nested : List Obligation} {env left : Env} {maxDepth : Int} {n : Nat} {r : Resolution}

/-- An obligation is confirmed, and the bounds of the chosen impl are among the obligations that
arise. -/
def Confirms (r : Resolution) (nested : List Obligation) (o : Obligation) : Prop :=
  ∃ c ∈ r.confirmed, c.obligation = o ∧ ∃ bounds, c.impl.boundsWith c.replacements = .ok bounds ∧
    o.nestedAll bounds ⊆ nested

/-- What a run confirms is justified, and if all it settles is confirmed, nothing but the bounds of
the chosen impls remains to be shown. -/
structure Justifies (program : Program) (os : List Obligation) (r : Resolution)
    (nested : List Obligation) (left : Env) : Prop where
  justified : ∀ c ∈ r.confirmed, c.Justified program left
  confirms : r.Complete → ∀ o ∈ os, Confirms r nested o

theorem Settled.justifies {p : Resolution × List Obligation}
    (h : Settled maxDepth program speculate o env p left) (hs : ∀ os, (speculate os).Grows)
    (hprogram : program.VarFree) (henv : env.Valid) (ho : env.CoversRef o.trait) :
    Justifies program [o] p.1 p.2 left := by
  cases h with
  | overflow hdepth => exact ⟨by simp [Resolution.ofOverflow, Resolution.empty],
      fun hcomplete => absurd hcomplete.2.1 (by simp [Resolution.ofOverflow])⟩
  | decided hdepth hcs hdecided =>
      cases hdecided with
      | confirmed happly hbounds =>
          obtain ⟨himpl, hid⟩ := mem_impls_of_mem_candidates hs hcs (List.mem_singleton.mpr rfl)
          have happlied := applied_of_returns henv (hprogram _ himpl) hid ho happly
          obtain ⟨ref, hsubst, hsolved⟩ := happlied.head
          obtain rfl := happlied.vars_eq
          refine ⟨List.forall_mem_singleton.mpr ?_, fun _ => List.forall_mem_singleton.mpr ?_⟩
          · exact ⟨himpl, env.length_nextVars _, fun t ht => Env.hasParams_nextVars ht, ref, hsubst,
              fun f hf => ((hsolved f).mp hf).2⟩
          · exact ⟨_, List.mem_singleton.mpr rfl, rfl, _, hbounds, List.Subset.refl _⟩
      | noImpl hknown => exact ⟨by simp [Resolution.ofNoImpl, Resolution.empty],
          fun hcomplete => absurd hcomplete.2.2 (by simp [Resolution.ofNoImpl])⟩
      | notEnoughTypes | ambiguous => exact ⟨by simp [Resolution.ofDeferred, Resolution.empty],
          fun hcomplete => absurd hcomplete.1 (by simp [Resolution.ofDeferred])⟩

theorem settleAll_justifies {settleOne : Obligation → Engine (Resolution × List Obligation)}
    (hprogress : ∀ {o env p left}, env.Valid → env.CoversRef o.trait →
      (settleOne o).Returns env p left → Progress env p.2 left)
    (hstep : ∀ {o env p left}, env.Valid → env.CoversRef o.trait →
      (settleOne o).Returns env p left → Justifies program [o] p.1 p.2 left)
    (henv : env.Valid) (hos : env.CoversAll os) {p : Resolution × List Obligation}
    (h : (settleAll settleOne os).Returns env p left) : Justifies program os p.1 p.2 left := by
  induction os generalizing env p with
  | nil =>
      obtain ⟨rfl, rfl⟩ := returns_settleAll_nil.mp h
      exact ⟨by simp [Resolution.empty], by simp⟩
  | cons o os ih =>
      obtain ⟨r, nested, mid, rs, rest, hone, hall, rfl⟩ := returns_settleAll_cons.mp h
      obtain ⟨ho, hos⟩ := List.forall_mem_cons.mp hos
      have hfirst := hprogress henv ho hone
      have hos := hfirst.extends_env.coversAll hos
      have hlater := settleAll_progress hprogress hfirst.valid hos hall
      have hhead := hstep henv ho hone
      have htail := ih hfirst.valid hos hall
      constructor
      · intro c hc
        rcases Resolution.mem_confirmed_append.mp hc with hc | hc
        · exact (hhead.justified c hc).of_extends hlater.extends_env
        · exact htail.justified c hc
      · intro hcomplete x hx
        obtain ⟨hcompleteOne, hcompleteRest⟩ := Resolution.complete_append.mp hcomplete
        rcases List.mem_cons.mp hx with rfl | hx
        · obtain ⟨c, hc, hco, bounds, hbounds, hsubset⟩ :=
            hhead.confirms hcompleteOne x (List.mem_singleton.mpr rfl)
          exact ⟨c, Resolution.mem_confirmed_append.mpr (Or.inl hc), hco, bounds, hbounds,
            List.subset_append_of_subset_left _ hsubset⟩
        · obtain ⟨c, hc, hco, bounds, hbounds, hsubset⟩ := htail.confirms hcompleteRest x hx
          exact ⟨c, Resolution.mem_confirmed_append.mpr (Or.inr hc), hco, bounds, hbounds,
            List.subset_append_of_subset_right _ hsubset⟩

/-- What a resolution confirms is justified in the environment it leaves, and proves the obligations
if everything is confirmed. -/
theorem resolveWithin_proves (hprogram : program.VarFree) (henv : env.Valid)
    (hos : env.CoversAll os) (h : (resolveWithin maxDepth program n os).Returns env r left) :
    (∀ c ∈ r.confirmed, c.Justified program left) ∧
      (r.Complete → ∀ o ∈ os, ProvenBy r.confirmed o) := by
  induction n generalizing env os r with
  | zero =>
      obtain ⟨-, rfl, rfl⟩ := returns_resolveWithin_zero.mp h
      refine ⟨by simp [Resolution.ofOverflow, Resolution.empty], fun hcomplete => ?_⟩
      obtain rfl : os = [] := hcomplete.2.1
      simp
  | succ n ih =>
      obtain ⟨first, nested, mid, rest, hall, hrest, rfl⟩ := returns_resolveWithin_succ.mp h
      have hs := grows_resolveWithin maxDepth program n
      have hfirst := generation_progress hprogram henv hos hall
      have hlater := resolveWithin_progress hprogram hfirst.valid hfirst.covers hrest
      have hgeneration : Justifies program os first nested mid := by
        refine settleAll_justifies (fun henv ho h => ?_) (fun henv ho h => ?_) henv hos hall
        · exact ((returns_settle hs).mp h).progress hs hprogram henv ho
        · exact ((returns_settle hs).mp h).justifies hs hprogram henv ho
      obtain ⟨hjustified, hproven⟩ := ih hfirst.valid hfirst.covers hrest
      constructor
      · intro c hc
        rcases Resolution.mem_confirmed_append.mp hc with hc | hc
        · exact (hgeneration.justified c hc).of_extends hlater.extends_env
        · exact hjustified c hc
      · intro hcomplete o ho
        obtain ⟨hcompleteFirst, hcompleteRest⟩ := Resolution.complete_append.mp hcomplete
        obtain ⟨c, hc, rfl, bounds, hbounds, hsubset⟩ := hgeneration.confirms hcompleteFirst o ho
        refine .node (Resolution.mem_confirmed_append.mpr (Or.inl hc)) hbounds fun x hx => ?_
        exact (hproven hcompleteRest x (hsubset hx)).mono (List.subset_append_right _ _)

/-- Confirmations form proofs. In the environment that is left, the reference of each confirmed impl
resolves to that of its obligation. If nothing is deferred, too deep or without an impl, then each
obligation has a finite tree of confirmations, and all its ground instances are derivable. -/
theorem resolve_confirmations_prove {config : Config} (hprogram : program.VarFree)
    (henv : env.Reachable) (hos : env.CoversAll os)
    (h : (resolve config program os).Returns env r left) :
    (∀ c ∈ r.confirmed, ∃ ref, c.impl.trait.subst c.replacements = .ok ref ∧
      left.resolveRef ref = left.resolveRef c.obligation.trait) ∧
    (r.deferred = [] → r.overflow = [] → r.noImpl = [] → ∀ o ∈ os, ProvenBy r.confirmed o ∧
      ∀ σ : Assignment, program.Derivable (σ.ref (left.resolveRef o.trait))) := by
  have hleft := (resolveWithin_progress hprogram henv.valid hos h).valid
  obtain ⟨hjustified, hproven⟩ := resolveWithin_proves hprogram henv.valid hos h
  constructor
  · intro c hc
    exact (hjustified c hc).resolveRef_eq hleft
  · intro hdeferred hoverflow hnoImpl o ho
    have htree := hproven ⟨hdeferred, hoverflow, hnoImpl⟩ o ho
    refine ⟨htree, fun σ => ?_⟩
    rw [σ.ref_resolveRef hleft]
    exact htree.derivable hprogram hjustified (σ.solves_completing hleft)

/-- A list is printed, and its elements are shown. -/
def listPrinted : List Obligation :=
  [.topLevel "list" ⟨"Print", .con "List" [.var ⟨0, 0⟩], []⟩,
    .topLevel "element" ⟨"Show", .var ⟨0, 0⟩, []⟩]

/-- The list is confirmed first, and only the obligation after it tells what its elements are. -/
theorem resolve_confirmations_prove_listPrinted :
    ∃ r left, (resolve .default printing listPrinted).Returns Env.empty.created r left ∧
      r.confirmed.length = 3 ∧
      (∀ c ∈ r.confirmed, ∃ ref, c.impl.trait.subst c.replacements = .ok ref ∧
        left.resolveRef ref = left.resolveRef c.obligation.trait) ∧
      ∀ o ∈ listPrinted, ProvenBy r.confirmed o ∧
        ∀ σ : Assignment, printing.Derivable (σ.ref (left.resolveRef o.trait)) := by
  have hrun : ∃ r left, (resolve .default printing listPrinted).Returns Env.empty.created r left ∧
      r.confirmed.length = 3 ∧ r.deferred = [] ∧ r.overflow = [] ∧ r.noImpl = [] :=
    ⟨_, _, ⟨rfl, rfl⟩, rfl, rfl, rfl, rfl⟩
  obtain ⟨r, left, hrun, hlen, hdeferred, hoverflow, hnoImpl⟩ := hrun
  obtain ⟨hconfirmed, hproven⟩ := resolve_confirmations_prove (by decide)
    ⟨[], Env.ReachedWith.fresh .empty⟩ (by decide) hrun
  exact ⟨r, left, hrun, hlen, hconfirmed, hproven hdeferred hoverflow hnoImpl⟩

end Solver

end TraitResolution
