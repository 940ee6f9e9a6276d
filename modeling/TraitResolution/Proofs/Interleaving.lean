import TraitResolution.Proofs.Lockstep

/-!
# Two strands of a run, interleaved

When the obligations of a run fall into two sorts that share no open variable, the run consists of
the runs on each sort alone, interleaved. A step for an obligation of one sort is a step of one
strand, and it leaves the other strand idle.

## Implementation notes

A whole run is followed together with the runs on both strands. Speculation is about the obligations
of one strand only, which is the case of an empty second strand.
-/

namespace TraitResolution

/-- The elements of two lists in one list, each list in its order. -/
inductive Interleaves {α : Type} : List α → List α → List α → Prop
  | nil : Interleaves [] [] []
  | left {xs ys zs : List α} (x : α) (h : Interleaves xs ys zs) :
      Interleaves (x :: xs) ys (x :: zs)
  | right {xs ys zs : List α} (y : α) (h : Interleaves xs ys zs) :
      Interleaves xs (y :: ys) (y :: zs)

namespace Interleaves

variable {α : Type} {xs ys zs xs' ys' zs' : List α}

theorem symm (h : Interleaves xs ys zs) : Interleaves ys xs zs := by
  induction h with
  | nil => exact .nil
  | left x _ ih => exact .right x ih
  | right y _ ih => exact .left y ih

theorem nil_right (xs : List α) : Interleaves xs [] xs := by
  induction xs with
  | nil => exact .nil
  | cons x xs ih => exact .left x ih

theorem append (h : Interleaves xs ys zs) (h' : Interleaves xs' ys' zs') :
    Interleaves (xs ++ xs') (ys ++ ys') (zs ++ zs') := by
  induction h with
  | nil => exact h'
  | left x _ ih => exact .left x ih
  | right y _ ih => exact .right y ih

theorem mem_iff (h : Interleaves xs ys zs) {a : α} : a ∈ zs ↔ a ∈ xs ∨ a ∈ ys := by
  induction h with
  | nil => simp
  | left x _ ih => simp [ih, or_assoc]
  | right y _ ih => simp [ih, or_left_comm]

theorem eq_of_nil_right (h : Interleaves xs [] zs) : zs = xs := by
  generalize hys : ([] : List α) = ys at h
  induction h with
  | nil => rfl
  | left x _ ih => rw [ih hys]
  | right y _ ih => cases hys

end Interleaves

/-- Two resolutions in one, bucket by bucket. -/
structure Resolution.Interleaves (a b r : Resolution) : Prop where
  confirmed : TraitResolution.Interleaves a.confirmed b.confirmed r.confirmed
  deferred : TraitResolution.Interleaves a.deferred b.deferred r.deferred
  overflow : TraitResolution.Interleaves a.overflow b.overflow r.overflow
  noImpl : TraitResolution.Interleaves a.noImpl b.noImpl r.noImpl

namespace Resolution.Interleaves

variable {a b r a' b' r' : Resolution}

theorem symm (h : a.Interleaves b r) : b.Interleaves a r :=
  ⟨h.confirmed.symm, h.deferred.symm, h.overflow.symm, h.noImpl.symm⟩

theorem empty_right (r : Resolution) : r.Interleaves .empty r :=
  ⟨.nil_right _, .nil_right _, .nil_right _, .nil_right _⟩

theorem append (h : a.Interleaves b r) (h' : a'.Interleaves b' r') :
    (a ++ a').Interleaves (b ++ b') (r ++ r') :=
  ⟨h.confirmed.append h'.confirmed, h.deferred.append h'.deferred, h.overflow.append h'.overflow,
    h.noImpl.append h'.noImpl⟩

end Resolution.Interleaves

namespace Strand

open Operation Engine Solver

variable {p q : Strand} {env mid left : Env} {o o' : Obligation} {os os' : List Obligation}
  {r r' : Resolution}

/-- Obligations that demand the same at the same depth. -/
structure Matches (p : Strand) (env : Env) (o o' : Obligation) : Prop where
  id_eq : o'.id = p.root ++ o.id
  depth_eq : o'.depth = o.depth
  shows : p.ShowsRef env o.trait o'.trait

theorem Matches.mono (h : p.Matches env o o') (hbecomes : p.Becomes env q left) :
    q.Matches left o o' :=
  ⟨hbecomes.root_eq ▸ h.id_eq, h.depth_eq, h.shows.mono hbecomes⟩

theorem Matches.nestedAll (h : p.Matches env o o') {bounds bounds' : List Reference}
    (hbounds : List.Forall₂ (p.ShowsRef env) bounds bounds') :
    List.Forall₂ (p.Matches env) (o.nestedAll bounds) (o'.nestedAll bounds') := by
  obtain ⟨hlen, hget⟩ := List.forall₂_iff_get.mp hbounds
  refine List.forall₂_iff_get.mpr ⟨by simp [Obligation.nestedAll, hlen], fun i hi hi' => ?_⟩
  simp only [Obligation.nestedAll, List.length_mapIdx] at hi hi'
  simp only [Obligation.nestedAll, List.get_eq_getElem, List.getElem_mapIdx, Obligation.nested]
  refine ⟨?_, ?_, hget i hi hi'⟩
  · simp only [h.id_eq, Text.append_assoc]
  · simp only [h.depth_eq]

/-- Confirmations of the same impl, with replacements that stand for the same. -/
structure Confirms (p : Strand) (env : Env) (c c' : Confirmation) : Prop where
  obligation : p.Matches env c.obligation c'.obligation
  impl_eq : c'.impl = c.impl
  replacements : List.Forall₂ (p.Shows env) c.replacements c'.replacements

/-- A resolution of the run alone, found in the whole run. -/
structure Reflects (p : Strand) (env : Env) (r r' : Resolution) : Prop where
  confirmed : List.Forall₂ (p.Confirms env) r.confirmed r'.confirmed
  deferred : List.Forall₂ (p.Matches env) r.deferred r'.deferred
  overflow : List.Forall₂ (p.Matches env) r.overflow r'.overflow
  noImpl : List.Forall₂ (p.Matches env) r.noImpl r'.noImpl

theorem reflects_empty (p : Strand) (env : Env) : p.Reflects env .empty .empty :=
  ⟨.nil, .nil, .nil, .nil⟩

theorem Reflects.mono (h : p.Reflects env r r') (hbecomes : p.Becomes env q left) :
    q.Reflects left r r' := by
  have hmatches : ∀ {os os' : List Obligation}, List.Forall₂ (p.Matches env) os os' →
      List.Forall₂ (q.Matches left) os os' :=
    fun h => h.imp fun _ _ hm => hm.mono hbecomes
  refine ⟨h.confirmed.imp fun _ _ hc => ⟨hc.obligation.mono hbecomes, hc.impl_eq, ?_⟩,
    hmatches h.deferred, hmatches h.overflow, hmatches h.noImpl⟩
  exact hc.replacements.imp fun _ _ hs => hbecomes.shows hs

theorem Reflects.append {s s' : Resolution} (h : p.Reflects env r r') (h' : p.Reflects env s s') :
    p.Reflects env (r ++ s) (r' ++ s') :=
  ⟨List.rel_append h.confirmed h'.confirmed, List.rel_append h.deferred h'.deferred,
    List.rel_append h.overflow h'.overflow, List.rel_append h.noImpl h'.noImpl⟩

theorem Matches.fullyBound_eq (h : p.Matches env o o') :
    p.solo.fullyBound o.trait.types = env.fullyBound o'.trait.types := by
  have hvars : ∀ {s t}, p.Shows env s t →
      ((p.solo.resolve s).vars = [] ↔ (env.resolve t).vars = []) := by
    intro s t hst
    rw [hst.resolve_eq, Ty.vars_renamed, List.map_eq_nil_iff]
  rw [Bool.eq_iff_iff, Env.fullyBound_iff, Env.fullyBound_iff]
  have htypes := h.shows.types
  generalize o.trait.types = ss at htypes
  generalize o'.trait.types = ts at htypes
  induction htypes with
  | nil => simp
  | cons hst _ ih => simp only [List.forall_mem_cons, hvars hst, ih]

/-- While the obligations `os'` of a strand are settled in the whole run, the run alone settles what
matches them. What arises matches as well. -/
structure Settles (p : Strand) (env : Env) (alone : Engine (Resolution × List Obligation))
    (os' : List Obligation) (q : Strand) (left : Env) (x x' : Resolution × List Obligation) :
    Prop where
  becomes : p.Becomes env q left
  returns : alone.Returns p.solo x q.solo
  reflects : q.Reflects left x.1 x'.1
  nested : List.Forall₂ (q.Matches left) x.2 x'.2
  tallies : x'.1.Tallies os' x'.2

section Settle

variable {program : Program} {speculate : List Obligation → Engine Resolution} {impl : Impl}
  {maxDepth : Int}

theorem unifies_alone (h : p.Of env) (himpl : impl.VarFree) (ho : p.Matches env o o') {b : Bool}
    (hb : (unifies o' impl).Returns env b env) : (unifies o impl).Returns p.solo b p.solo := by
  obtain ⟨⟨vars?, gone, happly, rfl⟩, -⟩ := returns_unifies.mp hb
  obtain ⟨solo, hsolo, -⟩ := follows_apply h himpl ho.shows happly
  refine returns_unifies.mpr ⟨⟨_, solo, hsolo, ?_⟩, rfl⟩
  cases vars? <;> rfl

variable (hs : ∀ os, (speculate os).Grows)
  (hspeculate : ∀ {p env os os' r' left}, Of p env → List.Forall₂ (p.Matches env) os os' →
    (speculate os').Returns env r' left →
    ∃ r solo, (speculate os).Returns p.solo r solo ∧ (r.noImpl = [] ↔ r'.noImpl = []))

include hs hspeculate

theorem viable_alone (h : p.Of env) (himpl : impl.VarFree) (ho : p.Matches env o o') {b : Bool}
    (hb : (viable speculate o' impl).Returns env b env) :
    (viable speculate o impl).Returns p.solo b p.solo := by
  obtain ⟨⟨gone, hweigh⟩, -⟩ := (returns_viable hs).mp hb
  rcases returns_weigh.mp hweigh with ⟨happly, rfl⟩ |
    ⟨vars', mid, bounds', r', happly, hbounds', hr', rfl⟩
  · obtain ⟨solo, hsolo, -⟩ := follows_apply h himpl ho.shows happly
    exact (returns_viable hs).mpr ⟨⟨solo, returns_weigh.mpr (Or.inl ⟨hsolo, rfl⟩)⟩, rfl⟩
  · obtain ⟨q, vars, bounds, hacts, hsolo, hbounds, -, hshows⟩ :=
      follows_apply_some h himpl ho.shows happly hbounds'
    have hnested := (ho.mono hacts.toBecomes).nestedAll hshows
    obtain ⟨r, last, hr, hiff⟩ := hspeculate hacts.of hnested hr'
    refine (returns_viable hs).mpr ⟨⟨last, returns_weigh.mpr (Or.inr ?_)⟩, rfl⟩
    refine ⟨vars, q.solo, bounds, r, hsolo, hbounds, hr, ?_⟩
    rw [Bool.eq_iff_iff, List.isEmpty_iff, List.isEmpty_iff]
    exact hiff.symm

theorem candidates_alone (h : p.Of env) (hprogram : program.VarFree) (ho : p.Matches env o o')
    {cs : List Impl} (hcs : (candidates program speculate o').Returns env cs env) :
    (candidates program speculate o).Returns p.solo cs p.solo := by
  obtain ⟨⟨htests, hweighed, rfl⟩, -⟩ := (returns_candidates hs).mp hcs
  have hid := ho.shows.id_eq
  have htests' : ∀ impl ∈ program.implsOf o.trait.id, ∀ b,
      (unifies o' impl).Returns env b env → (unifies o impl).Returns p.solo b p.solo :=
    fun impl himpl b => unifies_alone h (hprogram impl (Program.mem_implsOf.mp himpl).1) ho
  have hunifiable : unifiable program o p.solo = unifiable program o' env := by
    rw [unifiable, unifiable, hid]
    apply List.filter_congr
    intro impl himpl
    obtain ⟨b, hb⟩ := htests impl (hid ▸ himpl)
    rw [verdict_eq (htests' impl himpl b hb), verdict_eq hb]
  have hweighed' : ∀ impl ∈ unifiable program o' env, ∀ b,
      (viable speculate o' impl).Returns env b env →
        (viable speculate o impl).Returns p.solo b p.solo := by
    intro impl himpl b
    have hmem := (Program.mem_implsOf.mp (List.mem_of_mem_filter himpl)).1
    exact viable_alone hs hspeculate h (hprogram impl hmem) ho
  refine (returns_candidates hs).mpr ⟨⟨fun impl himpl => ?_, fun hmany impl himpl => ?_, ?_⟩, rfl⟩
  · obtain ⟨b, hb⟩ := htests impl (hid ▸ himpl)
    exact ⟨b, htests' impl himpl b hb⟩
  · rw [hunifiable] at hmany himpl
    obtain ⟨b, hb⟩ := hweighed hmany impl himpl
    exact ⟨b, hweighed' impl himpl b hb⟩
  · rw [contenders, contenders, hunifiable]
    by_cases hone : (unifiable program o' env).length = 1
    · rw [if_pos hone, if_pos hone]
    · rw [if_neg hone, if_neg hone]
      apply List.filter_congr
      intro impl himpl
      obtain ⟨b, hb⟩ := hweighed hone impl himpl
      rw [verdict_eq hb, verdict_eq (hweighed' impl himpl b hb)]

/-- An obligation is settled alone as it is settled in the whole run. -/
theorem settled_alone (h : p.Of env) (hprogram : program.VarFree) (ho : p.Matches env o o')
    {x' : Resolution × List Obligation} (hx : Settled maxDepth program speculate o' env x' left) :
    ∃ q x, p.Acts env q left ∧ Settled maxDepth program speculate o p.solo x q.solo ∧
      q.Reflects left x.1 x'.1 ∧ List.Forall₂ (q.Matches left) x.2 x'.2 := by
  have hbeyond : beyond maxDepth o = beyond maxDepth o' := by rw [beyond, beyond, ho.depth_eq]
  cases hx with
  | overflow hdepth =>
      exact ⟨p, _, acts_refl h, .overflow (hbeyond.trans hdepth), ⟨.nil, .nil, .cons ho .nil, .nil⟩,
        .nil⟩
  | decided hdepth hcs hdecided =>
      have hdepth := hbeyond.trans hdepth
      have hcs' := candidates_alone hs hspeculate h hprogram ho hcs
      cases hdecided with
      | confirmed happly hbounds' =>
          obtain ⟨himpl, -⟩ := mem_impls_of_mem_candidates hs hcs (List.mem_singleton.mpr rfl)
          obtain ⟨q, vars, bounds, hacts, hsolo, hbounds, hvars, hshows⟩ :=
            follows_apply_some h (hprogram _ himpl) ho.shows happly hbounds'
          have ho' := ho.mono hacts.toBecomes
          exact ⟨q, _, hacts, .decided hdepth hcs' (.confirmed hsolo hbounds),
            ⟨.cons ⟨ho', rfl, hvars⟩ .nil, .nil, .nil, .nil⟩, ho'.nestedAll hshows⟩
      | noImpl hknown =>
          have hknown := ho.fullyBound_eq.trans hknown
          exact ⟨p, _, acts_refl h, .decided hdepth hcs' (.noImpl hknown),
            ⟨.nil, .nil, .nil, .cons ho .nil⟩, .nil⟩
      | notEnoughTypes hopen =>
          have hopen := ho.fullyBound_eq.trans hopen
          exact ⟨p, _, acts_refl h, .decided hdepth hcs' (.notEnoughTypes hopen),
            ⟨.nil, .cons ho .nil, .nil, .nil⟩, .nil⟩
      | ambiguous first second others =>
          exact ⟨p, _, acts_refl h, .decided hdepth hcs' (.ambiguous first second others),
            ⟨.nil, .cons ho .nil, .nil, .nil⟩, .nil⟩

theorem settle_alone (h : p.Of env) (hprogram : program.VarFree) (ho : p.Matches env o o')
    {x' : Resolution × List Obligation}
    (hx : (settle maxDepth program speculate o').Returns env x' left) :
    ∃ q x, p.Acts env q left ∧
      p.Settles env (settle maxDepth program speculate o) [o'] q left x x' := by
  have hsettled := (returns_settle hs).mp hx
  obtain ⟨q, x, hacts, hsolo, hreflects, hnested⟩ :=
    settled_alone hs hspeculate h hprogram ho hsettled
  exact ⟨q, x, hacts, hacts.toBecomes, (returns_settle hs).mpr hsolo, hreflects, hnested,
    hsettled.tallies.1⟩

end Settle

section SettleAll

variable {settleOne : Obligation → Engine (Resolution × List Obligation)}
  {x x' y y' : Resolution × List Obligation}

theorem settles_nil (h : p.Of env) :
    p.Settles env (settleAll settleOne []) [] p env (.empty, []) (.empty, []) where
  becomes := becomes_refl h
  returns := returns_settleAll_nil.mpr ⟨rfl, rfl⟩
  reflects := reflects_empty p env
  nested := .nil
  tallies := Resolution.tallies_empty

theorem Settles.cons {u : Strand} (h : p.Settles env (settleOne o) [o'] q mid x x')
    (hrest : q.Settles mid (settleAll settleOne os) os' u left y y') :
    p.Settles env (settleAll settleOne (o :: os)) (o' :: os') u left
      (x.1 ++ y.1, x.2 ++ y.2) (x'.1 ++ y'.1, x'.2 ++ y'.2) where
  becomes := h.becomes.trans hrest.becomes
  returns := returns_settleAll_cons.mpr ⟨_, _, _, _, _, h.returns, hrest.returns, rfl⟩
  reflects := (h.reflects.mono hrest.becomes).append hrest.reflects
  nested := List.rel_append (h.nested.imp fun _ _ hm => hm.mono hrest.becomes) hrest.nested
  tallies := h.tallies.append hrest.tallies

theorem Settles.after_idle {alone : Engine (Resolution × List Obligation)}
    (hidle : p.Becomes env p mid) (h : p.Settles mid alone os' q left x x') :
    p.Settles env alone os' q left x x' :=
  { h with becomes := hidle.trans h.becomes }

/-- A generation that falls into two sorts is settled as each sort alone. -/
theorem settleAll_splits
    (hstep : ∀ {p env o o' x' left}, Of p env → p.Matches env o o' →
      (settleOne o').Returns env x' left →
      ∃ q x, p.Acts env q left ∧ p.Settles env (settleOne o) [o'] q left x x')
    {u : Strand} {as as' bs bs' : List Obligation} (hmix : Interleaves as' bs' os') (hp : p.Of env)
    (hu : u.Of env) (hdisjoint : ∀ v, p.own v → ¬u.own v)
    (has : List.Forall₂ (p.Matches env) as as') (hbs : List.Forall₂ (u.Matches env) bs bs')
    (h : (settleAll settleOne os').Returns env x' left) :
    ∃ q w x y xa yb, p.Settles env (settleAll settleOne as) as' q left x xa ∧
      u.Settles env (settleAll settleOne bs) bs' w left y yb ∧ (∀ v, q.own v → ¬w.own v) ∧
      xa.1.Interleaves yb.1 x'.1 ∧ Interleaves xa.2 yb.2 x'.2 := by
  induction hmix generalizing p u env as bs x' with
  | nil =>
      cases has
      cases hbs
      obtain ⟨rfl, rfl⟩ := returns_settleAll_nil.mp h
      exact ⟨p, u, _, _, _, _, settles_nil hp, settles_nil hu, hdisjoint, .empty_right _, .nil⟩
  | left o' hmix ih =>
      obtain ⟨o, as, ho, htail, rfl⟩ := List.forall₂_cons_right_iff.mp has
      obtain ⟨r', nested', mid, rs', rest', hone, hall, rfl⟩ := returns_settleAll_cons.mp h
      obtain ⟨q, x, hacts, hone⟩ := hstep hp ho hone
      obtain ⟨hidle, hdisjoint⟩ := hacts.idle hu hdisjoint
      obtain ⟨q', w, y, z, ya, zb, hq, hw, hdisjoint, hr, hnested⟩ := ih hacts.of hidle.of hdisjoint
        (htail.imp fun _ _ hm => hm.mono hacts.toBecomes) (hbs.imp fun _ _ hm => hm.mono hidle) hall
      exact ⟨q', w, _, z, _, zb, hone.cons hq, hw.after_idle hidle, hdisjoint,
        (Resolution.Interleaves.empty_right r').append hr,
        (Interleaves.nil_right nested').append hnested⟩
  | right o' hmix ih =>
      obtain ⟨o, bs, ho, htail, rfl⟩ := List.forall₂_cons_right_iff.mp hbs
      obtain ⟨r', nested', mid, rs', rest', hone, hall, rfl⟩ := returns_settleAll_cons.mp h
      obtain ⟨w, y, hacts, hone⟩ := hstep hu ho hone
      obtain ⟨hidle, hdisjoint⟩ := hacts.idle hp fun v hv hv' => hdisjoint v hv' hv
      obtain ⟨q, w', x, z, xa, zb, hq, hw, hdisjoint, hr, hnested⟩ := ih hidle.of hacts.of
        (fun v hv hv' => hdisjoint v hv' hv) (has.imp fun _ _ hm => hm.mono hidle)
        (htail.imp fun _ _ hm => hm.mono hacts.toBecomes) hall
      exact ⟨q, w', x, _, xa, _, hq.after_idle hidle, hone.cons hw, hdisjoint,
        (Resolution.Interleaves.empty_right r').symm.append hr,
        (Interleaves.nil_right nested').symm.append hnested⟩

end SettleAll

/-- While the obligations `os'` of a strand are resolved in the whole run, the run alone resolves
what matches them. -/
structure Resolves (p : Strand) (env : Env) (alone : Engine Resolution) (os' : List Obligation)
    (q : Strand) (left : Env) (r r' : Resolution) : Prop where
  becomes : p.Becomes env q left
  returns : alone.Returns p.solo r q.solo
  reflects : q.Reflects left r r'
  accounts : r'.Accounts os'

section ResolveWithin

variable {program : Program} {maxDepth : Int} {n : Nat}

theorem resolves_zero (h : p.Of env) (hos : List.Forall₂ (p.Matches env) os os')
    (hbeyond : ∀ o ∈ os', beyond maxDepth o = true) :
    p.Resolves env (resolveWithin maxDepth program 0 os) os' p env (.ofOverflow os)
      (.ofOverflow os') where
  becomes := becomes_refl h
  returns := by
    refine returns_resolveWithin_zero.mpr ⟨fun o ho => ?_, rfl, rfl⟩
    obtain ⟨o', ho', hmatches⟩ := exists_of_mem_left hos ho
    rw [beyond, ← hmatches.depth_eq]
    exact hbeyond o' ho'
  reflects := ⟨.nil, .nil, hos, .nil⟩
  accounts := by
    have hrun : (resolveWithin maxDepth program 0 os').Returns env (.ofOverflow os') env :=
      returns_resolveWithin_zero.mpr ⟨hbeyond, rfl, rfl⟩
    exact (resolveWithin_accounts hrun).1

theorem Settles.resolves {u : Strand} {x x' : Resolution × List Obligation}
    (h : p.Settles env (settleAll (settle maxDepth program (resolveWithin maxDepth program n)) os)
      os' q mid x x')
    (hrest : q.Resolves mid (resolveWithin maxDepth program n x.2) x'.2 u left r r') :
    p.Resolves env (resolveWithin maxDepth program (n + 1) os) os' u left (x.1 ++ r)
      (x'.1 ++ r') where
  becomes := h.becomes.trans hrest.becomes
  returns := returns_resolveWithin_succ.mpr ⟨_, _, _, _, h.returns, hrest.returns, rfl⟩
  reflects := (h.reflects.mono hrest.becomes).append hrest.reflects
  accounts := h.tallies.accounts hrest.accounts

/-- The strand to which nothing belongs. -/
def vacant (env : Env) : Strand :=
  ⟨env, id, "", fun _ => False⟩

theorem vacant_of (henv : env.Valid) : (vacant env).Of env :=
  ⟨henv, henv, strictMono_id, fun _ hi => hi, False.elim⟩

/-- Beside a strand without obligations, a strand finds all that has no impl. -/
theorem Resolves.noImpl_iff {u w : Strand} {alone : Engine Resolution} {a b ra rb : Resolution}
    (ha : p.Resolves env alone os' q left a ra)
    (hb : u.Resolves env (resolveWithin maxDepth program n []) [] w left b rb)
    (hr : ra.Interleaves rb r') : a.noImpl = [] ↔ r'.noImpl = [] := by
  have hempty : b = .empty := by
    have hreturns := hb.returns
    cases n <;> exact (returns_pure.mp hreturns).1
  subst hempty
  have hnone : rb.noImpl = [] := List.forall₂_nil_left_iff.mp hb.reflects.noImpl
  have hnoImpl := hr.noImpl
  rw [hnone] at hnoImpl
  rw [hnoImpl.eq_of_nil_right, ← List.length_eq_zero_iff, ha.reflects.noImpl.length_eq,
    List.length_eq_zero_iff]

/-- Obligations of two sorts without common variables are resolved as each sort alone. -/
theorem resolveWithin_splits (hprogram : program.VarFree) {u : Strand}
    {as as' bs bs' : List Obligation} (hmix : Interleaves as' bs' os') (hp : p.Of env)
    (hu : u.Of env) (hdisjoint : ∀ v, p.own v → ¬u.own v)
    (has : List.Forall₂ (p.Matches env) as as') (hbs : List.Forall₂ (u.Matches env) bs bs')
    (h : (resolveWithin maxDepth program n os').Returns env r' left) :
    ∃ q w a b ra rb, p.Resolves env (resolveWithin maxDepth program n as) as' q left a ra ∧
      u.Resolves env (resolveWithin maxDepth program n bs) bs' w left b rb ∧
      ra.Interleaves rb r' := by
  induction n generalizing p u env os' as as' bs bs' r' left with
  | zero =>
      obtain ⟨hbeyond, rfl, rfl⟩ := returns_resolveWithin_zero.mp h
      refine ⟨p, u, _, _, _, _, resolves_zero hp has fun o ho => ?_,
        resolves_zero hu hbs fun o ho => ?_, .nil, .nil, hmix, .nil⟩
      · exact hbeyond o (hmix.mem_iff.mpr (Or.inl ho))
      · exact hbeyond o (hmix.mem_iff.mpr (Or.inr ho))
  | succ n ih =>
      obtain ⟨first', nested', mid, rest', hall, hrest, rfl⟩ := returns_resolveWithin_succ.mp h
      have hs := grows_resolveWithin maxDepth program n
      have hspeculate : ∀ {p env os os' r' left}, Of p env →
          List.Forall₂ (p.Matches env) os os' →
          (resolveWithin maxDepth program n os').Returns env r' left →
          ∃ r solo, (resolveWithin maxDepth program n os).Returns p.solo r solo ∧
            (r.noImpl = [] ↔ r'.noImpl = []) := by
        intro p env os os' r' left hp hos h
        obtain ⟨q, w, a, b, ra, rb, ha, hb, hr⟩ := ih (.nil_right os') hp (vacant_of hp.whole)
          (fun _ _ => id) hos .nil h
        exact ⟨a, q.solo, ha.returns, ha.noImpl_iff hb hr⟩
      obtain ⟨q, w, x, y, xa, yb, hq, hw, hdisjoint, hfirst, hnested⟩ :=
        settleAll_splits (fun hp ho hx => settle_alone hs hspeculate hp hprogram ho hx) hmix hp hu
          hdisjoint has hbs hall
      obtain ⟨q', w', a, b, ra, rb, ha, hb, hr⟩ :=
        ih hnested hq.becomes.of hw.becomes.of hdisjoint hq.nested hw.nested hrest
      exact ⟨q', w', _, _, _, _, hq.resolves ha, hw.resolves hb, hfirst.append hr⟩

end ResolveWithin

end Strand

end TraitResolution
