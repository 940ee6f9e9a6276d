import TraitResolution.Proofs.Accounting
import TraitResolution.Proofs.Calls

/-!
# Method calls are well typed

A method that is found is declared by a trait in scope, and its receiver type is the type of the
adjusted receiver. The adjusted receiver is the given one with dereferences around it and at most
one borrow outside. Each dereference rests on a resolution in which it is confirmed, and all of them
are shared, or mutable if the receiver is borrowed mutably.

## Implementation notes

What is said of dereferences does not mention the environment, so it survives the unifications that
follow. The two types agree in every later environment, since unification leaves only solutions that
make them equal.
-/

namespace TraitResolution

namespace Env

variable {env mid left : Env} {eqs : List (Ty × Ty)} {a b : Ty}

/-- Types that were unified resolve to the same from then on. -/
theorem Solved.resolve_eq (h : env.Solved eqs mid) (hextends : left.Extends mid)
    (hleft : left.Consistent) (hmem : (a, b) ∈ eqs) : left.resolve a = left.resolve b := by
  have hsolved := hleft.solvedBy_answer.of_extends hextends
  have hequates := ((h.solvedBy_iff left.answer).mp hsolved).2
  rw [resolve_eq_replaceVars, resolve_eq_replaceVars]
  exact hequates (a, b) hmem

end Env

namespace Solver

open Operation

/-- If anything is confirmed when a single obligation is resolved, then that obligation is. -/
theorem exists_confirmed_of_resolve {config : Config} {program : Program} {o : Obligation}
    {env left : Env} {r : Resolution} (h : (resolve config program [o]).Returns env r left)
    (hne : r.confirmed ≠ []) : ∃ c ∈ r.confirmed, c.obligation = o := by
  rw [resolve] at h
  generalize generations config.maxDepth [o] = n at h
  cases n with
  | zero =>
      obtain ⟨-, rfl, -⟩ := returns_resolveWithin_zero.mp h
      exact absurd rfl hne
  | succ n =>
      obtain ⟨first, nested, mid, rest, hall, hrest, rfl⟩ := returns_resolveWithin_succ.mp h
      obtain ⟨htallies, -⟩ := generation_tallies hall
      cases hfirst : first.confirmed with
      | nil =>
          -- nothing arises then, so nothing is confirmed later
          have harising : nested = first.confirmed.flatMap (·.arising) := htallies.nested_eq
          obtain rfl : nested = [] := by rw [harising, hfirst, List.flatMap_nil]
          have hnil : resolveWithin config.maxDepth program n [] = pure .empty := by
            cases n <;> rfl
          rw [hnil] at hrest
          obtain ⟨rfl, -⟩ := returns_pure.mp hrest
          exact absurd (List.append_eq_nil_iff.mpr ⟨hfirst, rfl⟩) hne
      | cons c cs =>
          have hc : c ∈ first.confirmed := hfirst ▸ List.mem_cons_self
          refine ⟨c, List.mem_append_left _ hc, ?_⟩
          have hmem : c.obligation ∈ first.buckets.flatten :=
            List.mem_append_left _ (List.mem_map_of_mem hc)
          exact List.mem_singleton.mp (htallies.perm.mem_iff.mp hmem)

end Solver

/-- A resolution shows a reference: the obligation for it is confirmed, and none lacks an impl. -/
structure Resolution.Shows (r : Resolution) (ref : Reference) : Prop where
  noImpl : r.noImpl = []
  confirmed : ∃ c ∈ r.confirmed, ∃ id, c.obligation = .topLevel id ref

namespace Place

variable {kind : DerefKind} {receiver : Ty} {place p : Place}

/-- A place reached from a receiver by dereferences of one kind, each of which was shown. -/
inductive ReachedBy (kind : DerefKind) (receiver : Ty) : Place → Prop
  | receiver : ReachedBy kind receiver (.receiver receiver)
  | deref {input : Place} {target : Ty} {evidence : Resolution}
      (hinput : ReachedBy kind receiver input)
      (hshows : evidence.Shows (derefRef kind input target)) :
      ReachedBy kind receiver (.deref kind input target evidence)

/-- What a place was reached from was reached the same way, by no more dereferences. -/
theorem ReachedBy.of_mem_chain (h : place.ReachedBy kind receiver) (hp : p ∈ place.chain) :
    p.ReachedBy kind receiver ∧ p.derefs ≤ place.derefs := by
  induction h with
  | receiver =>
      obtain rfl := List.mem_singleton.mp hp
      exact ⟨.receiver, Nat.le_refl _⟩
  | deref hinput hshows ih =>
      rcases List.mem_cons.mp hp with rfl | hp
      · exact ⟨.deref hinput hshows, Nat.le_refl _⟩
      · obtain ⟨hreached, hle⟩ := ih hp
        exact ⟨hreached, Nat.le_succ_of_le hle⟩

theorem ReachedBy.getLast?_chain (h : place.ReachedBy kind receiver) :
    place.chain.getLast? = some (.receiver receiver) := by
  induction h with
  | receiver => rfl
  | deref hinput hshows ih => rw [chain, List.getLast?_cons, ih, Option.getD_some]

end Place

/-- The kind of dereference that a way of borrowing needs. -/
def Borrow.derefKind : Borrow → DerefKind
  | mutable => .mutable
  | byValue | shared => .shared

namespace MethodCall

open Operation Engine

namespace Lookup

variable {cx : Lookup} {place made : Place} {receiver : Ty} {env left : Env} {m : Method}
  {ref : Reference} {evidence : Resolution} {adjusted : Adjusted} {n : Nat}

theorem shows_of_resolveRef {id : Text} {r : Resolution}
    (h : (cx.resolveRef id ref).Returns env r left) (hholds : derefHolds r = true) :
    r.Shows ref := by
  obtain ⟨hnoImpl, hconfirmed⟩ := derefHolds_eq_true.mp hholds
  obtain ⟨c, hc, hobligation⟩ := Solver.exists_confirmed_of_resolve h hconfirmed
  exact ⟨hnoImpl, c, hc, id, hobligation⟩

/-- Redoing the dereferences of a place leads to the same type by as many dereferences. -/
theorem makeMutable_reachedBy (hplace : place.ReachedBy .shared receiver)
    (h : (cx.makeMutable place).Returns env (some made) left) :
    made.ReachedBy .mutable receiver ∧ made.type = place.type ∧ made.derefs = place.derefs := by
  induction hplace generalizing made left with
  | receiver =>
      obtain ⟨hmade, -⟩ := returns_pure.mp h
      obtain rfl := Option.some.inj hmade
      exact ⟨.receiver, rfl, rfl⟩
  | deref hinput hshows ih =>
      obtain ⟨input', mid, r, hinput', hresolve, hholds, rfl⟩ := returns_makeMutable_shared h
      obtain ⟨hreached, -, hderefs⟩ := ih hinput'
      exact ⟨.deref hreached (shows_of_resolveRef hresolve hholds), rfl, congrArg (· + 1) hderefs⟩

/-- A method that is found: a trait in scope declares it, and its receiver type was made equal to
the type of a receiver reached by at most `limit` dereferences. -/
structure Accepted (cx : Lookup) (receiver : Ty) (limit : Nat) (ref : Reference) (m : Method)
    (adjusted : Adjusted) (evidence : Resolution) (left : Env) : Prop where
  declared : ∃ d ∈ cx.declarations, d.trait.id = ref.id ∧ d.method = m
  selfType : ∃ (selfType : Ty) (env mid : Env), m.selfType.subst ref.types = .ok selfType ∧
    env.Solved [(selfType, adjusted.type)] mid ∧ left.Extends mid
  reached : adjusted.place.ReachedBy adjusted.borrow.derefKind receiver
  derefs_le : adjusted.place.derefs ≤ limit
  noImpl : evidence.noImpl = []

/-- If a method is found, it accepts one of the places it was matched with. -/
theorem Reconciled.accepted {d : Declaration} {found : Reference} {basis : Resolution}
    {selfType : Ty} {places : List Place}
    (h : Reconciled cx d.method ref evidence selfType env places (.found found m adjusted basis)
      left)
    (hplaces : ∀ p ∈ places, p.ReachedBy .shared receiver ∧ p.derefs ≤ n)
    (hd : d ∈ cx.declarations) (hid : d.trait.id = ref.id) (hnoImpl : evidence.noImpl = [])
    (hself : d.method.selfType.subst ref.types = .ok selfType) :
    cx.Accepted receiver n found m adjusted basis left := by
  generalize hresult : MethodResult.found found m adjusted basis = result at h
  induction h with
  | exhausted => cases hresult
  | byValue hunify =>
      cases hresult
      obtain ⟨hreached, hderefs⟩ := hplaces _ List.mem_cons_self
      exact ⟨⟨d, hd, hid, rfl⟩, ⟨selfType, env, _, hself, unify_solved hunify, .refl _⟩, hreached,
        hderefs, hnoImpl⟩
  | shared hunify =>
      cases hresult
      obtain ⟨hreached, hderefs⟩ := hplaces _ List.mem_cons_self
      exact ⟨⟨d, hd, hid, rfl⟩, ⟨selfType, env, _, hself, unify_solved hunify, .refl _⟩, hreached,
        hderefs, hnoImpl⟩
  | @mutable place made rest mid left hunify hmade =>
      cases hresult
      obtain ⟨hreached, hderefs⟩ := hplaces _ List.mem_cons_self
      obtain ⟨hmutable, htype, hderefs'⟩ := makeMutable_reachedBy hreached hmade
      have hsolved : env.Solved [(selfType, made.type.mutRef)] mid := htype ▸ unify_solved hunify
      have hextends := hmade.extends_env (cx.grows_makeMutable place)
      exact ⟨⟨d, hd, hid, rfl⟩, ⟨selfType, env, mid, hself, hsolved, hextends⟩, hmutable,
        hderefs' ▸ hderefs, hnoImpl⟩
  | immutable => cases hresult
  | peeled _ _ _ _ ih => exact ih (fun p hp => hplaces p (List.mem_cons_of_mem _ hp)) hresult

theorem call_accepted {d : Declaration} (hplace : place.ReachedBy .shared receiver)
    (hd : d ∈ cx.declarations)
    (h : (cx.call place d).Returns env (.found ref m adjusted evidence) left) :
    cx.Accepted receiver place.derefs ref m adjusted evidence left := by
  obtain ⟨ref', evidence', mid, selfType, hresolve, hnoImpl, hself, hreconciled⟩ := returns_call h
  obtain ⟨params, -, -, href, -⟩ := returns_resolveTrait.mp hresolve
  have hid : d.trait.id = ref'.id := (congrArg Reference.id href).symm
  exact hreconciled.accepted (fun p hp => hplace.of_mem_chain hp) hd hid hnoImpl hself

theorem Accepted.mono {limit : Nat} (h : cx.Accepted receiver n ref m adjusted evidence left)
    (hle : n ≤ limit) : cx.Accepted receiver limit ref m adjusted evidence left :=
  { h with derefs_le := Nat.le_trans h.derefs_le hle }

/-- A search that may dereference `n` more times keeps to that number. -/
theorem search_accepted (hplace : place.ReachedBy .shared receiver)
    (h : (cx.search n place).Returns env (.found ref m adjusted evidence) left) :
    cx.Accepted receiver (place.derefs + n) ref m adjusted evidence left := by
  induction n generalizing env place with
  | zero =>
      rcases chosen_of_returns h with ⟨-, hrest⟩ | ⟨hd, -, hcall⟩
      · rw [returns_report_bind, returns_pure] at hrest
        cases hrest.1
      · exact call_accepted hplace hd hcall
  | succ n ih =>
      rcases chosen_of_returns h with ⟨-, hrest⟩ | ⟨hd, -, hcall⟩
      · obtain ⟨r, mid, hresolve, ⟨hholds, hnext⟩ | ⟨-, hstuck, -⟩⟩ := returns_deref.mp hrest
        · have hdeeper := ih (.deref hplace (shows_of_resolveRef hresolve hholds)) hnext
          exact hdeeper.mono (by simp only [Place.derefs]; omega)
        · cases hstuck
      · exact (call_accepted hplace hd hcall).mono (Nat.le_add_right _ _)

end Lookup

/-- A method that is found is well typed. It is the method of that name of a trait in scope, its
receiver type resolves to the type of the adjusted receiver, and nothing it rests on lacks an impl.
The adjusted receiver is the given one, dereferenced no more often than is allowed. Each dereference
applies to the type before it and is itself confirmed. It is mutable if the receiver is borrowed
mutably, and shared otherwise. -/
theorem resolve_found_wellTyped {config : Config} {program : Program} {receiver : Ty}
    {traits : List Trait} {name : Text} {env left : Env} {ref : Reference} {m : Method}
    {adjusted : Adjusted} {evidence : Resolution} (henv : env.Reachable)
    (h : (resolve config program receiver traits name).Returns env
      (.found ref m adjusted evidence) left) :
    (∃ t ∈ traits, t.id = ref.id ∧ t.method? name = some m) ∧
    (∃ selfType, m.selfType.subst ref.types = .ok selfType ∧
      left.resolve selfType = left.resolve adjusted.type) ∧
    adjusted.place.chain.getLast? = some (.receiver receiver) ∧
    (∀ kind input target shown, .deref kind input target shown ∈ adjusted.place.chain →
      left.resolve (Place.derefRef kind input target).self = left.resolve input.type ∧
      shown.noImpl = [] ∧
      (∃ c ∈ shown.confirmed, ∃ id,
        c.obligation = .topLevel id (Place.derefRef kind input target)) ∧
      kind = if adjusted.borrow = .mutable then .mutable else .shared) ∧
    adjusted.place.derefs ≤ config.maxAutoderef.toNat ∧
    evidence.noImpl = [] := by
  have haccepted := Lookup.search_accepted .receiver h
  obtain ⟨d, hd, hid, rfl⟩ := haccepted.declared
  obtain ⟨htrait, hmethod⟩ := mem_declaring hd
  obtain ⟨selfType, before, after, hself, hsolved, hextends⟩ := haccepted.selfType
  have hleft : left.Consistent :=
    h.2 ▸ (upholds_consistency config program receiver traits name henv.valid.toConsistent).kept
  refine ⟨⟨d.trait, htrait, hid, hmethod⟩, ⟨selfType, hself, ?_⟩,
    haccepted.reached.getLast?_chain, ?_, ?_, haccepted.noImpl⟩
  · exact hsolved.resolve_eq hextends hleft (List.mem_singleton.mpr rfl)
  · intro kind input target shown hmem
    obtain ⟨hderef, -⟩ := haccepted.reached.of_mem_chain hmem
    cases hderef with
    | deref hinput hshows =>
        refine ⟨rfl, hshows.noImpl, hshows.confirmed, ?_⟩
        cases adjusted.borrow <;> rfl
  · simpa [Place.derefs] using haccepted.derefs_le

/-- Things can be pushed onto a mutable reference. -/
def pushing : Trait :=
  ⟨"Push", [false], [⟨"push", (Ty.param 0).mutRef⟩]⟩

/-- Boxes can be dereferenced in both ways, and things can be pushed onto a vector. -/
def boxing : Program :=
  ⟨[pushing], [⟨"DerefBox", [[]], ⟨"Deref", .con "Box" [.param 0], [.param 0]⟩⟩,
    ⟨"DerefMutBox", [[]], ⟨"DerefMut", .con "Box" [.param 0], [.param 0]⟩⟩,
    ⟨"PushVec", [], ⟨"Push", .con "Vec" [], []⟩⟩]⟩

/-- To push onto a vector in two boxes, both are dereferenced mutably. -/
theorem resolve_found_wellTyped_boxing :
    ∃ ref m adjusted evidence left,
      (resolve .default boxing (.con "Box" [.con "Box" [.con "Vec" []]]) [pushing] "push").Returns
        .empty (.found ref m adjusted evidence) left ∧
      adjusted.place.derefs = 2 ∧
      (∃ selfType, m.selfType.subst ref.types = .ok selfType ∧
        left.resolve selfType = left.resolve adjusted.type) ∧
      ∀ kind input target shown, .deref kind input target shown ∈ adjusted.place.chain →
        kind = .mutable := by
  have hrun : ∃ ref m adjusted evidence left,
      (resolve .default boxing (.con "Box" [.con "Box" [.con "Vec" []]]) [pushing] "push").Returns
        .empty (.found ref m adjusted evidence) left ∧
      adjusted.place.derefs = 2 ∧ adjusted.borrow = .mutable :=
    ⟨_, _, _, _, _, ⟨rfl, rfl⟩, rfl, rfl⟩
  obtain ⟨ref, m, adjusted, evidence, left, hrun, hderefs, hborrow⟩ := hrun
  obtain ⟨-, hself, -, hderef, -, -⟩ := resolve_found_wellTyped ⟨[], .empty⟩ hrun
  refine ⟨ref, m, adjusted, evidence, left, hrun, hderefs, hself, ?_⟩
  intro kind input target shown hmem
  have hkind := (hderef kind input target shown hmem).2.2.2
  rwa [hborrow] at hkind

end MethodCall

end TraitResolution
