import Mathlib.Data.List.Perm.Subperm
import TraitResolution.Proofs.CallProviders
import TraitResolution.Proofs.Endlessness

/-!
# The order of the traits in scope does not matter

A method call looks at the traits in scope that declare the method, each only once, and tests all of
them at a place before it goes on. The tests leave no trace, so their order cannot be told from what
the call does next. It shows in one answer only: where several traits could provide the method, they
are listed in the order in which they stand in scope.

## Implementation notes

Two calls that give up may do so for different reasons, since the first test that gives up ends the
call. `Operation.EndRelated` compares two runs up to that. One of the reasons stands for a call that
never returns, so what is said of calls that fail is said under a greatest depth.
-/

namespace TraitResolution

namespace Engine

open Operation

variable {α : Type} {env : Env} {ds es : List α}

theorem endRelated_report_pure {β : Type} {rel : α → β → Prop} {event event' : Event} {a : α}
    {b : β} (hab : rel a b) :
    EndRelated rel (do report event; pure a : Engine α) (do report event'; pure b) env :=
  endRelated_of_returns ⟨rfl, rfl⟩ ⟨rfl, rfl⟩ hab

/-- Tests that leave no trace select the same elements from a list in another order. -/
theorem endRelated_select {p : α → Engine Bool} (hp : ∀ a, (p a).Idle env) (hperm : ds.Perm es) :
    EndRelated (fun found found' => found.Perm found' ∧ found.Sublist ds ∧ found'.Sublist es)
      (select p ds) (select p es) env := by
  have hidle : ∀ l : List α, ∀ a ∈ l, ∀ b mid, (p a).Returns env b mid → mid = env :=
    fun l a _ b mid h => h.2.symm.trans (hp a)
  have hselect : ∀ l : List α, (∀ a ∈ l, ∃ b, (p a).Returns env b env) →
      (select p l).Returns env (l.filter fun a => verdict (p a) env) env :=
    fun l hl => (returns_select (hidle l)).mpr ⟨⟨hl, rfl⟩, rfl⟩
  by_cases hds : ∀ a ∈ ds, ∃ b, (p a).Returns env b env
  · have hes : ∀ a ∈ es, ∃ b, (p a).Returns env b env :=
      fun a ha => hds a (hperm.mem_iff.mpr ha)
    apply endRelated_of_returns (hselect ds hds) (hselect es hes)
    exact ⟨hperm.filter _, List.filter_sublist, List.filter_sublist⟩
  · -- some test gives up, whatever the order
    have hfails : ∀ l : List α, l.Perm ds → ∃ e, ((select p l).run env).outcome = .error e := by
      intro l hl
      rw [exists_error_iff]
      rintro ⟨kept, left, h⟩
      obtain ⟨⟨htests, -⟩, -⟩ := (returns_select (hidle l)).mp h
      exact hds fun a ha => htests a (hl.mem_iff.mpr ha)
    apply endRelated_of_error (hfails ds (List.Perm.refl ds)) (hfails es hperm.symm)
    exact (idle_select hp ds).trans (idle_select hp es).symm

end Engine

namespace MethodCall

open Operation Engine

section Declaring

variable {ts us : List Trait} {name : Text} {d e : Declaration}

/-- A trait that declares the method is new if its id is. -/
theorem notMem_of_new {t : Trait} {m : Method} (hm : t.method? name = some m)
    (hnew : ¬(declaring ts name).any (·.trait.id == t.id)) : t ∉ ts := by
  intro ht
  have hdeclares : (t.method? name).isSome := by simp [hm]
  obtain ⟨d, hd, hid⟩ := exists_mem_declaring ht hdeclares
  exact hnew (List.any_eq_true.mpr ⟨d, hd, by simpa using hid⟩)

/-- The declarations are kept in the order in which their traits first stand in scope. -/
theorem pairwise_declaring (ts : List Trait) (name : Text) :
    (declaring ts name).Pairwise fun d e => ts.idxOf d.trait < ts.idxOf e.trait := by
  induction ts using List.reverseRecOn with
  | nil => exact List.Pairwise.nil
  | append_singleton ts t ih =>
      have hkept : ∀ d ∈ declaring ts name, (ts ++ [t]).idxOf d.trait = ts.idxOf d.trait := by
        intro d hd
        rw [List.idxOf_append, if_pos (mem_declaring hd).1]
      have hordered : (declaring ts name).Pairwise fun d e =>
          (ts ++ [t]).idxOf d.trait < (ts ++ [t]).idxOf e.trait := by
        apply ih.imp_of_mem
        intro d e hd he hlt
        rw [hkept d hd, hkept e he]
        exact hlt
      rw [declaring_concat]
      split
      · exact hordered
      · rename_i m hm
        split
        · exact hordered
        · rename_i hnew
          rw [List.pairwise_append]
          refine ⟨hordered, List.pairwise_singleton _ _, ?_⟩
          intro d hd e he
          obtain rfl := List.mem_singleton.mp he
          have hlt : ts.idxOf d.trait < ts.length :=
            List.idxOf_lt_length_of_mem (mem_declaring hd).1
          rw [hkept d hd, List.idxOf_append, if_neg (notMem_of_new hm hnew)]
          omega

theorem nodup_declaring (ts : List Trait) (name : Text) : (declaring ts name).Nodup := by
  apply (pairwise_declaring ts name).imp
  rintro d e hlt rfl
  exact Nat.lt_irrefl _ hlt

/-- Where an id stands for one trait, every trait in scope that declares the method is kept. -/
theorem mem_declaring_iff (hids : ∀ t ∈ ts, ∀ u ∈ ts, t.id = u.id → t = u) :
    d ∈ declaring ts name ↔ d.trait ∈ ts ∧ d.trait.method? name = some d.method := by
  constructor
  · exact mem_declaring
  · rintro ⟨ht, hmethod⟩
    have hdeclares : (d.trait.method? name).isSome := by simp [hmethod]
    obtain ⟨e, he, hid⟩ := exists_mem_declaring ht hdeclares
    obtain ⟨hu, hmethod'⟩ := mem_declaring he
    have htrait : e.trait = d.trait := hids _ hu _ ht hid
    have hsame : e.method = d.method := by
      rw [htrait, hmethod] at hmethod'
      exact (Option.some.inj hmethod').symm
    obtain ⟨trait, method⟩ := d
    obtain ⟨trait', method'⟩ := e
    simp only at htrait hsame
    rw [← htrait, ← hsame]
    exact he

/-- Two scopes with the same traits keep the same declarations. -/
theorem declaring_perm (hids : ∀ t ∈ ts, ∀ u ∈ ts, t.id = u.id → t = u)
    (hset : ∀ t, t ∈ ts ↔ t ∈ us) (name : Text) :
    (declaring ts name).Perm (declaring us name) := by
  have hids' : ∀ t ∈ us, ∀ u ∈ us, t.id = u.id → t = u :=
    fun t ht u hu => hids t ((hset t).mpr ht) u ((hset u).mpr hu)
  rw [List.perm_ext_iff_of_nodup (nodup_declaring ts name) (nodup_declaring us name)]
  intro d
  rw [mem_declaring_iff hids, mem_declaring_iff hids', hset]

end Declaring

/-- Some traits of a scope, in the order in which they first stand there. -/
structure InOrderOf (scope traits : List Trait) : Prop where
  mem : ∀ t ∈ traits, t ∈ scope
  ordered : traits.Pairwise fun t u => scope.idxOf t < scope.idxOf u

theorem inOrderOf_of_sublist {ts : List Trait} {name : Text} {found : List Declaration}
    (h : found.Sublist (declaring ts name)) : InOrderOf ts (found.map (·.trait)) := by
  constructor
  · intro t ht
    obtain ⟨d, hd, rfl⟩ := List.mem_map.mp ht
    exact (mem_declaring (h.subset hd)).1
  · rw [List.pairwise_map]
    exact (pairwise_declaring ts name).sublist h

/-- The answers to one call with two scopes. They are the same unless several traits could provide
the method: then both list the same traits, each in the order of its own scope. -/
inductive AnsweredAlike (ts us : List Trait) : MethodResult → MethodResult → Prop
  | same {result : MethodResult} (hresult : ∀ traits, result ≠ .ambiguous traits) :
      AnsweredAlike ts us result result
  | ambiguous {as bs : List Trait} (hmem : ∀ t, t ∈ as ↔ t ∈ bs) (has : InOrderOf ts as)
      (hbs : InOrderOf us bs) : AnsweredAlike ts us (.ambiguous as) (.ambiguous bs)

theorem AnsweredAlike.kind_eq {ts us : List Trait} {r s : MethodResult}
    (h : AnsweredAlike ts us r s) : r.kind = s.kind := by
  cases h with
  | same _ => rfl
  | ambiguous _ _ _ => rfl

namespace Lookup

variable {cx : Lookup} {ts us : List Trait} {env : Env}

/-- The same call with other declarations. -/
def among (cx : Lookup) (declarations : List Declaration) : Lookup :=
  { cx with declarations }

theorem makeMutable_among (cx : Lookup) (ds : List Declaration) (place : Place) :
    (cx.among ds).makeMutable place = cx.makeMutable place := by
  induction place with
  | receiver t => rfl
  | deref kind input target evidence ih =>
      cases kind with
      | mutable => rfl
      | shared =>
          rw [makeMutable, makeMutable, ih]
          rfl

theorem reconcile_among (cx : Lookup) (ds : List Declaration) (m : Method) (ref : Reference)
    (evidence : Resolution) (selfType : Ty) (places : List Place) :
    (cx.among ds).reconcile m ref evidence selfType places =
      cx.reconcile m ref evidence selfType places := by
  induction places with
  | nil => rfl
  | cons place rest ih =>
      rw [reconcile, reconcile, makeMutable_among, ih]
      rfl

/-- What is done with the one trait that could provide the method does not depend on others. -/
theorem call_among (cx : Lookup) (ds : List Declaration) (place : Place) (d : Declaration) :
    (cx.among ds).call place d = cx.call place d := by
  simp only [call, reconcile_among]
  rfl

/-- Only a choice between traits is ambiguous. -/
theorem call_ne_ambiguous {place : Place} {d : Declaration} {result : MethodResult} {left : Env}
    (h : (cx.call place d).Returns env result left) (traits : List Trait) :
    result ≠ .ambiguous traits := by
  rintro rfl
  obtain ⟨ref, evidence, mid, selfType, -, -, -, hreconciled⟩ := returns_call h
  obtain ⟨-, hresult | ⟨place, -, hresult⟩⟩ := hreconciled.unmatched (by simp)
  · cases hresult
  · cases hresult

/-- At a place, two calls with the same declarations in another order do the same, if they go on
alike where no declaration could provide the method. -/
theorem endRelated_choose {ds es : List Declaration} (hperm : ds.Perm es)
    (hds : ∀ found : List Declaration, found.Sublist ds → InOrderOf ts (found.map (·.trait)))
    (hes : ∀ found : List Declaration, found.Sublist es → InOrderOf us (found.map (·.trait)))
    (place : Place) {otherwise otherwise' : Engine MethodResult}
    (hotherwise : EndRelated (AnsweredAlike ts us) otherwise otherwise' env) :
    EndRelated (AnsweredAlike ts us) ((cx.among ds).choose place otherwise)
      ((cx.among es).choose place otherwise') env := by
  have hidle : ∀ d, (cx.couldApply place d).Idle env := fun d => cx.idle_couldApply place d
  apply (endRelated_select hidle hperm).bind
  rintro found found' mid hfound - ⟨hsame, hfrom, hfrom'⟩
  obtain rfl : mid = env := hfound.2.symm.trans (idle_select hidle ds)
  rcases found with _ | ⟨d, _ | ⟨e, found⟩⟩
  · obtain rfl := List.nil_perm.mp hsame
    exact hotherwise
  · obtain rfl := List.singleton_perm.mp hsame
    have hcall : ∀ ds, (cx.among ds).call place d = cx.call place d :=
      fun ds => call_among cx ds place d
    simp only [hcall]
    rcases (endRelated_refl (cx.call place d) mid).cases with
      ⟨r, s, left, hr, hs, rfl⟩ | ⟨hx, hy⟩
    · exact endRelated_of_returns hr hs (.same (call_ne_ambiguous hr))
    · exact endRelated_of_error hx hy rfl
  · obtain ⟨d', e', others, rfl⟩ : ∃ d' e' others, found' = d' :: e' :: others := by
      rcases found' with _ | ⟨d', _ | ⟨e', others⟩⟩
      · simpa using hsame.length_eq
      · simpa using hsame.length_eq
      · exact ⟨d', e', others, rfl⟩
    apply endRelated_report_pure
    exact .ambiguous (fun t => (hsame.map _).mem_iff) (hds _ hfrom) (hes _ hfrom')

theorem endRelated_search (cx : Lookup) {ds es : List Declaration} (hperm : ds.Perm es)
    (hds : ∀ found : List Declaration, found.Sublist ds → InOrderOf ts (found.map (·.trait)))
    (hes : ∀ found : List Declaration, found.Sublist es → InOrderOf us (found.map (·.trait)))
    (n : Nat) (place : Place) :
    EndRelated (AnsweredAlike ts us) ((cx.among ds).search n place) ((cx.among es).search n place)
      env := by
  induction n generalizing place env with
  | zero => exact endRelated_choose hperm hds hes place (endRelated_report_pure (.same (by simp)))
  | succ n ih =>
      apply endRelated_choose hperm hds hes place
      -- a dereference is resolved before anything depends on the traits in scope again
      apply EndRelated.after fresh
      intro v mid _
      apply EndRelated.after (cx.resolveRef "deref" (Place.derefRef .shared place (.var v)))
      intro r left _
      cases hholds : derefHolds r with
      | false => exact endRelated_report_pure (.same (by simp))
      | true =>
          apply EndRelated.after (report (.dereferenced cx.name place (.var v)))
          intro _ later _
          exact ih _

end Lookup

/-- Which traits are in scope settles what a method call does, whatever their order and however
often they stand there, as long as an id stands for one trait. With two lists of the same traits the
call returns with both or with neither and leaves the same environment, and two answers are alike:
of one kind, and the same but for the order in which traits are listed as ambiguous. With a greatest
depth the call fails with both lists or with neither. -/
theorem resolve_alike_of_same_traits (config : Config) (program : Program) (receiver : Ty)
    (name : Text) (env : Env) {ts us : List Trait}
    (hids : ∀ t ∈ ts, ∀ u ∈ ts, t.id = u.id → t = u) (hset : ∀ t, t ∈ ts ↔ t ∈ us) :
    let first := resolve config program receiver ts name
    let second := resolve config program receiver us name
    (config.maxDepth + 1 < Number.signedLimit → (Fails first env ↔ Fails second env)) ∧
    ((∃ r left, first.Returns env r left) ↔ ∃ s left, second.Returns env s left) ∧
    (first.run env).env = (second.run env).env ∧
    ∀ r s left left', first.Returns env r left → second.Returns env s left' →
      r.kind = s.kind ∧ left = left' ∧ AnsweredAlike ts us r s := by
  intro first second
  have hrelated : EndRelated (AnsweredAlike ts us) first second env :=
    Lookup.endRelated_search ⟨config, program, [], name⟩ (declaring_perm hids hset name)
      (fun _ => inOrderOf_of_sublist) (fun _ => inOrderOf_of_sublist) _ _
  have hreturns : (∃ r left, first.Returns env r left) ↔ ∃ s left, second.Returns env s left := by
    rw [← not_iff_not, ← exists_error_iff, ← exists_error_iff]
    exact hrelated.error_iff
  refine ⟨fun hlimit => ?_, hreturns, hrelated.env, ?_⟩
  · rw [(concludes_resolve program hlimit receiver ts name).fails_iff,
      (concludes_resolve program hlimit receiver us name).fails_iff]
    exact not_congr hreturns
  · intro r s left left' hr hs
    have halike : AnsweredAlike ts us r s := hrelated.rel_of_returns hr hs
    refine ⟨halike.kind_eq, ?_, halike⟩
    calc left = (first.run env).env := hr.2.symm
      _ = (second.run env).env := hrelated.env
      _ = left' := hs.2

/-- A trait of things with a length. -/
def measuring : Trait :=
  ⟨"Measure", [false], [⟨"len", .param 0⟩]⟩

/-- Another trait of things with a length. -/
def counting : Trait :=
  ⟨"Count", [false], [⟨"len", .param 0⟩]⟩

/-- Both traits are implemented for vectors. -/
def measured : Program :=
  ⟨[measuring, counting], [⟨"MeasureVec", [], ⟨"Measure", .con "Vec" [], []⟩⟩,
    ⟨"CountVec", [], ⟨"Count", .con "Vec" [], []⟩⟩]⟩

/-- What is measured has a measure, and vectors are counted with one type too many. -/
def mismeasured : Program :=
  ⟨[measuring, counting], [Solver.blanket "MeasureMeasured" "Measure" "Measure",
    ⟨"CountVec", [], ⟨"Count", .con "Vec" [], [.con "Int" []]⟩⟩]⟩

/-- A vector has two lengths, and which one is listed first is up to the scope. A malformed impl is
found in either order. -/
theorem resolve_alike_of_same_traits_measured :
    (∃ left,
      (resolve .default measured (.con "Vec" []) [measuring, counting, measuring] "len").Returns
        .empty (.ambiguous [measuring, counting]) left ∧
      (resolve .default measured (.con "Vec" []) [counting, measuring] "len").Returns
        .empty (.ambiguous [counting, measuring]) left ∧
      AnsweredAlike [measuring, counting, measuring] [counting, measuring]
        (.ambiguous [measuring, counting]) (.ambiguous [counting, measuring])) ∧
    Fails (resolve .default mismeasured (.con "Vec" []) [measuring, counting, measuring] "len")
      .empty ∧
    Fails (resolve .default mismeasured (.con "Vec" []) [counting, measuring] "len") .empty := by
  have hfirst : ∃ left,
      (resolve .default measured (.con "Vec" []) [measuring, counting, measuring] "len").Returns
        .empty (.ambiguous [measuring, counting]) left := ⟨_, rfl, rfl⟩
  have hsecond : ∃ left,
      (resolve .default measured (.con "Vec" []) [counting, measuring] "len").Returns
        .empty (.ambiguous [counting, measuring]) left := ⟨_, rfl, rfl⟩
  obtain ⟨left, hfirst⟩ := hfirst
  obtain ⟨left', hsecond⟩ := hsecond
  have hset : ∀ t, t ∈ [measuring, counting, measuring] ↔ t ∈ [counting, measuring] := by
    simp [or_comm]
  obtain ⟨-, -, -, halike⟩ := resolve_alike_of_same_traits .default measured (.con "Vec" []) "len"
    .empty (by decide) hset
  obtain ⟨-, rfl, hanswers⟩ := halike _ _ _ _ hfirst hsecond
  have hfails : Fails (resolve .default mismeasured (.con "Vec" []) [counting, measuring] "len")
      .empty := ⟨_, rfl, by decide⟩
  obtain ⟨hboth, -⟩ := resolve_alike_of_same_traits .default mismeasured (.con "Vec" []) "len"
    .empty (by decide) hset
  exact ⟨⟨left, hfirst, hsecond, hanswers⟩, (hboth (by decide)).mpr hfails, hfails⟩

/-- The first trait in scope is tested first. -/
theorem Lookup.neverReturns_search {cx : Lookup} {place : Place} {d : Declaration}
    {ds : List Declaration} {env : Env} (hds : cx.declarations = d :: ds)
    (htest : NeverReturns (cx.resolveTrait place.type d.trait) env) (n : Nat) :
    NeverReturns (cx.search n place) env := by
  have hcouldApply : NeverReturns (cx.couldApply place d) env :=
    (htest.bind _).probe ((cx.grows_resolveTrait _ _).bind fun _ => grows_pure _)
  have hchoose : ∀ otherwise, NeverReturns (cx.choose place otherwise) env := by
    intro otherwise
    rw [choose, hds]
    exact (hcouldApply.bind _).bind _
  cases n with
  | zero => exact hchoose _
  | succ n => exact hchoose _

/-- Without a greatest depth it depends on the order of two traits in scope whether a call goes on
for ever or comes across a malformed impl. -/
theorem resolve_heeds_scope_order_without_limit :
    NeverReturns (resolve ⟨9223372036854775807, 8⟩ mismeasured (.con "Vec" [])
      [measuring, counting] "len") .empty ∧
    Fails (resolve ⟨9223372036854775807, 8⟩ mismeasured (.con "Vec" [])
      [counting, measuring] "len") .empty := by
  refine ⟨?_, ⟨_, rfl, by decide⟩⟩
  let cx : Lookup := ⟨⟨9223372036854775807, 8⟩, mismeasured,
    declaring [measuring, counting] "len", "len"⟩
  have hdeclarations : cx.declarations =
      [⟨measuring, ⟨"len", .param 0⟩⟩, ⟨counting, ⟨"len", .param 0⟩⟩] := rfl
  have hresolve : NeverReturns (cx.resolveRef "method" ⟨"Measure", .con "Vec" [], []⟩) .empty :=
    Solver.neverReturns_resolveWithin (by decide) rfl _
      (Solver.demanded_con Env.typed_empty "method" "Measure" "Vec")
  have htest : NeverReturns (cx.resolveTrait (Place.receiver (.con "Vec" [])).type measuring)
      .empty := GivesUpFor.after (hresolve.bind _) (returns_pure.mpr ⟨rfl, rfl⟩)
  exact Lookup.neverReturns_search hdeclarations htest 8

end MethodCall

end TraitResolution
