import Mathlib.Data.Finset.Card
import Mathlib.Data.Set.Function
import TraitResolution.Proofs.CatalogueSafety

/-!
# Inference variables are shared by name

A document writes its inference variables as names that follow question marks. Reading it turns
every name into one variable, whichever obligation or receiver it stands in, and different names
into different variables. The variables are numbered in the order in which their names are met
first, and there are no others.
-/

namespace TraitResolution

namespace TypeExpr

variable {scope : Scope} {vars names : List String} {source : Text} {t : Ty} {r : Reference}

section Seen

theorem mem_seen_iff {name : String} : name ∈ seen vars names ↔ name ∈ vars ∨ name ∈ names := by
  induction names generalizing vars with
  | nil => simp [seen]
  | cons other names ih =>
      rw [seen, ih, List.mem_cons]
      split
      · rename_i hmem
        constructor
        · rintro (h | h)
          · exact Or.inl h
          · exact Or.inr (Or.inr h)
        · rintro (h | rfl | h)
          · exact Or.inl h
          · exact Or.inl hmem
          · exact Or.inr h
      · simp [or_assoc]

theorem nodup_seen (h : vars.Nodup) : (seen vars names).Nodup := by
  induction names generalizing vars with
  | nil => exact h
  | cons name names ih =>
      rw [seen]
      split
      · exact ih h
      · rename_i hname
        exact ih (List.nodup_append.mpr ⟨h, List.nodup_singleton name, by
          rintro other hother _ hmem rfl
          exact hname (List.mem_singleton.mp hmem ▸ hother)⟩)

/-- A name that has been met before does not change which of two names is met first. -/
theorem idxOf_lt_idxOf_insert {name n m : String} (hname : name ∈ vars) :
    (vars ++ name :: names).idxOf n < (vars ++ name :: names).idxOf m ↔
      (vars ++ names).idxOf n < (vars ++ names).idxOf m := by
  have hidx : ∀ k ∉ vars, (name :: names).idxOf k = names.idxOf k + 1 := fun k hk =>
    List.idxOf_cons_ne names (ne_of_mem_of_not_mem hname hk)
  by_cases hn : n ∈ vars <;> by_cases hm : m ∈ vars
  · simp only [List.idxOf_append_of_mem hn, List.idxOf_append_of_mem hm]
  · have := List.idxOf_lt_length_iff.mpr hn
    simp only [List.idxOf_append_of_mem hn, List.idxOf_append_of_notMem hm]
    omega
  · have := List.idxOf_lt_length_iff.mpr hm
    simp only [List.idxOf_append_of_mem hm, List.idxOf_append_of_notMem hn]
    omega
  · simp only [List.idxOf_append_of_notMem hm, List.idxOf_append_of_notMem hn, hidx n hn, hidx m hm]
    omega

/-- Names are kept in the order in which they are met first. -/
theorem idxOf_seen_lt_iff {n m : String} :
    (seen vars names).idxOf n < (seen vars names).idxOf m ↔
      (vars ++ names).idxOf n < (vars ++ names).idxOf m := by
  induction names generalizing vars with
  | nil => rw [seen, List.append_nil]
  | cons name names ih =>
      rw [seen, ih]
      split
      · rename_i hname
        exact (idxOf_lt_idxOf_insert hname).symm
      · rw [List.append_assoc, List.singleton_append]

end Seen

section Variables

/-- The variable that a name stands for. -/
def varNamed (vars : List String) (name : String) : Var :=
  ⟨vars.idxOf name, 0⟩

/-- The variables in the type of an expression are those of its unknowns, one for one. -/
theorem vars_type {e : Expr} (h : e.Fits scope) :
    (e.type scope vars).vars = e.unknowns.map (varNamed vars) := by
  induction e using Expr.induction with
  | named id args ih =>
      rw [Expr.unknowns_named]
      cases h with
      | param hid =>
          obtain ⟨i, hi⟩ := Expr.exists_idxOf?_eq_some hid
          rw [Expr.type_param [] hi]
          rfl
      | con hid hargs =>
          rw [Expr.type_con args hid, Ty.vars_con, List.flatMap_map, List.map_flatMap]
          exact List.flatMap_congr fun a ha => ih a ha (hargs a ha)
  | unknown name => simp [varNamed, Expr.unknowns]

theorem Denotes.vars_eq (h : Denotes scope vars source t) :
    t.vars = (unknownsIn source).map (varNamed vars) := by
  obtain ⟨e, hspells, hfits, rfl⟩ := h
  rw [unknownsIn_of_spells hspells, vars_type hfits]

/-- In a reference, the variables of the arguments come before those of the self type. -/
theorem DenotesReference.vars_eq (h : DenotesReference scope vars source r) :
    r.params.flatMap Ty.vars ++ r.self.vars = (unknownsIn source).map (varNamed vars) := by
  obtain ⟨x, hspells, ⟨hargs, hself⟩, rfl⟩ := h
  rw [unknownsIn_of_spells_reference hspells, ReferenceExpr.unknowns, TraitExpr.unknowns,
    List.map_append, List.map_flatMap]
  simp only [ReferenceExpr.reference, TraitExpr.reference, List.flatMap_map, vars_type hself]
  congr 1
  exact List.flatMap_congr fun a ha => vars_type (hargs a ha)

end Variables

end TypeExpr

namespace Catalogue

open TypeExpr

variable {d : Document} {c : Catalogue}

/-- The names of a catalogue's inference variables stand for its variables, one for one. -/
theorem bijOn_varNamed (h : c.vars.Nodup) :
    Set.BijOn (varNamed c.vars) {n | n ∈ c.vars} {v | c.env.Live v} := by
  refine ⟨fun n hn => ?_, fun n hn m hm heq => ?_, fun v hv => ?_⟩
  · exact ⟨List.idxOf_lt_length_iff.mpr hn, rfl⟩
  · exact (List.idxOf_inj hn).mp (congrArg Var.index heq)
  · obtain ⟨i, generation⟩ := v
    obtain ⟨hi, rfl⟩ : i < c.vars.length ∧ generation = 0 := hv
    refine ⟨c.vars[i], List.getElem_mem hi, ?_⟩
    rw [varNamed, List.Nodup.idxOf_getElem h]

theorem mem_namedVars_iff (h : c.vars.Nodup) {n : String} {t : Ty} :
    (n, t) ∈ c.namedVars ↔ n ∈ c.vars ∧ t = .var (varNamed c.vars n) := by
  rw [namedVars, List.mem_mergeSort, List.mem_mapIdx]
  constructor
  · rintro ⟨i, hi, heq⟩
    obtain ⟨rfl, rfl⟩ := Prod.mk.inj heq
    exact ⟨List.getElem_mem hi, by rw [varNamed, List.Nodup.idxOf_getElem h]⟩
  · rintro ⟨hn, rfl⟩
    exact ⟨c.vars.idxOf n, List.idxOf_lt_length_iff.mpr hn, by simp [varNamed]⟩

/-- The inference variables of a document that compiles are the names that it writes after question
marks, each standing for one variable wherever it is written. They are numbered in the order in
which the names are met first, in the obligations and then in the receivers. Traits and impls have
none. -/
theorem Document.unknowns_shared (h : d.compile = .ok c) :
    c.env = ⟨d.unknowns.toFinset.card, []⟩ ∧
      Set.BijOn (varNamed c.vars) {n | n ∈ d.unknowns} {v | c.env.Live v} ∧
      (∀ n t, (n, t) ∈ c.namedVars ↔ n ∈ d.unknowns ∧ t = .var (varNamed c.vars n)) ∧
      (∀ n ∈ d.unknowns, ∀ m ∈ d.unknowns,
        ((varNamed c.vars n).index < (varNamed c.vars m).index ↔
          d.unknowns.idxOf n < d.unknowns.idxOf m) ∧
        (varNamed c.vars n = varNamed c.vars m ↔ n = m)) ∧
      List.Forall₂ (fun e o => o.trait.params.flatMap Ty.vars ++ o.trait.self.vars =
        (unknownsIn e.trait).map (varNamed c.vars)) (d.obligations.getD []) c.obligations ∧
      List.Forall₂ (fun e q => q.receiver.vars = (unknownsIn e.receiver).map (varNamed c.vars))
        (d.methods.getD []) c.queries ∧
      (∀ t ∈ c.program.traits, ∀ m ∈ t.methods, m.selfType.vars = []) ∧
      ∀ i ∈ c.program.impls, ∀ r ∈ i.trait :: i.params.flatten, ∀ t ∈ r.types, t.vars = [] := by
  have hdescribes := Document.compile_iff.mp h
  have hnodup : c.vars.Nodup := hdescribes.vars ▸ nodup_seen List.nodup_nil
  have hmem : ∀ n, n ∈ c.vars ↔ n ∈ d.unknowns := fun n => by
    rw [hdescribes.vars, mem_seen_iff, or_iff_right List.not_mem_nil]
  have hbij := bijOn_varNamed hnodup
  simp only [hmem] at hbij
  have hchecked := Document.checked h
  refine ⟨?_, hbij, fun n t => ?_, fun n hn m hm => ⟨?_, hbij.injOn.eq_iff hn hm⟩, ?_, ?_,
    fun t ht m hm => (hchecked.traits t ht m hm).1,
    fun i hi r hr t ht => ((hchecked.impls i hi r hr).1 t ht).1⟩
  · have hset : c.vars.toFinset = d.unknowns.toFinset := by
      ext n
      rw [List.mem_toFinset, List.mem_toFinset, hmem]
    rw [env, ← hset, List.toFinset_card_of_nodup hnodup]
  · rw [mem_namedVars_iff hnodup, hmem]
  · rw [varNamed, varNamed, hdescribes.vars, idxOf_seen_lt_iff, List.nil_append]
  · exact hdescribes.obligations.imp fun e o ho => ho.trait.1.vars_eq
  · exact hdescribes.queries.imp fun e q hq => hq.receiver.vars_eq

/-- Two obligations and a receiver share the unknowns `x` and `y`. -/
def shared : Document :=
  { Document.blank none with
    traits := some [⟨"Show", none, none, none⟩, ⟨"Into", some ["T"], none, none⟩]
    obligations := some [⟨"into", "Into<?y> for List<?x>"⟩, ⟨"show", "Show for ?y"⟩]
    methods := some [⟨"", "Pair<?x, ?z>", "show", some ["Show"]⟩] }

theorem Document.unknowns_shared_pair : ∃ c, shared.compile = .ok c ∧ c.env = ⟨3, []⟩ ∧
    (varNamed c.vars "y").index < (varNamed c.vars "x").index ∧
    (varNamed c.vars "x").index < (varNamed c.vars "z").index := by
  have hunknowns : shared.unknowns = ["y", "x", "y", "x", "z"] := by decide +kernel
  have hsome : shared.compile.toOption.isSome = true := by decide +kernel
  obtain ⟨c, hc⟩ := exists_ok_of_isSome hsome
  obtain ⟨henv, -, -, horder, -⟩ := Document.unknowns_shared hc
  rw [hunknowns] at henv horder
  refine ⟨c, hc, henv, (horder "y" ?_ "x" ?_).1.mpr ?_, (horder "x" ?_ "z" ?_).1.mpr ?_⟩ <;> decide

end Catalogue

end TraitResolution
