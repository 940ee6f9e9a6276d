import Mathlib.Data.List.Forall2

/-!
# Collected results

A sequence of steps that may fail has a result if each step has one. The results for the elements of
a list are collected if each element has one, and then correspond to the elements position by
position. So what is known of two lists in such a correspondence goes for elements and their
results.
-/

namespace TraitResolution

section Steps

variable {ε ε' α β : Type} {x : Except ε α}

theorem bind_eq_ok {f : α → Except ε β} {b : β} :
    x >>= f = .ok b ↔ ∃ a, x = .ok a ∧ f a = .ok b := by
  cases x <;> simp [bind, Except.bind]

theorem pure_eq_ok {a b : α} : (pure a : Except ε α) = .ok b ↔ a = b := by
  simp [pure, Except.pure]

theorem mapError_eq_ok {f : ε → ε'} {a : α} : x.mapError f = .ok a ↔ x = .ok a := by
  constructor
  · intro h
    cases x with
    | error e => cases h
    | ok b => exact congrArg Except.ok (Except.ok.inj h)
  · rintro rfl
    rfl

/-- What is done if a check refuses nothing. -/
theorem refuse_eq_ok {c : Prop} [Decidable c] {e : ε} {f : α → Except ε β} {y : Except ε β}
    {b : β} :
    (if c then throw e >>= f else y) = .ok b ↔ ¬c ∧ y = .ok b := by
  by_cases hc : c <;> simp [hc, bind, Except.bind, throw, throwThe, MonadExceptOf.throw]

theorem exists_ok_of_isSome (h : x.toOption.isSome = true) : ∃ a, x = .ok a := by
  cases x with
  | error e => cases h
  | ok a => exact ⟨a, rfl⟩

end Steps

section Correspondences

variable {α β γ : Type} {R : α → β → Prop} {l : List α} {bs : List β}

/-- Something can be chosen for every element exactly if there is something for each of them. -/
theorem exists_forall₂_iff : (∃ bs, List.Forall₂ R l bs) ↔ ∀ a ∈ l, ∃ b, R a b := by
  induction l with
  | nil => simp
  | cons a l ih =>
      rw [List.forall_mem_cons, ← ih]
      constructor
      · rintro ⟨_, h⟩
        cases h with
        | cons hab h => exact ⟨⟨_, hab⟩, _, h⟩
      · rintro ⟨⟨b, hab⟩, bs, h⟩
        exact ⟨b :: bs, .cons hab h⟩

theorem exists_of_mem_left (h : List.Forall₂ R l bs) {a : α} (ha : a ∈ l) : ∃ b ∈ bs, R a b := by
  induction h with
  | nil => exact absurd ha List.not_mem_nil
  | cons hab _ ih =>
      rcases List.mem_cons.mp ha with rfl | ha
      · exact ⟨_, List.mem_cons_self, hab⟩
      · obtain ⟨b, hb, h⟩ := ih ha
        exact ⟨b, List.mem_cons_of_mem _ hb, h⟩

theorem exists_of_mem_right (h : List.Forall₂ R l bs) {b : β} (hb : b ∈ bs) : ∃ a ∈ l, R a b :=
  exists_of_mem_left (R := flip R) (List.Forall₂.flip h) hb

theorem map_eq_map_of_forall₂ {f : β → γ} {g : α → γ} (hfg : ∀ a b, R a b → f b = g a)
    (h : List.Forall₂ R l bs) : bs.map f = l.map g := by
  induction h with
  | nil => rfl
  | cons hab _ ih => rw [List.map_cons, List.map_cons, hfg _ _ hab, ih]

end Correspondences

section Collecting

variable {ε α β γ δ : Type} {l : List α} {f : α → Except ε β} {bs : List β}

theorem mapM_cons_eq_ok {a : α} :
    (a :: l).mapM f = .ok bs ↔ ∃ b cs, f a = .ok b ∧ l.mapM f = .ok cs ∧ bs = b :: cs := by
  simp only [List.mapM_cons, bind_eq_ok, pure_eq_ok]
  constructor
  · rintro ⟨b, hb, cs, hcs, rfl⟩
    exact ⟨b, cs, hb, hcs, rfl⟩
  · rintro ⟨b, cs, hb, hcs, rfl⟩
    exact ⟨b, hb, cs, hcs, rfl⟩

/-- The collected results correspond to the elements. -/
theorem mapM_eq_ok_iff :
    l.mapM f = .ok bs ↔ List.Forall₂ (fun a b => f a = .ok b) l bs := by
  induction l generalizing bs with
  | nil =>
      rw [List.mapM_nil, List.forall₂_nil_left_iff]
      exact pure_eq_ok.trans eq_comm
  | cons a l ih =>
      rw [mapM_cons_eq_ok, List.forall₂_cons_left_iff]
      simp only [ih]

theorem length_of_mapM (h : l.mapM f = .ok bs) : bs.length = l.length :=
  (mapM_eq_ok_iff.mp h).length_eq.symm

theorem exists_of_mem_mapM (h : l.mapM f = .ok bs) {b : β} (hb : b ∈ bs) : ∃ a ∈ l, f a = .ok b :=
  exists_of_mem_right (mapM_eq_ok_iff.mp h) hb

theorem mem_of_mapM (h : l.mapM f = .ok bs) {a : α} {b : β} (ha : a ∈ l) (hb : f a = .ok b) :
    b ∈ bs := by
  obtain ⟨b', hb', heq⟩ := exists_of_mem_left (mapM_eq_ok_iff.mp h) ha
  obtain rfl : b' = b := Except.ok.inj (heq.symm.trans hb)
  exact hb'

/-- A collection succeeds if each of its parts does, and holds what they yield. -/
theorem exists_mapM {P : β → Prop} (h : ∀ a ∈ l, ∃ b, f a = .ok b ∧ P b) :
    ∃ bs, l.mapM f = .ok bs ∧ ∀ b ∈ bs, P b := by
  obtain ⟨bs, hbs⟩ := exists_forall₂_iff.mpr h
  refine ⟨bs, mapM_eq_ok_iff.mpr (hbs.imp fun _ _ hab => hab.1), fun b hb => ?_⟩
  obtain ⟨a, -, hab⟩ := exists_of_mem_right hbs hb
  exact hab.2

/-- What holds of each collected result holds of the collection. -/
theorem mapM_map_of_ok {g : α → Except ε γ} {h : β → γ}
    (hfg : ∀ a ∈ l, ∀ b, f a = .ok b → g a = .ok (h b)) (hl : l.mapM f = .ok bs) :
    l.mapM g = .ok (bs.map h) := by
  rw [mapM_eq_ok_iff, List.forall₂_map_right_iff]
  have hboth := (List.forall₂_and_left l bs).mpr ⟨hfg, mapM_eq_ok_iff.mp hl⟩
  exact hboth.imp fun _ b hab => hab.1 b hab.2

/-- To change each of some collected results is to collect the changed results. -/
theorem mapM_map_eq {g : γ → Except ε δ} {h : α → γ} {k : β → δ}
    (hfg : ∀ a ∈ l, g (h a) = (f a).map k) : (l.map h).mapM g = (l.mapM f).map (List.map k) := by
  induction l with
  | nil => rfl
  | cons a l ih =>
      obtain ⟨ha, hl⟩ := List.forall_mem_cons.mp hfg
      rw [List.map_cons, List.mapM_cons, List.mapM_cons, ha, ih hl]
      cases f a with
      | error e => rfl
      | ok b =>
          cases l.mapM f with
          | error e => rfl
          | ok bs => rfl

/-- To collect elements that all yield themselves changes nothing. -/
theorem mapM_eq_self {f : α → Except ε α} (h : ∀ a ∈ l, f a = .ok a) : l.mapM f = .ok l :=
  mapM_eq_ok_iff.mpr (List.forall₂_same.mpr h)

end Collecting

end TraitResolution
