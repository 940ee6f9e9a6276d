import Mathlib.Logic.Relation
import TraitResolution.Proofs.Calls

/-!
# The way of a search

A method call goes from place to place. At each point of the way it looks for traits that could
provide the method, and dereferences the place if there are none. `Lookup.Goes` relates one point to
the next, and `Lookup.Ends` says what the search does at the last one. From every point on the way
the search has the same outcome, so a call is a way to a point where it ends, and nothing else.
-/

namespace TraitResolution

namespace MethodCall

open Operation Engine Relation

/-- A point of a search: the environment, the place that was reached, and how many more times it may
be dereferenced. -/
structure Point where
  env : Env
  place : Place
  limit : Nat

namespace Lookup

variable {cx : Lookup} {p q : Point} {env left : Env} {result : MethodResult}

/-- The declarations that could provide the method at a point are these. -/
def Offers (cx : Lookup) (p : Point) (found : List Declaration) : Prop :=
  (select (cx.couldApply p.place) cx.declarations).Returns p.env found p.env

/-- The resolution that decides whether the place of a point can be dereferenced. -/
def Derefs (cx : Lookup) (p : Point) (r : Resolution) (left : Env) : Prop :=
  (cx.resolveRef "deref" (Place.derefRef .shared p.place (.var p.env.nextVar))).Returns
    p.env.created r left

/-- One dereference of a search. -/
inductive Goes (cx : Lookup) : Point → Point → Prop
  | deref {env left : Env} {place : Place} {n : Nat} {r : Resolution}
      (hpassed : cx.Offers ⟨env, place, n + 1⟩ []) (hderef : cx.Derefs ⟨env, place, n + 1⟩ r left)
      (hholds : derefHolds r = true) :
      Goes cx ⟨env, place, n + 1⟩ ⟨left, .deref .shared place (.var env.nextVar) r, n⟩

/-- What a search does at the point where it ends. -/
inductive Ends (cx : Lookup) (p : Point) : MethodResult → Env → Prop
  | exhausted (hpassed : cx.Offers p []) (hlimit : p.limit = 0) :
      Ends cx p (.cannotDeref p.place.type) p.env
  | stuck {r : Resolution} {left : Env} (hpassed : cx.Offers p []) (hlimit : p.limit ≠ 0)
      (hderef : cx.Derefs p r left) (hholds : derefHolds r = false) :
      Ends cx p (.cannotDeref p.place.type) left
  | ambiguous {found : List Declaration} (hoffers : cx.Offers p found) (hlen : 2 ≤ found.length) :
      Ends cx p (.ambiguous (found.map (·.trait))) p.env
  | called {d : Declaration} {result : MethodResult} {left : Env} (hoffers : cx.Offers p [d])
      (hcall : (cx.call p.place d).Returns p.env result left) : Ends cx p result left

/-- Dereferencing does not change the outcome of a search. -/
theorem Goes.search_iff (h : cx.Goes p q) :
    (cx.search p.limit p.place).Returns p.env result left ↔
      (cx.search q.limit q.place).Returns q.env result left := by
  cases h with
  | @deref env mid place n r hpassed hderef hholds =>
      rw [search, returns_choose]
      constructor
      · rintro ⟨found, hfound, h⟩
        -- runs are deterministic, so the search offers nothing here and has to dereference
        obtain ⟨rfl, -⟩ := hfound.unique hpassed
        obtain ⟨-, hgoes⟩ | ⟨d, hd, -⟩ | ⟨hlen, -⟩ := h
        · obtain ⟨r', mid', hr', ⟨-, hnext⟩ | ⟨hfails, -⟩⟩ := returns_deref.mp hgoes
          · obtain ⟨rfl, rfl⟩ := hr'.unique hderef
            exact hnext
          · obtain ⟨rfl, rfl⟩ := hr'.unique hderef
            rw [hfails] at hholds
            cases hholds
        · cases hd
        · simp at hlen
      · intro hnext
        have hrest := returns_deref.mpr ⟨r, mid, hderef, Or.inl ⟨hholds, hnext⟩⟩
        exact ⟨[], hpassed, Or.inl ⟨rfl, hrest⟩⟩

/-- From every point on its way a search has the same outcome. -/
theorem search_iff_of_way (h : ReflTransGen cx.Goes p q) :
    (cx.search p.limit p.place).Returns p.env result left ↔
      (cx.search q.limit q.place).Returns q.env result left := by
  induction h with
  | refl => exact Iff.rfl
  | tail _ hgoes ih => exact ih.trans hgoes.search_iff

/-- A search that returns has a way to a point where it ends. -/
theorem exists_way_of_search (h : (cx.search p.limit p.place).Returns p.env result left) :
    ∃ q, ReflTransGen cx.Goes p q ∧ cx.Ends q result left := by
  obtain ⟨env, place, n⟩ := p
  induction n generalizing env place with
  | zero =>
      rw [search, returns_choose] at h
      obtain ⟨found, hoffers, ⟨rfl, h⟩ | ⟨d, rfl, h⟩ | ⟨hlen, rfl, rfl⟩⟩ := h
      · rw [returns_report_bind, returns_pure] at h
        obtain ⟨rfl, rfl⟩ := h
        exact ⟨_, .refl, .exhausted hoffers rfl⟩
      · exact ⟨_, .refl, .called hoffers h⟩
      · exact ⟨_, .refl, .ambiguous hoffers hlen⟩
  | succ n ih =>
      rw [search, returns_choose] at h
      obtain ⟨found, hoffers, ⟨rfl, h⟩ | ⟨d, rfl, h⟩ | ⟨hlen, rfl, rfl⟩⟩ := h
      · obtain ⟨r, mid, hderef, ⟨hholds, hnext⟩ | ⟨hfails, rfl, rfl⟩⟩ := returns_deref.mp h
        · obtain ⟨q, hway, hends⟩ := ih _ _ hnext
          exact ⟨q, .head (.deref hoffers hderef hholds) hway, hends⟩
        · exact ⟨_, .refl, .stuck hoffers (Nat.succ_ne_zero n) hderef hfails⟩
      · exact ⟨_, .refl, .called hoffers h⟩
      · exact ⟨_, .refl, .ambiguous hoffers hlen⟩

end Lookup

end MethodCall

end TraitResolution
