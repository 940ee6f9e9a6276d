import Mathlib.Data.List.Infix
import Mathlib.Data.Sym.Sym2
import TraitResolution.Catalogue.Expectation
import TraitResolution.Proofs.Interleaving

/-!
# What a text tells about the names it is made of

Obligations that arise from a bound are named after the obligation they arise from, and two impls in
conflict are written as a pair. A position is written in digits, so the last dot of a name that was
made from another one shows where that one ends. The comma of a pair shows where the first id ends
only if no id has such a comma itself: otherwise the text of a pair can be read in several ways.

## Implementation notes

Pairs are sorted by the bytes of the ids. A list of glyphs in which several stray bytes make up a
character has the bytes of another text. Such a text is never read, and `Text.Canonical` leaves it
out.
-/

namespace TraitResolution

namespace Text

theorem glyphs_append (a b : Text) : (a ++ b).glyphs = a.glyphs ++ b.glyphs := rfl

theorem glyphs_inj {a b : Text} : a.glyphs = b.glyphs ↔ a = b := by
  cases a
  cases b
  simp

section Positions

/-- The name made from another one for the position `k`. -/
def child (id : Text) (k : Nat) : Text :=
  id ++ "." ++ toString k

theorem glyphs_child (id : Text) (k : Nat) :
    (id.child k).glyphs = id.glyphs ++ .char '.' :: (Nat.toDigits 10 k).map .char := by
  have hdigits : (toString k).toList = Nat.toDigits 10 k := by
    rw [Nat.toString_eq_ofList_toDigits, String.toList_ofList]
  rw [← hdigits]
  exact List.append_assoc id.glyphs _ _

/-- A name is longer than the one it was made from. -/
theorem length_glyphs_lt_child (id : Text) (k : Nat) :
    id.glyphs.length < (id.child k).glyphs.length := by
  rw [glyphs_child, List.length_append, List.length_cons]
  omega

theorem dot_not_mem_digits (k : Nat) : Glyph.char '.' ∉ (Nat.toDigits 10 k).map Glyph.char := by
  intro hdot
  obtain ⟨c, hc, heq⟩ := List.mem_map.mp hdot
  obtain rfl := Glyph.char.inj heq
  have hdigit : '.'.isDigit = true := Nat.isDigit_of_mem_toDigits (by decide) (by decide) hc
  exact absurd hdigit (by decide)

/-- What stands before the last `x` and what stands after it are determined by the whole. -/
theorem eq_of_append_cons_eq {α : Type} {x : α} {a b a' b' : List α} (hb : x ∉ b) (hb' : x ∉ b')
    (h : a ++ x :: b = a' ++ x :: b') : a = a' ∧ b = b' := by
  have hnone : ∀ {between tail tail' : List α}, x ∉ tail →
      x :: tail = between ++ x :: tail' → between = [] := by
    intro between tail tail' htail heq
    cases between with
    | nil => rfl
    | cons z between =>
        obtain ⟨-, rfl⟩ := List.cons.inj heq
        exact absurd (List.mem_append_right between List.mem_cons_self) htail
  rcases List.append_eq_append_iff.mp h with ⟨between, rfl, heq⟩ | ⟨between, rfl, heq⟩
  · obtain rfl := hnone hb heq
    simpa using heq
  · obtain rfl := hnone hb' heq
    simpa using heq.symm

/-- A name tells what it was made from. -/
theorem child_inj {a b : Text} {k m : Nat} (h : a.child k = b.child m) : a = b ∧ k = m := by
  have hglyphs := congrArg Text.glyphs h
  rw [glyphs_child, glyphs_child] at hglyphs
  obtain ⟨hid, hdigits⟩ :=
    eq_of_append_cons_eq (dot_not_mem_digits k) (dot_not_mem_digits m) hglyphs
  have hchars : Nat.toDigits 10 k = Nat.toDigits 10 m :=
    List.map_injective_iff.mpr (fun _ _ => Glyph.char.inj) hdigits
  refine ⟨glyphs_inj.mp hid, ?_⟩
  calc k = Nat.ofDigitChars 10 (Nat.toDigits 10 k) 0 := Nat.ofDigitChars_ten_toDigits.symm
    _ = Nat.ofDigitChars 10 (Nat.toDigits 10 m) 0 := by rw [hchars]
    _ = m := Nat.ofDigitChars_ten_toDigits

end Positions

section Order

theorem bytesLe_total (a b : List UInt8) : bytesLe a b = true ∨ bytesLe b a = true := by
  induction a generalizing b with
  | nil => exact Or.inl rfl
  | cons x a ih =>
      cases b with
      | nil => exact Or.inr rfl
      | cons y b =>
          by_cases hxy : x = y
          · simpa [bytesLe, hxy] using ih b
          · rcases UInt8.lt_or_lt_of_ne hxy with hlt | hlt
            · exact Or.inl (by simp [bytesLe, hxy, hlt])
            · exact Or.inr (by simp [bytesLe, Ne.symm hxy, hlt])

theorem bytesLe_antisymm {a b : List UInt8} (hab : bytesLe a b = true) (hba : bytesLe b a = true) :
    a = b := by
  induction a generalizing b with
  | nil =>
      cases b with
      | nil => rfl
      | cons y b => simp [bytesLe] at hba
  | cons x a ih =>
      cases b with
      | nil => simp [bytesLe] at hab
      | cons y b =>
          by_cases hxy : x = y
          · subst hxy
            rw [ih (by simpa [bytesLe] using hab) (by simpa [bytesLe] using hba)]
          · have hlt : x < y := by simpa [bytesLe, hxy] using hab
            have hgt : y < x := by simpa [bytesLe, Ne.symm hxy] using hba
            exact absurd (UInt8.lt_trans hlt hgt) (UInt8.lt_irrefl x)

/-- The text is the one read from its bytes. -/
def Canonical (t : Text) : Prop :=
  ofBytes t.bytes = t

instance (t : Text) : Decidable t.Canonical :=
  inferInstanceAs (Decidable (_ = _))

theorem Canonical.eq_of_bytes_eq {a b : Text} (ha : a.Canonical) (hb : b.Canonical)
    (h : a.bytes = b.bytes) : a = b :=
  calc a = ofBytes a.bytes := ha.symm
    _ = ofBytes b.bytes := by rw [h]
    _ = b := hb

theorem Canonical.le_antisymm {a b : Text} (ha : a.Canonical) (hb : b.Canonical)
    (hab : a.le b = true) (hba : b.le a = true) : a = b :=
  ha.eq_of_bytes_eq hb (bytesLe_antisymm hab hba)

end Order

/-- A text stands somewhere in another one. -/
def Contains (t part : Text) : Prop :=
  part.glyphs <:+: t.glyphs

instance (t part : Text) : Decidable (t.Contains part) :=
  inferInstanceAs (Decidable (_ <:+: _))

theorem contains_append (a part b : Text) : (a ++ part ++ b).Contains part :=
  ⟨a.glyphs, b.glyphs, rfl⟩

end Text

namespace Conflict

variable {c d : Conflict}

theorem eq_of_ids (hfirst : c.first = d.first) (hsecond : c.second = d.second) : c = d := by
  cases c
  cases d
  exact congrArg₂ mk hfirst hsecond

/-- The two ids, in no order. -/
def pair (c : Conflict) : Sym2 Text :=
  s(c.first, c.second)

theorem pair_sorted (c : Conflict) : c.sorted.pair = c.pair := by
  rw [sorted]
  split
  · rfl
  · exact Sym2.eq_swap

theorem le_sorted (c : Conflict) : c.sorted.first.le c.sorted.second = true := by
  rw [sorted]
  split
  · assumption
  · rename_i hle
    exact (Text.bytesLe_total _ _).resolve_left hle

/-- Both ids are texts as they are read. -/
def Canonical (c : Conflict) : Prop :=
  c.first.Canonical ∧ c.second.Canonical

/-- Sorting leaves of a pair only what does not depend on the order. -/
theorem sorted_eq_iff (hd : d.Canonical) : c.sorted = d.sorted ↔ c.pair = d.pair := by
  constructor
  · intro h
    rw [← pair_sorted c, ← pair_sorted d, h]
  · intro h
    have hpairs : c.sorted.pair = d.sorted.pair := by rw [pair_sorted, pair_sorted, h]
    rcases Sym2.eq_iff.mp hpairs with ⟨hfirst, hsecond⟩ | ⟨hfirst, hsecond⟩
    · exact eq_of_ids hfirst hsecond
    · -- the ids are the other way round, so each is at most the other
      have hle : d.sorted.second.le d.sorted.first = true := by
        rw [← hfirst, ← hsecond]
        exact le_sorted c
      have hids : d.sorted.first.Canonical ∧ d.sorted.second.Canonical := by
        rw [sorted]
        split
        · exact hd
        · exact ⟨hd.2, hd.1⟩
      have hsame : d.sorted.first = d.sorted.second :=
        hids.1.le_antisymm hids.2 (le_sorted d) hle
      exact eq_of_ids (hfirst.trans hsame.symm) (hsecond.trans hsame)

/-- Two pairs that are written the same because an id has a comma like the one between the ids: the
second pair is divided at a later comma. -/
def Shifts (c d : Conflict) : Prop :=
  ∃ between : Text, d.first = c.first ++ ", " ++ between ∧ c.second = between ++ ", " ++ d.second

theorem Shifts.contains (h : c.Shifts d) : c.second.Contains ", " ∧ d.first.Contains ", " := by
  obtain ⟨between, hfirst, hsecond⟩ := h
  rw [hfirst, hsecond]
  exact ⟨Text.contains_append _ _ _, Text.contains_append _ _ _⟩

theorem glyphs_text (c : Conflict) :
    c.text.glyphs =
      .char '(' ::
        (c.first.glyphs ++ .char ',' :: .char ' ' :: c.second.glyphs ++ [.char ')']) := by
  simp [text, Text.glyphs_append, Text.ofString]

/-- A list divided at a comma and a blank in two ways. -/
theorem append_separator_eq {α : Type} {x y : α} (hxy : x ≠ y) {between b b' : List α}
    (h : x :: y :: b = between ++ x :: y :: b') :
    (between = [] ∧ b = b') ∨ ∃ rest, between = x :: y :: rest ∧ b = rest ++ x :: y :: b' := by
  rcases between with _ | ⟨z, _ | ⟨w, rest⟩⟩
  · exact Or.inl ⟨rfl, by simpa using h⟩
  · have hy : y = x := (List.cons.inj (List.cons.inj h).2).1
    exact absurd hy.symm hxy
  · obtain ⟨hz, h⟩ := List.cons.inj h
    obtain ⟨hw, h⟩ := List.cons.inj h
    exact Or.inr ⟨rest, by rw [hz, hw], h⟩

theorem eq_or_shifts {between : List Glyph} (hfirst : d.first.glyphs = c.first.glyphs ++ between)
    (hsecond : .char ',' :: .char ' ' :: c.second.glyphs =
      between ++ .char ',' :: .char ' ' :: d.second.glyphs) : c = d ∨ c.Shifts d := by
  have hcomma : Glyph.char ',' ≠ Glyph.char ' ' := by decide
  rcases append_separator_eq hcomma hsecond with ⟨rfl, hsame⟩ | ⟨rest, rfl, hrest⟩
  · left
    rw [List.append_nil] at hfirst
    exact eq_of_ids (Text.glyphs_inj.mp hfirst.symm) (Text.glyphs_inj.mp hsame)
  · refine Or.inr ⟨⟨rest⟩, Text.glyphs_inj.mp ?_, Text.glyphs_inj.mp ?_⟩
    · simpa [Text.glyphs_append, Text.ofString] using hfirst
    · simpa [Text.glyphs_append, Text.ofString] using hrest

/-- Two pairs are written the same if they are the same or one is the other divided at another
comma. -/
theorem text_eq_iff : c.text = d.text ↔ c = d ∨ c.Shifts d ∨ d.Shifts c := by
  constructor
  · intro h
    have hglyphs := congrArg Text.glyphs h
    rw [glyphs_text, glyphs_text, List.cons.injEq, List.append_left_inj] at hglyphs
    rcases List.append_eq_append_iff.mp hglyphs.2 with ⟨between, hfirst, hsecond⟩ |
      ⟨between, hfirst, hsecond⟩
    · rcases eq_or_shifts hfirst hsecond with heq | hshift
      · exact Or.inl heq
      · exact Or.inr (Or.inl hshift)
    · rcases eq_or_shifts hfirst hsecond with heq | hshift
      · exact Or.inl heq.symm
      · exact Or.inr (Or.inr hshift)
  · have hshift : ∀ {c d : Conflict}, c.Shifts d → c.text = d.text := by
      rintro c d ⟨between, hfirst, hsecond⟩
      simp only [text, hfirst, hsecond, Text.append_assoc]
    rintro (rfl | h | h)
    · rfl
    · exact hshift h
    · exact (hshift h).symm

end Conflict

end TraitResolution
