import TraitResolution.TypeExpr.Token

/-!
# How tokens are spelled

Which texts have which tokens, said without the scanner. A text spells a sequence of names and
symbols if it is made of them in order, with any number of blanks in between. A name goes on as long
as it can, so no character that may belong to it comes right after it. The scanner finds exactly the
tokens that a text spells, and a text that spells nothing has an end that is no end of text.

## Implementation notes

The scanner reads one character at a time and keeps what lies before it. `SpelledAfter` is what the
rest of a text has to be like after that, so that the two can be compared character by character.
-/

namespace TraitResolution.TypeExpr

variable {c : Char} {cs : List Glyph} {ks : List TokenKind}

/-- A letter or an underscore, followed by letters, digits and underscores. -/
def IsName (text : String) : Prop :=
  ∃ c rest, text.toList = c :: rest ∧ isNameStart c = true ∧ ∀ d ∈ rest, isNameRest d = true

theorem isName_iff {text : String} :
    IsName text ↔
      text.toList.head?.any isNameStart = true ∧ text.toList.tail.all isNameRest = true := by
  rw [IsName]
  cases text.toList with
  | nil => simp
  | cons c rest =>
      constructor
      · rintro ⟨c, rest, heq, hc, hrest⟩
        cases heq
        exact ⟨hc, List.all_eq_true.mpr hrest⟩
      · rintro ⟨hc, hrest⟩
        exact ⟨c, rest, rfl, hc, List.all_eq_true.mp hrest⟩

instance (text : String) : Decidable (IsName text) :=
  decidable_of_iff _ isName_iff.symm

/-- No name goes on here. -/
def NameStops : List Glyph → Prop
  | .char c :: _ => isNameRest c = false
  | _ => True

/-- The glyphs are the names and symbols in order, with blanks in between. -/
inductive Spelled : List Glyph → List TokenKind → Prop
  | nil : Spelled [] []
  | blank {c : Char} {cs : List Glyph} {ks : List TokenKind} (hc : isBlank c = true)
      (h : Spelled cs ks) : Spelled (.char c :: cs) ks
  | name {text : String} {cs : List Glyph} {ks : List TokenKind} (htext : IsName text)
      (hstops : NameStops cs) (h : Spelled cs ks) :
      Spelled (text.toList.map .char ++ cs) (.name text :: ks)
  | symbol {c : Char} {cs : List Glyph} {ks : List TokenKind} (hblank : isBlank c = false)
      (hname : isNameStart c = false) (hnul : c ≠ '\x00') (h : Spelled cs ks) :
      Spelled (.char c :: cs) (.symbol c :: ks)

/-- The text without a byte order mark in front. -/
def unmarked : List Glyph → List Glyph
  | .char '\ufeff' :: cs => cs
  | cs => cs

/-- The text is the names and symbols in order, with blanks in between. A byte order mark in front
does not count. -/
def Spells (source : Text) (ks : List TokenKind) : Prop :=
  Spelled (unmarked source.glyphs) ks

theorem isNameStart_of_isBlank (h : isBlank c = true) : isNameStart c = false := by
  simp only [isBlank, Bool.or_eq_true, beq_iff_eq] at h
  rcases h with ((rfl | rfl) | rfl) | rfl <;> decide

theorem spelled_nil_iff : Spelled [] ks ↔ ks = [] := by
  constructor
  · intro h
    generalize hgs : ([] : List Glyph) = gs at h
    cases h with
    | nil => rfl
    | blank | symbol => cases hgs
    | name htext _ _ =>
        obtain ⟨d, rest, hlist, -, -⟩ := htext
        rw [hlist] at hgs
        cases hgs
  · rintro rfl
    exact .nil

/-- The rest of a name that began with `text`, and what comes after the name. -/
def NameGoesOn (text : String) (cs : List Glyph) (ks : List TokenKind) : Prop :=
  ∃ (rest : List Char) (after : List Glyph) (later : List TokenKind),
    cs = rest.map .char ++ after ∧ (∀ d ∈ rest, isNameRest d = true) ∧ NameStops after ∧
      ks = .name (text ++ String.ofList rest) :: later ∧ Spelled after later

/-- What a text can begin with. -/
theorem spelled_cons_cases {g : Glyph} (h : Spelled (g :: cs) ks) :
    ∃ c, g = .char c ∧
      (isBlank c = true ∧ Spelled cs ks ∨
        isNameStart c = true ∧ NameGoesOn (String.singleton c) cs ks ∨
        isBlank c = false ∧ isNameStart c = false ∧ c ≠ '\x00' ∧
          ∃ later, ks = .symbol c :: later ∧ Spelled cs later) := by
  generalize hgs : g :: cs = gs at h
  cases h with
  | nil => cases hgs
  | blank hc h =>
      cases hgs
      exact ⟨_, rfl, Or.inl ⟨hc, h⟩⟩
  | @name text after later htext hstops h =>
      obtain ⟨c, rest, hlist, hc, hrest⟩ := htext
      rw [hlist] at hgs
      cases hgs
      refine ⟨c, rfl, Or.inr (Or.inl ⟨hc, rest, after, later, rfl, hrest, hstops, ?_, h⟩)⟩
      congr 2
      apply String.toList_injective
      simp [hlist]
  | symbol hblank hname hnul h =>
      cases hgs
      exact ⟨_, rfl, Or.inr (Or.inr ⟨hblank, hname, hnul, _, rfl, h⟩)⟩

theorem not_spelled_nul : ¬Spelled (.char '\x00' :: cs) ks := by
  intro h
  obtain ⟨c, hc, hcases⟩ := spelled_cons_cases h
  obtain rfl := Glyph.char.inj hc
  rcases hcases with ⟨hblank, -⟩ | ⟨hname, -⟩ | ⟨-, -, hnul, -⟩
  · revert hblank
    decide
  · revert hname
    decide
  · exact hnul rfl

theorem not_spelled_stray {byte : UInt8} : ¬Spelled (.stray byte :: cs) ks := by
  intro h
  obtain ⟨c, hc, -⟩ := spelled_cons_cases h
  cases hc

theorem spelled_blank_iff (hc : isBlank c = true) : Spelled (.char c :: cs) ks ↔ Spelled cs ks := by
  refine ⟨fun h => ?_, .blank hc⟩
  obtain ⟨d, hd, hcases⟩ := spelled_cons_cases h
  obtain rfl := Glyph.char.inj hd
  rcases hcases with ⟨-, h⟩ | ⟨hname, -⟩ | ⟨hblank, -⟩
  · exact h
  · simp [isNameStart_of_isBlank hc] at hname
  · simp [hc] at hblank

theorem spelled_symbol_iff (hblank : isBlank c = false) (hname : isNameStart c = false)
    (hnul : c ≠ '\x00') :
    Spelled (.char c :: cs) ks ↔ ∃ later, ks = .symbol c :: later ∧ Spelled cs later := by
  constructor
  · intro h
    obtain ⟨d, hd, hcases⟩ := spelled_cons_cases h
    obtain rfl := Glyph.char.inj hd
    rcases hcases with ⟨hc, -⟩ | ⟨hc, -⟩ | ⟨-, -, -, h⟩
    · simp [hblank] at hc
    · simp [hname] at hc
    · exact h
  · rintro ⟨later, rfl, h⟩
    exact .symbol hblank hname hnul h

theorem spelled_name_iff (hc : isNameStart c = true) :
    Spelled (.char c :: cs) ks ↔ NameGoesOn (String.singleton c) cs ks := by
  constructor
  · intro h
    obtain ⟨d, hd, hcases⟩ := spelled_cons_cases h
    obtain rfl := Glyph.char.inj hd
    rcases hcases with ⟨hblank, -⟩ | ⟨-, h⟩ | ⟨-, hname, -⟩
    · simp [isNameStart_of_isBlank hblank] at hc
    · exact h
    · simp [hc] at hname
  · rintro ⟨rest, after, later, rfl, hrest, hstops, rfl, h⟩
    have htext : IsName (String.singleton c ++ String.ofList rest) :=
      ⟨c, rest, by simp, hc, hrest⟩
    simpa using Spelled.name htext hstops h

theorem nameGoesOn_push (text : String) (hc : isNameRest c = true) :
    NameGoesOn text (.char c :: cs) ks ↔ NameGoesOn (text.push c) cs ks := by
  have hpush : ∀ rest, text.push c ++ String.ofList rest = text ++ String.ofList (c :: rest) := by
    intro rest
    apply String.toList_injective
    simp
  constructor
  · rintro ⟨rest, after, later, hcs, hrest, hstops, rfl, h⟩
    cases rest with
    | nil =>
        obtain rfl : Glyph.char c :: cs = after := hcs
        rw [NameStops, hc] at hstops
        cases hstops
    | cons d rest =>
        obtain ⟨hd, rfl⟩ := List.cons.inj hcs
        obtain rfl := Glyph.char.inj hd
        exact ⟨rest, after, later, rfl, fun e he => hrest e (List.mem_cons_of_mem _ he), hstops,
          by rw [hpush], h⟩
  · rintro ⟨rest, after, later, rfl, hrest, hstops, rfl, h⟩
    exact ⟨c :: rest, after, later, rfl, List.forall_mem_cons.mpr ⟨hc, hrest⟩, hstops,
      by rw [hpush], h⟩

theorem nameGoesOn_of_nameStops (text : String) (hcs : NameStops cs) :
    NameGoesOn text cs ks ↔ ∃ later, ks = .name text :: later ∧ Spelled cs later := by
  have hempty : text ++ String.ofList [] = text := by
    apply String.toList_injective
    simp
  constructor
  · rintro ⟨rest, after, later, rfl, hrest, -, rfl, h⟩
    cases rest with
    | nil => exact ⟨later, by rw [hempty], h⟩
    | cons d rest =>
        have hd : isNameRest d = false := hcs
        rw [hrest d List.mem_cons_self] at hd
        cases hd
  · rintro ⟨later, rfl, h⟩
    exact ⟨[], cs, later, rfl, by simp, hcs, by rw [hempty], h⟩

/-- What the rest of a text has to be like, given what lies before it. -/
def SpelledAfter : Pending → List Glyph → List TokenKind → Prop
  | .gap _, cs, ks => Spelled cs ks
  | .name text _, cs, ks => NameGoesOn text cs ks
  | .symbol c _, cs, ks => ∃ later, ks = .symbol c :: later ∧ Spelled cs later

/-- Once a token is complete, the rest of the text stands for itself. -/
theorem spelledAfter_of_complete {before : Pending}
    (hstops : ∀ text k, before = .name text k → NameStops cs) :
    SpelledAfter before cs ks ↔
      ∃ later, ks = before.emit.map (·.kind) ++ later ∧ Spelled cs later := by
  cases before with
  | gap k => simp [SpelledAfter, Pending.emit]
  | name text k => exact nameGoesOn_of_nameStops text (hstops text k rfl)
  | symbol d k => rfl

theorem spelledAfter_start (before : Pending) (k : Nat) (hc : c ≠ '\x00') :
    SpelledAfter (before.start c k) cs ks ↔ Spelled (.char c :: cs) ks := by
  rw [Pending.start]
  split
  · rename_i hblank
    exact (spelled_blank_iff hblank).symm
  · rename_i hblank
    split
    · rename_i hname
      exact (spelled_name_iff hname).symm
    · rename_i hname
      exact (spelled_symbol_iff (by simpa using hblank) (by simpa using hname) hc).symm

theorem extend?_eq_some {before longer : Pending} (h : before.extend? c = some longer) :
    ∃ text k, before = .name text k ∧ isNameRest c = true ∧ longer = .name (text.push c) k := by
  cases before with
  | gap k | symbol d k => cases h
  | name text k =>
      rw [Pending.extend?] at h
      split at h
      · rename_i hc
        exact ⟨text, k, rfl, hc, (Option.some.inj h).symm⟩
      · cases h

theorem nameStops_of_extend? {before : Pending} (h : before.extend? c = none) :
    ∀ text k, before = .name text k → NameStops (.char c :: cs) := by
  rintro text k rfl
  rw [Pending.extend?] at h
  split at h
  · cases h
  · rename_i hc
    simpa [NameStops] using hc

/-- A token that is written, as opposed to an end. -/
def TokenKind.Written : TokenKind → Prop
  | .name _ | .symbol _ => True
  | .eof | .nul | .stray => False

/-- Tokens that are written, and then an end. -/
inductive Ended : List Token → Prop
  | last {t : Token} (ht : ¬t.kind.Written) : Ended [t]
  | cons {t : Token} {ts : List Token} (ht : t.kind.Written) (h : Ended ts) : Ended (t :: ts)

theorem Ended.ne_nil {ts : List Token} (h : Ended ts) : ts ≠ [] := by
  cases h with
  | last | cons => exact List.cons_ne_nil _ _

theorem Ended.emit_append {ts : List Token} (h : Ended ts) (before : Pending) :
    Ended (before.emit ++ ts) := by
  cases before with
  | gap k => exact h
  | name text k => exact .cons trivial h
  | symbol c k => exact .cons trivial h

theorem ended_scan (before : Pending) (k : Nat) (cs : List Glyph) : Ended (scan before k cs) := by
  induction cs generalizing before k with
  | nil =>
      rw [scan]
      exact Ended.emit_append (.last id) before
  | cons g cs ih =>
      cases g with
      | stray byte => exact .last id
      | char c =>
          rw [scan]
          split
          · exact ih _ _
          · split
            · exact .last id
            · exact (ih _ _).emit_append before

theorem exists_of_append_eq_concat {as bs ks : List TokenKind} {k : TokenKind}
    (h : as ++ bs = ks ++ [k]) (hbs : bs ≠ []) : ∃ later, ks = as ++ later ∧ bs = later ++ [k] := by
  obtain ⟨init, last, rfl⟩ : ∃ init last, bs = init ++ [last] :=
    ⟨bs.dropLast, bs.getLast hbs, (List.dropLast_concat_getLast hbs).symm⟩
  rw [← List.append_assoc] at h
  obtain ⟨rfl, hlast⟩ := List.append_inj' h rfl
  exact ⟨init, rfl, by rw [hlast]⟩

/-- Where the scanner gives up, the rest of the text spells nothing. -/
theorem stuck_iff {before : Pending} {t : Token} (ht : t.kind ≠ .eof)
    (hstops : ∀ text k, before = .name text k → NameStops cs) (hcs : ∀ later, ¬Spelled cs later) :
    [t].map (·.kind) = ks ++ [.eof] ↔ SpelledAfter before cs ks := by
  rw [spelledAfter_of_complete hstops]
  constructor
  · intro h
    have hlast : t.kind = .eof := by simpa using congrArg List.getLast? h
    exact absurd hlast ht
  · rintro ⟨later, -, h⟩
    exact absurd h (hcs later)

/-- The scanner finds the tokens that the rest of a text spells. -/
theorem scan_iff {before : Pending} {k : Nat} :
    (scan before k cs).map (·.kind) = ks ++ [.eof] ↔ SpelledAfter before cs ks := by
  induction cs generalizing before k ks with
  | nil =>
      have hstops : ∀ text k, before = .name text k → NameStops [] := fun _ _ _ => trivial
      rw [spelledAfter_of_complete hstops, scan, List.map_append]
      constructor
      · intro h
        obtain ⟨rfl, -⟩ := List.append_inj' h rfl
        exact ⟨[], by simp, .nil⟩
      · rintro ⟨later, rfl, h⟩
        rw [spelled_nil_iff.mp h, List.append_nil]
        rfl
  | cons g cs ih =>
      cases g with
      | stray byte =>
          exact stuck_iff (by simp) (fun _ _ _ => trivial) fun _ => not_spelled_stray
      | char c =>
          rw [scan]
          -- either the character makes the name before it longer, or what is before it is complete
          split
          · rename_i longer hlonger
            obtain ⟨text, j, rfl, hc, rfl⟩ := extend?_eq_some hlonger
            exact ih.trans (nameGoesOn_push text hc).symm
          · rename_i hnone
            have hstops : ∀ text k, before = .name text k → NameStops (.char c :: cs) :=
              nameStops_of_extend? hnone
            split
            · rename_i hnul
              subst hnul
              exact stuck_iff (by simp) hstops fun _ => not_spelled_nul
            · rename_i hnul
              rw [spelledAfter_of_complete hstops, List.map_append]
              constructor
              · intro h
                have hended := ended_scan (before.start c k) (if c = '\n' then 1 else k + 1) cs
                obtain ⟨later, rfl, hscan⟩ :=
                  exists_of_append_eq_concat h (by simpa using hended.ne_nil)
                exact ⟨later, rfl, (spelledAfter_start before k hnul).mp (ih.mp hscan)⟩
              · rintro ⟨later, rfl, h⟩
                rw [List.append_assoc, ih.mpr ((spelledAfter_start before k hnul).mpr h)]

/-- The tokens of a text are those it spells, and then the end of the text. -/
theorem tokens_iff {source : Text} :
    (tokens source).map (·.kind) = ks ++ [.eof] ↔ Spells source ks := by
  rw [tokens, Spells]
  split
  · rename_i hnil
    rw [hnil]
    change (scan (.gap 0) 0 []).map (·.kind) = _ ↔ SpelledAfter (.gap 0) [] ks
    exact scan_iff
  · rename_i cs hmarked
    rw [hmarked]
    exact scan_iff
  · rename_i hnil hmarked
    have hunmarked : unmarked source.glyphs = source.glyphs := by
      rw [unmarked]
      exact hmarked
    rw [hunmarked]
    exact scan_iff

theorem ended_tokens (source : Text) : Ended (tokens source) := by
  rw [tokens]
  split
  · exact .last id
  · exact ended_scan _ _ _
  · exact ended_scan _ _ _

/-- A text spells one sequence of tokens at most. -/
theorem Spells.unique {source : Text} {later : List TokenKind} (h : Spells source ks)
    (h' : Spells source later) : ks = later := by
  have heq : ks ++ [.eof] = later ++ [.eof] := (tokens_iff.mpr h).symm.trans (tokens_iff.mpr h')
  exact (List.append_inj' heq rfl).1

theorem Spelled.isName {text : String} (h : Spelled cs ks) (htext : .name text ∈ ks) :
    IsName text := by
  induction h with
  | nil => cases htext
  | blank _ _ ih => exact ih htext
  | name hname _ _ ih =>
      rcases List.mem_cons.mp htext with heq | htext
      · obtain rfl := TokenKind.name.inj heq
        exact hname
      · exact ih htext
  | symbol _ _ _ _ ih =>
      rcases List.mem_cons.mp htext with heq | htext
      · cases heq
      · exact ih htext

end TraitResolution.TypeExpr
