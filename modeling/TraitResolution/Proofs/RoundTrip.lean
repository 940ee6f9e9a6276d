import TraitResolution.Env
import TraitResolution.Proofs.Collections
import TraitResolution.Proofs.Grammar

/-!
# Texts of types are read back

The text of a type that is made of constructors only, all with names as their ids, spells an
expression for that type. Reading it therefore gives the type back. The same goes for references to
traits with such names, whatever the names are: `for` is one of them. So the texts tell such types
and references apart, and all types that can be read from a text without names in scope are of this
kind.

## Implementation notes

Names are separated by brackets, commas and blanks, none of which can belong to a name. What is
shown of a part of a text is therefore stated for every rest of the text where no name goes on.
-/

namespace TraitResolution.TypeExpr

/-- A type made of constructors only, with names as their ids. -/
inductive Plain : Ty → Prop
  | con {id : String} {args : List Ty} (hid : IsName id) (hargs : ∀ a ∈ args, Plain a) :
      Plain (.con id args)

/-- A reference to a trait that has a name as its id, with types made of constructors only. -/
structure PlainReference (r : Reference) : Prop where
  id : ∃ id, IsName id ∧ r.id = Text.ofString id
  types : ∀ t ∈ r.types, Plain t

variable {varText : Var → String} {e : Expr} {es : List Expr} {t : Ty} {args : List Ty}
  {cs : List Glyph} {ks : List TokenKind}

theorem toList_items (u : String) (us : List String) :
    (", ".intercalate (u :: us)).toList =
      u.toList ++ us.flatMap fun w => ',' :: ' ' :: w.toList := by
  rw [String.toList_intercalate]
  induction us generalizing u with
  | nil => simp [List.intercalate]
  | cons w us ih =>
      rw [List.map_cons, List.map_cons, List.intercalate_cons_cons, ← List.map_cons, ih]
      simp

theorem toList_bracketed_cons (u : String) (us : List String) :
    (Ty.bracketed (u :: us)).toList =
      '<' :: (u.toList ++ us.flatMap (fun w => ',' :: ' ' :: w.toList) ++ ['>']) := by
  have hitems := toList_items u us
  simp [Ty.bracketed, hitems]

/-- The expression stands for the type, and is what the text of the type spells. -/
structure Renders (varText : Var → String) (e : Expr) (t : Ty) : Prop where
  fits : e.Fits ⟨[], false⟩
  type_eq : ∀ vars, e.type ⟨[], false⟩ vars = t
  spelled : ∀ cs ks, NameStops cs → Spelled cs ks →
    Spelled ((t.text varText).toList.map .char ++ cs) (e.sentence ++ ks)

theorem nameStops_items (us : List String) (hcs : NameStops cs) :
    NameStops ((us.flatMap fun w => ',' :: ' ' :: w.toList).map .char ++ cs) := by
  cases us with
  | nil => exact hcs
  | cons w us =>
      have hcomma : isNameRest ',' = false := by decide
      exact hcomma

theorem nameStops_bracketed (us : List String) (hcs : NameStops cs) :
    NameStops ((Ty.bracketed us).toList.map .char ++ cs) := by
  cases us with
  | nil => exact hcs
  | cons u us =>
      have hbracket : isNameRest '<' = false := by decide
      rw [toList_bracketed_cons]
      exact hbracket

theorem spelled_items (h : List.Forall₂ (Renders varText) es args) (hcs : NameStops cs)
    (hrest : Spelled cs ks) :
    Spelled (((args.map (Ty.text varText)).flatMap fun w => ',' :: ' ' :: w.toList).map .char ++ cs)
      (Expr.moreSentence es ++ ks) := by
  induction h with
  | nil => simpa [Expr.moreSentence] using hrest
  | @cons e t es args he _ ih =>
      have hitem := he.spelled _ _ (nameStops_items _ hcs) ih
      rw [Expr.moreSentence]
      simpa using Spelled.symbol (by decide) (by decide) (by decide) (.blank (by decide) hitem)

theorem spelled_bracketed (h : List.Forall₂ (Renders varText) es args) (hrest : Spelled cs ks) :
    Spelled ((Ty.bracketed (args.map (Ty.text varText))).toList.map .char ++ cs)
      (Expr.argsSentence es ++ ks) := by
  cases h with
  | nil => simpa [Expr.argsSentence, Ty.bracketed] using hrest
  | @cons e t es args he hes =>
      have hclose : Spelled (.char '>' :: cs) (.symbol '>' :: ks) :=
        .symbol (by decide) (by decide) (by decide) hrest
      have hstops : NameStops (.char '>' :: cs) := by
        have hbracket : isNameRest '>' = false := by decide
        exact hbracket
      have hitems := he.spelled _ _ (nameStops_items _ hstops) (spelled_items hes hstops hclose)
      rw [List.map_cons, toList_bracketed_cons, Expr.argsSentence]
      simpa using Spelled.symbol (by decide) (by decide) (by decide) hitems

theorem exists_forall₂_renders (h : ∀ a ∈ args, ∃ e, Renders varText e a) :
    ∃ es, List.Forall₂ (Renders varText) es args := by
  obtain ⟨es, hes⟩ := exists_forall₂_iff.mpr h
  exact ⟨es, hes.flip⟩

theorem fits_of_forall₂ (h : List.Forall₂ (Renders varText) es args) :
    ∀ e ∈ es, e.Fits ⟨[], false⟩ := by
  intro e he
  obtain ⟨t, -, hrenders⟩ := exists_of_mem_left h he
  exact hrenders.fits

theorem map_type_of_forall₂ (h : List.Forall₂ (Renders varText) es args) (vars : List String) :
    es.map (Expr.type ⟨[], false⟩ vars) = args := by
  have hmap := map_eq_map_of_forall₂ (f := id) (fun _ _ he => (he.type_eq vars).symm) h
  rw [← hmap, List.map_id]

theorem text_con (id : String) (args : List Ty) :
    Ty.text varText (.con id args) = id ++ Ty.bracketed (args.map (Ty.text varText)) := by
  rw [Ty.text, Ty.textAll_eq_map]

/-- Every type of this kind has an expression that its text spells. -/
theorem Plain.exists_renders (h : Plain t) (varText : Var → String) :
    ∃ e, Renders varText e t := by
  induction h with
  | @con id args hid _ ih =>
      obtain ⟨es, hes⟩ := exists_forall₂_renders ih
      refine ⟨.named id es, ⟨.con List.not_mem_nil (fits_of_forall₂ hes), fun vars => ?_, ?_⟩⟩
      · rw [Expr.type_con es List.not_mem_nil, map_type_of_forall₂ hes]
      · intro cs ks hcs hrest
        have hargs := spelled_bracketed hes hrest
        rw [text_con]
        simpa [Expr.sentence] using Spelled.name hid (nameStops_bracketed _ hcs) hargs

theorem unmarked_of_isName {id : String} (hid : IsName id) (cs : List Glyph) :
    unmarked (id.toList.map .char ++ cs) = id.toList.map .char ++ cs := by
  obtain ⟨c, rest, hlist, hc, -⟩ := hid
  rw [hlist, List.map_cons, List.cons_append, unmarked]
  -- the mark is not a letter, so it cannot be the first character of a name
  intro _ hmark
  obtain rfl := Glyph.char.inj (List.cons.inj hmark).1
  revert hc
  decide +kernel

theorem nameStops_blank (cs : List Glyph) : NameStops (.char ' ' :: cs) := by
  have hblank : isNameRest ' ' = false := by decide
  exact hblank

theorem glyphs_text (typeText : Ty → String) (id : String) (self : Ty) (params : List Ty) :
    (Reference.text typeText ⟨Text.ofString id, self, params⟩).glyphs =
      id.toList.map .char ++ ((Ty.bracketed (params.map typeText)).toList.map .char ++
        .char ' ' :: ("for".toList.map .char ++
          .char ' ' :: (typeText self).toList.map .char)) := by
  have happend (a b : Text) : (a ++ b).glyphs = a.glyphs ++ b.glyphs := rfl
  simp [Reference.text, happend, Text.ofString]

/-- The text of a type spells an expression for it. -/
theorem Plain.exists_spells (h : Plain t) (varText : Var → String) :
    ∃ e : Expr, Spells (Text.ofString (t.text varText)) e.sentence ∧ e.Fits ⟨[], false⟩ ∧
      ∀ vars, e.type ⟨[], false⟩ vars = t := by
  obtain ⟨e, he⟩ := h.exists_renders varText
  refine ⟨e, ?_, he.fits, he.type_eq⟩
  have hspelled : Spelled ((t.text varText).toList.map .char) e.sentence := by
    simpa using he.spelled [] [] trivial .nil
  cases h with
  | @con id args hid _ =>
      rw [text_con, String.toList_append, List.map_append] at hspelled
      rw [text_con, Spells, Text.ofString, String.toList_append, List.map_append,
        unmarked_of_isName hid]
      exact hspelled

/-- The text of a reference spells a tree for it. -/
theorem PlainReference.exists_spells {r : Reference} (h : PlainReference r)
    (varText : Var → String) :
    ∃ x : ReferenceExpr, Spells (r.text (Ty.text varText)) x.sentence ∧ x.Fits ⟨[], false⟩ ∧
      ∀ vars, x.reference ⟨[], false⟩ vars = r := by
  obtain ⟨rid, self, params⟩ := r
  obtain ⟨⟨id, hid, rfl⟩, htypes⟩ := h
  obtain ⟨hself, hparams⟩ := List.forall_mem_cons.mp htypes
  obtain ⟨e, he⟩ := hself.exists_renders varText
  obtain ⟨es, hes⟩ := exists_forall₂_renders fun a ha => (hparams a ha).exists_renders varText
  refine ⟨⟨⟨id, es⟩, e⟩, ?_, ⟨fits_of_forall₂ hes, he.fits⟩, fun vars => ?_⟩
  · have hfor : IsName "for" := by decide +kernel
    have hself : Spelled (.char ' ' :: (self.text varText).toList.map .char) e.sentence := by
      simpa using Spelled.blank (by decide) (he.spelled [] [] trivial .nil)
    -- the word `for` is told from the id of the trait by its place only
    have hword := Spelled.blank (c := ' ') (by decide) (.name hfor (nameStops_blank _) hself)
    have hargs := spelled_bracketed hes hword
    rw [Spells, glyphs_text, unmarked_of_isName hid]
    simpa [ReferenceExpr.sentence, TraitExpr.sentence] using
      Spelled.name hid (nameStops_bracketed _ (nameStops_blank _)) hargs
  · rw [ReferenceExpr.reference, TraitExpr.reference, he.type_eq, map_type_of_forall₂ hes]

/-- No unknowns are allowed, so there are none. -/
theorem unknowns_of_fits {params : List Text} (h : e.Fits ⟨params, false⟩) : e.unknowns = [] := by
  induction h with
  | param _ => rw [Expr.unknowns_named, List.flatMap_nil]
  | con _ _ ih => rw [Expr.unknowns_named, List.flatMap_eq_nil_iff.mpr ih]
  | unknown hallowed => cases hallowed

theorem parseType_iff {source : Text} :
    parseType source = .ok t ↔
      ∃ e : Expr, Spells source e.sentence ∧ e.Fits ⟨[], false⟩ ∧ t = e.type ⟨[], false⟩ [] := by
  have hread : parseType source = .ok t ↔
      ∃ later, (Parser.type ⟨[], false⟩).run source [] = .ok (t, later) := by
    rw [parseType]
    rcases (Parser.type ⟨[], false⟩).run source [] with _ | ⟨u, later⟩ <;> simp [Except.map]
  rw [hread]
  constructor
  · rintro ⟨later, h⟩
    obtain ⟨e, hspells, hfits, rfl, rfl⟩ :=
      ((Parser.recognizes_type _).run_iff Expr.written_sentence).mp h
    rw [unknowns_of_fits hfits]
    exact ⟨e, hspells, hfits, rfl⟩
  · rintro ⟨e, hspells, hfits, rfl⟩
    refine ⟨[], ((Parser.recognizes_type _).run_iff Expr.written_sentence).mpr ?_⟩
    exact ⟨e, hspells, hfits, by rw [unknowns_of_fits hfits, seen], rfl⟩

theorem mem_moreSentence {a : Expr} {k : TokenKind} (ha : a ∈ es) (hk : k ∈ a.sentence) :
    k ∈ Expr.moreSentence es := by
  induction es with
  | nil => cases ha
  | cons e es ih =>
      rw [Expr.moreSentence]
      apply List.mem_cons_of_mem
      rcases List.mem_cons.mp ha with rfl | ha
      · exact List.mem_append_left _ hk
      · exact List.mem_append_right _ (ih ha)

theorem mem_argsSentence {a : Expr} {k : TokenKind} (ha : a ∈ es) (hk : k ∈ a.sentence) :
    k ∈ Expr.argsSentence es := by
  cases es with
  | nil => cases ha
  | cons e es =>
      rw [Expr.argsSentence]
      apply List.mem_cons_of_mem
      apply List.mem_append_left
      rcases List.mem_cons.mp ha with rfl | ha
      · exact List.mem_append_left _ hk
      · exact List.mem_append_right _ (mem_moreSentence ha hk)

/-- Where no names are in scope, an expression stands for a type made of constructors only. -/
theorem plain_of_fits (h : e.Fits ⟨[], false⟩) (hnames : ∀ id, .name id ∈ e.sentence → IsName id)
    (vars : List String) : Plain (e.type ⟨[], false⟩ vars) := by
  induction h with
  | param hid => exact absurd hid List.not_mem_nil
  | unknown hallowed => cases hallowed
  | @con id args hid _ ih =>
      rw [Expr.sentence] at hnames
      rw [Expr.type_con args hid]
      refine .con (hnames id List.mem_cons_self) (List.forall_mem_map.mpr fun a ha => ?_)
      exact ih a ha fun id hname => hnames id (List.mem_cons_of_mem _ (mem_argsSentence ha hname))

/-- What can be read without names in scope is made of constructors only. -/
theorem plain_of_parseType {source : Text} (h : parseType source = .ok t) : Plain t := by
  obtain ⟨e, hspells, hfits, rfl⟩ := parseType_iff.mp h
  exact plain_of_fits hfits (fun id hid => hspells.isName hid) []

theorem parseType_text (h : Plain t) (varText : Var → String) :
    parseType (t.text varText) = .ok t := by
  obtain ⟨e, hspells, hfits, htype⟩ := h.exists_spells varText
  exact parseType_iff.mpr ⟨e, hspells, hfits, (htype []).symm⟩

theorem run_reference_text {r : Reference} (h : PlainReference r) (varText : Var → String) :
    (Parser.reference ⟨[], false⟩ none).run (r.text (Ty.text varText)) [] = .ok (r, []) := by
  obtain ⟨x, hspells, hfits, hreference⟩ := h.exists_spells varText
  have hargs : x.trait.unknowns = [] :=
    List.flatMap_eq_nil_iff.mpr fun a ha => unknowns_of_fits (hfits.1 a ha)
  have hunknowns : x.unknowns = [] := by
    rw [ReferenceExpr.unknowns, hargs, unknowns_of_fits hfits.2, List.append_nil]
  refine ((Parser.recognizes_reference_none _).run_iff ReferenceExpr.written_sentence).mpr ?_
  exact ⟨x, hspells, hfits, by rw [hunknowns, seen], (hreference []).symm⟩

/-- The text of a type is that of its tree, with some text for each variable. -/
theorem exists_text_eq (env : Env) : ∃ varText, env.text = Ty.text varText := by
  have hwithin : ∀ n, ∃ varText, env.textWithin n = Ty.text varText := by
    intro n
    cases n with
    | zero => exact ⟨_, rfl⟩
    | succ n => exact ⟨_, rfl⟩
  exact hwithin env.len

/-- Types made of constructors only and references to traits over them are read back from their
texts. So their texts tell them apart. Every type that can be read is of this kind, so that it can
be read again from its own text. -/
theorem parse_text_inverse (env : Env) :
    (∀ t, Plain t → parseType (env.text t) = .ok t) ∧
    (∀ r, PlainReference r →
      (Parser.reference ⟨[], false⟩ none).run (env.refText r) [] = .ok (r, [])) ∧
    (∀ t u, Plain t → Plain u → env.text t = env.text u → t = u) ∧
    (∀ r q, PlainReference r → PlainReference q → env.refText r = env.refText q → r = q) ∧
    ∀ source t, parseType source = .ok t → Plain t ∧ parseType (env.text t) = .ok t := by
  obtain ⟨varText, htext⟩ := exists_text_eq env
  have htype : ∀ t, Plain t → parseType (env.text t) = .ok t := by
    intro t ht
    rw [htext]
    exact parseType_text ht varText
  have hreference : ∀ r, PlainReference r →
      (Parser.reference ⟨[], false⟩ none).run (env.refText r) [] = .ok (r, []) := by
    intro r hr
    rw [Env.refText, htext]
    exact run_reference_text hr varText
  refine ⟨htype, hreference, ?_, ?_, ?_⟩
  · intro t u ht hu h
    have hread := htype t ht
    rw [h, htype u hu] at hread
    exact (Except.ok.inj hread).symm
  · intro r q hr hq h
    have hread := hreference r hr
    rw [h, hreference q hq] at hread
    exact (Prod.mk.inj (Except.ok.inj hread)).1.symm
  · intro source t h
    have ht := plain_of_parseType h
    exact ⟨ht, htype t ht⟩

/-- A type with arguments that have arguments. -/
def nested : Ty := .con "Map" [.con "str" [], .con "List" [.con "int" []]]

/-- A reference to a trait that is called `for`. -/
def toFor (self : Ty) : Reference := ⟨"for", self, [.con "int" []]⟩

theorem parse_text_inverse_nested :
    Plain nested ∧ PlainReference (toFor nested) ∧
    parseType (Env.empty.text nested) = .ok nested ∧
    (Parser.reference ⟨[], false⟩ none).run (Env.empty.refText (toFor nested)) [] =
      .ok (toFor nested, []) ∧
    Env.empty.text nested ≠ Env.empty.text (.con "int" []) ∧
    Env.empty.refText (toFor nested) ≠ Env.empty.refText (toFor (.con "int" [])) ∧
    parseType " int\n" = .ok (.con "int" []) ∧
    Plain (.con "int" []) ∧ parseType (Env.empty.text (.con "int" [])) = .ok (.con "int" []) := by
  obtain ⟨htype, hreference, htypes, hreferences, hagain⟩ := parse_text_inverse Env.empty
  have hint : Plain (.con "int" []) := .con (by decide +kernel) (by simp)
  have hstr : Plain (.con "str" []) := .con (by decide +kernel) (by simp)
  have hlist : Plain (.con "List" [.con "int" []]) :=
    .con (by decide +kernel) (by simpa using hint)
  have hnested : Plain nested :=
    .con (by decide +kernel) (by simpa using ⟨hstr, hlist⟩)
  have hfor {self : Ty} (hself : Plain self) : PlainReference (toFor self) :=
    ⟨⟨"for", by decide +kernel, rfl⟩,
      by simpa [Reference.types, toFor] using ⟨hself, hint⟩⟩
  have hsource : parseType " int\n" = .ok (.con "int" []) := by decide +kernel
  refine ⟨hnested, hfor hnested, htype _ hnested, hreference _ (hfor hnested), fun h => ?_,
    fun h => ?_, hsource, hagain _ _ hsource⟩
  · exact absurd (htypes _ _ hnested hint h) (by decide)
  · exact absurd (hreferences _ _ (hfor hnested) (hfor hint) h) (by decide)

end TraitResolution.TypeExpr
