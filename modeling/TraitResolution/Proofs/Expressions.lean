import Mathlib.Data.List.Basic
import TraitResolution.Proofs.Spelling
import TraitResolution.TypeExpr.Parser

/-!
# Syntax trees of type expressions

The grammar of type expressions, said without the parser. A tree is a name with any number of
arguments or an unknown, and has one sentence of tokens. A scope restricts the trees: the name of a
type parameter takes no arguments, and there are unknowns only if they are allowed. Given the scope
and the names of the inference variables, a tree stands for a type.

## Implementation notes

As for types, each function on trees comes with its twin on lists of trees, and a lemma turns the
twin into a `List` function.
-/

namespace TraitResolution.TypeExpr

/-- The syntax tree of a type expression. -/
inductive Expr where
  /-- A name with its arguments, as in `Map<str, int>`. -/
  | named (id : String) (args : List Expr)
  /-- A question mark and the name of an inference variable. -/
  | unknown (name : String)

namespace Expr

variable {scope : Scope} {vars later : List String} {e : Expr} {es : List Expr}

mutual

/-- The tokens of an expression. -/
def sentence : Expr → List TokenKind
  | named id args => .name id :: argsSentence args
  | unknown name => [.symbol '?', .name name]

/-- The tokens of arguments, which are in angle brackets unless there are none. -/
def argsSentence : List Expr → List TokenKind
  | [] => []
  | e :: es => .symbol '<' :: (sentence e ++ moreSentence es ++ [.symbol '>'])

/-- The tokens of the arguments after the first one. -/
def moreSentence : List Expr → List TokenKind
  | [] => []
  | e :: es => .symbol ',' :: (sentence e ++ moreSentence es)

end

mutual

/-- The names of the unknowns of an expression, from left to right, with repeats. -/
def unknowns : Expr → List String
  | named _ args => unknownsAll args
  | unknown name => [name]

/-- The names of the unknowns of a list of expressions. -/
def unknownsAll : List Expr → List String
  | [] => []
  | e :: es => unknowns e ++ unknownsAll es

end

/-- An expression that makes sense in a scope. -/
inductive Fits (scope : Scope) : Expr → Prop
  | param {id : String} (hid : Text.ofString id ∈ scope.params) : Fits scope (named id [])
  | con {id : String} {args : List Expr} (hid : Text.ofString id ∉ scope.params)
      (hargs : ∀ a ∈ args, Fits scope a) : Fits scope (named id args)
  | unknown {name : String} (hallowed : scope.allowsVars = true) : Fits scope (unknown name)

mutual

/-- The type that an expression stands for: names of type parameters by their position, unknowns by
the position of their names among those of the inference variables. -/
def type (scope : Scope) (vars : List String) : Expr → Ty
  | named id args =>
    match scope.params.idxOf? (Text.ofString id) with
    | some i => .param i
    | none => .con id (typeAll scope vars args)
  | unknown name => .var ⟨vars.idxOf name, 0⟩

/-- The types that a list of expressions stands for. -/
def typeAll (scope : Scope) (vars : List String) : List Expr → List Ty
  | [] => []
  | e :: es => type scope vars e :: typeAll scope vars es

end

@[simp] theorem unknownsAll_eq_flatMap (es : List Expr) :
    unknownsAll es = es.flatMap unknowns := by
  induction es with
  | nil => simp [unknownsAll]
  | cons e es ih => simp [unknownsAll, ih]

@[simp] theorem typeAll_eq_map (scope : Scope) (vars : List String) (es : List Expr) :
    typeAll scope vars es = es.map (type scope vars) := by
  induction es with
  | nil => simp [typeAll]
  | cons e es ih => simp [typeAll, ih]

/-- Induction on expressions, with one hypothesis for each argument. -/
@[elab_as_elim]
theorem induction {P : Expr → Prop} (named : ∀ id args, (∀ a ∈ args, P a) → P (named id args))
    (unknown : ∀ name, P (unknown name)) (e : Expr) : P e := by
  refine @Expr.rec P (fun es => ∀ a ∈ es, P a) named unknown ?_ ?_ e
  · intro a ha
    exact absurd ha List.not_mem_nil
  · intro e es he hes a ha
    rcases List.mem_cons.mp ha with rfl | ha
    · exact he
    · exact hes a ha

theorem idxOf?_eq_none_iff {id : String} :
    scope.params.idxOf? (Text.ofString id) = none ↔ Text.ofString id ∉ scope.params :=
  List.idxOf?_eq_none_iff

theorem exists_idxOf?_eq_some {id : String} (hid : Text.ofString id ∈ scope.params) :
    ∃ i, scope.params.idxOf? (Text.ofString id) = some i := by
  rw [← Option.isSome_iff_exists, Option.isSome_iff_ne_none]
  exact fun h => idxOf?_eq_none_iff.mp h hid

theorem type_param {id : String} {i : Nat} (args : List Expr)
    (hid : scope.params.idxOf? (Text.ofString id) = some i) :
    type scope vars (named id args) = .param i := by
  rw [type, hid]

theorem type_con {id : String} (args : List Expr) (hid : Text.ofString id ∉ scope.params) :
    type scope vars (named id args) = .con id (args.map (type scope vars)) := by
  rw [type, idxOf?_eq_none_iff.mpr hid, typeAll_eq_map]

@[simp] theorem type_unknown (name : String) :
    type scope vars (unknown name) = .var ⟨vars.idxOf name, 0⟩ := by
  rw [type]

@[simp] theorem unknowns_named (id : String) (args : List Expr) :
    (named id args).unknowns = args.flatMap unknowns := by
  rw [unknowns, unknownsAll_eq_flatMap]

/-- More names make no difference to an expression whose unknowns are among those there are. -/
theorem type_of_isPrefix (hle : vars <+: later) (he : ∀ name ∈ e.unknowns, name ∈ vars) :
    e.type scope later = e.type scope vars := by
  induction e using induction with
  | named id args ih =>
      have hargs : args.map (type scope later) = args.map (type scope vars) := by
        apply List.map_congr_left
        intro a ha
        apply ih a ha
        intro name hname
        exact he name (by simpa using ⟨a, ha, hname⟩)
      rw [type, type, typeAll_eq_map, typeAll_eq_map, hargs]
  | unknown name =>
      obtain ⟨newer, rfl⟩ := hle
      simp [List.idxOf_append_of_mem (he name (by simp [unknowns]))]

/-- Without type parameters, an expression can be told from the type it stands for. -/
theorem type_injective {d : Expr} {allows : Bool}
    (hd : ∀ name ∈ d.unknowns, name ∈ vars) (he : ∀ name ∈ e.unknowns, name ∈ vars)
    (h : d.type ⟨[], allows⟩ vars = e.type ⟨[], allows⟩ vars) : d = e := by
  induction d using induction generalizing e with
  | named id args ih =>
      cases e with
      | unknown name =>
          rw [type_con args List.not_mem_nil, type_unknown] at h
          cases h
      | named id' args' =>
          rw [type_con args List.not_mem_nil, type_con args' List.not_mem_nil] at h
          obtain ⟨rfl, hargs⟩ := Ty.con.inj h
          have hlen : args.length = args'.length := by simpa using congrArg List.length hargs
          congr 1
          apply List.ext_getElem hlen
          intro i hi hi'
          apply ih _ (List.getElem_mem hi)
          · intro name hname
            exact hd name (by simpa using ⟨_, List.getElem_mem hi, hname⟩)
          · intro name hname
            exact he name (by simpa using ⟨_, List.getElem_mem hi', hname⟩)
          · have hget := List.getElem_of_eq hargs (by simpa using hi)
            simpa using hget
  | unknown name =>
      cases e with
      | named id args =>
          rw [type_con args List.not_mem_nil, type_unknown] at h
          cases h
      | unknown name' =>
          rw [type_unknown, type_unknown, Ty.var.injEq, Var.mk.injEq, and_iff_left rfl] at h
          congr 1
          exact (List.idxOf_inj (hd name (by simp [unknowns]))).mp h

/-- Where no type parameters are in scope and unknowns are allowed, every expression makes sense. -/
theorem fits_nil (e : Expr) : e.Fits ⟨[], true⟩ := by
  induction e using induction with
  | named id args ih => exact .con List.not_mem_nil ih
  | unknown name => exact .unknown rfl

theorem sentence_ne_nil (e : Expr) : e.sentence ≠ [] := by
  cases e <;> simp [sentence]

theorem written_moreSentence_of (h : ∀ e ∈ es, ∀ k ∈ e.sentence, k.Written) :
    ∀ k ∈ moreSentence es, k.Written := by
  induction es with
  | nil => simp [moreSentence]
  | cons e es ih =>
      obtain ⟨he, hes⟩ := List.forall_mem_cons.mp h
      rw [moreSentence]
      exact List.forall_mem_cons.mpr ⟨trivial, List.forall_mem_append.mpr ⟨he, ih hes⟩⟩

/-- The tokens of an expression are all written. -/
theorem written_sentence (e : Expr) : ∀ k ∈ e.sentence, k.Written := by
  induction e using induction with
  | named id args ih =>
      rw [sentence]
      refine List.forall_mem_cons.mpr ⟨trivial, ?_⟩
      cases args with
      | nil => simp [argsSentence]
      | cons a args =>
          obtain ⟨ha, hargs⟩ := List.forall_mem_cons.mp ih
          rw [argsSentence]
          refine List.forall_mem_cons.mpr ⟨trivial, ?_⟩
          refine List.forall_mem_append.mpr ⟨?_, List.forall_mem_singleton.mpr trivial⟩
          exact List.forall_mem_append.mpr ⟨ha, written_moreSentence_of hargs⟩
  | unknown name =>
      rw [sentence]
      exact List.forall_mem_cons.mpr ⟨trivial, List.forall_mem_singleton.mpr trivial⟩

theorem written_moreSentence (es : List Expr) : ∀ k ∈ moreSentence es, k.Written :=
  written_moreSentence_of fun e _ => e.written_sentence

/-- After an argument comes another one or the end of the arguments. -/
theorem head?_moreSentence_append (es : List Expr) (rest : List TokenKind) :
    (moreSentence es ++ .symbol '>' :: rest).head? ≠ some (.symbol '<') := by
  cases es <;> simp [moreSentence]

end Expr

/-- The syntax tree of a trait with its arguments. -/
structure TraitExpr where
  id : String
  args : List Expr

namespace TraitExpr

/-- The tokens of a trait with its arguments. -/
def sentence (x : TraitExpr) : List TokenKind :=
  .name x.id :: Expr.argsSentence x.args

/-- The names of the unknowns of the arguments, from left to right, with repeats. -/
def unknowns (x : TraitExpr) : List String :=
  x.args.flatMap Expr.unknowns

/-- The arguments make sense in a scope. -/
def Fits (scope : Scope) (x : TraitExpr) : Prop :=
  ∀ a ∈ x.args, a.Fits scope

/-- The reference that a trait with its arguments stands for, with a self type. -/
def reference (scope : Scope) (self : Ty) (vars : List String) (x : TraitExpr) : Reference :=
  ⟨Text.ofString x.id, self, x.args.map (Expr.type scope vars)⟩

end TraitExpr

/-- The syntax tree of a trait reference. -/
structure ReferenceExpr where
  trait : TraitExpr
  self : Expr

namespace ReferenceExpr

/-- The tokens of a trait reference. -/
def sentence (x : ReferenceExpr) : List TokenKind :=
  x.trait.sentence ++ .name "for" :: x.self.sentence

/-- The names of the unknowns of a trait reference, from left to right, with repeats. -/
def unknowns (x : ReferenceExpr) : List String :=
  x.trait.unknowns ++ x.self.unknowns

/-- The expressions of a trait reference make sense in a scope. -/
def Fits (scope : Scope) (x : ReferenceExpr) : Prop :=
  x.trait.Fits scope ∧ x.self.Fits scope

/-- The reference that a tree stands for. -/
def reference (scope : Scope) (vars : List String) (x : ReferenceExpr) : Reference :=
  x.trait.reference scope (x.self.type scope vars) vars

end ReferenceExpr

theorem Expr.written_argsSentence (es : List Expr) : ∀ k ∈ argsSentence es, k.Written :=
  fun k hk => (Expr.named "" es).written_sentence k (List.mem_cons_of_mem _ hk)

theorem TraitExpr.written_sentence (x : TraitExpr) : ∀ k ∈ x.sentence, k.Written :=
  List.forall_mem_cons.mpr ⟨trivial, Expr.written_argsSentence x.args⟩

theorem ReferenceExpr.written_sentence (x : ReferenceExpr) : ∀ k ∈ x.sentence, k.Written := by
  refine List.forall_mem_append.mpr ⟨x.trait.written_sentence, ?_⟩
  exact List.forall_mem_cons.mpr ⟨trivial, x.self.written_sentence⟩

/-- The names seen so far, once more names are seen. -/
def seen (vars : List String) : List String → List String
  | [] => vars
  | name :: names => seen (if name ∈ vars then vars else vars ++ [name]) names

theorem seen_append (vars first second : List String) :
    seen vars (first ++ second) = seen (seen vars first) second := by
  induction first generalizing vars with
  | nil => rfl
  | cons name first ih => exact ih _

theorem isPrefix_seen (vars names : List String) : vars <+: seen vars names := by
  induction names generalizing vars with
  | nil => exact List.prefix_refl vars
  | cons name names ih =>
      refine List.IsPrefix.trans ?_ (ih _)
      split
      · exact List.prefix_refl vars
      · exact List.prefix_append vars [name]

theorem mem_seen {vars names : List String} {name : String} (h : name ∈ names) :
    name ∈ seen vars names := by
  induction names generalizing vars with
  | nil => cases h
  | cons other names ih =>
      rcases List.mem_cons.mp h with rfl | h
      · apply (isPrefix_seen _ names).subset
        split
        · assumption
        · simp
      · exact ih h

end TraitResolution.TypeExpr
