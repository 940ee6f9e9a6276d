import TraitResolution.Solver

/-! # Method calls

The receiver of a call is dereferenced until exactly one trait that declares the method cannot be
ruled out for the type reached. Then the receiver type of the method is matched with the place
reached, a shared reference to it or a mutable reference to it, taking dereferences back while
nothing matches. A mutable reference needs every dereference to be mutable.
-/

namespace TraitResolution

/-- The answer to a method call. -/
inductive MethodResult where
  /-- The method of a trait, with the receiver it is called on. -/
  | found (trait : Reference) (method : Method) (receiver : Adjusted) (evidence : Resolution)
  /-- More than one trait could provide the method. -/
  | ambiguous (traits : List Trait)
  /-- No trait provides the method on the way, and this type cannot be dereferenced. -/
  | cannotDeref (type : Ty)
  /-- The method needs a mutable reference to a place that cannot be made mutable. -/
  | cannotRefMut (place : Place)
  /-- The receiver type of the method matches no adjustment of the receiver. -/
  | cannotReconcile (selfType : Ty) (trait : Reference)
deriving DecidableEq

/-- The name of a kind of answer. -/
def MethodResult.kind : MethodResult → String
  | found .. => "Match"
  | ambiguous .. => "Ambiguous"
  | cannotDeref .. => "CannotDeref"
  | cannotRefMut .. => "CannotRefMut"
  | cannotReconcile .. => "CannotReconcileSelfType"

/-- What an answer says, as it is written in brackets after its kind. -/
def Env.methodResultDetail (env : Env) : MethodResult → Text
  | .found trait _ receiver _ =>
    env.adjustedText receiver ++ ", " ++ env.refText (env.resolveRef trait)
  | .ambiguous traits => Text.intercalate ", " (traits.map (·.id))
  | .cannotDeref type => env.text (env.resolve type)
  | .cannotRefMut place => env.placeText place
  | .cannotReconcile selfType trait =>
    env.text (env.resolve selfType) ++ ", " ++ env.refText (env.resolveRef trait)

/-- The text of an answer. -/
def Env.methodResultText (env : Env) (r : MethodResult) : Text :=
  r.kind ++ "(" ++ env.methodResultDetail r ++ ")"

/-- A trait with the method it declares. -/
structure Declaration where
  trait : Trait
  method : Method
deriving DecidableEq

namespace MethodCall

open Engine

/-- The traits that declare a method, each id only once. -/
def declaring (traits : List Trait) (name : Text) : List Declaration :=
  let all := traits.filterMap fun t => (t.method? name).map (⟨t, ·⟩)
  all.foldl (fun kept d => if kept.any (·.trait.id == d.trait.id) then kept else kept ++ [d]) []

/-- A call to be resolved: the method's name and the traits in scope that declare it. -/
structure Lookup where
  config : Config
  program : Program
  declarations : List Declaration
  name : Text

namespace Lookup

/-- Resolve a single reference. -/
def resolveRef (cx : Lookup) (id : Text) (ref : Reference) : Engine Resolution :=
  Solver.resolve cx.config cx.program [.topLevel id ref]

/-- Resolve a trait for a type, with fresh variables for the trait's parameters. -/
def resolveTrait (cx : Lookup) (self : Ty) (t : Trait) : Engine (Reference × Resolution) := do
  let params ← freshTypes t.arity
  let ref : Reference := ⟨t.id, self, params⟩
  let r ← cx.resolveRef "method" ref
  pure (ref, r)

/-- Whether a trait cannot be ruled out for a place. -/
def couldApply (cx : Lookup) (place : Place) (d : Declaration) : Engine Bool :=
  probe do
    let (_, r) ← cx.resolveTrait place.type d.trait
    pure r.noImpl.isEmpty

/-- Whether a dereference is known to be possible. -/
def derefHolds (r : Resolution) : Bool :=
  r.noImpl.isEmpty && !r.confirmed.isEmpty

/-- Redo the dereferences of a place as mutable ones. -/
def makeMutable (cx : Lookup) : Place → Engine (Option Place)
  | .receiver t => pure (some (.receiver t))
  | .deref .mutable input target evidence => pure (some (.deref .mutable input target evidence))
  | .deref .shared input target evidence => do
    match ← cx.makeMutable input with
    | none => pure none
    | some input' =>
      let r ← cx.resolveRef "deref_mut" (Place.derefRef .mutable input' target)
      if derefHolds r then
        pure (some (.deref .mutable input' target r))
      else
        report (.cannotMakeMutable cx.name (.deref .shared input target evidence))
        pure none

/-- Match the receiver type of a method with the first of some places that it accepts. -/
def reconcile (cx : Lookup) (m : Method) (ref : Reference) (evidence : Resolution)
    (selfType : Ty) : List Place → Engine MethodResult
  | [] => pure (.cannotReconcile selfType ref)
  | place :: rest => do
    if ← attempt (unify selfType place.type) then
      pure (.found ref m ⟨place, .byValue⟩ evidence)
    else if ← attempt (unify selfType place.type.sharedRef) then
      pure (.found ref m ⟨place, .shared⟩ evidence)
    else
      let before ← present
      if ← unify selfType place.type.mutRef then
        match ← cx.makeMutable place with
        | some mutable => pure (.found ref m ⟨mutable, .mutable⟩ evidence)
        | none =>
          rollback before.snapshot
          pure (.cannotRefMut place)
      else
        report (.peeling cx.name selfType place)
        cx.reconcile m ref evidence selfType rest

/-- Call the method of the one trait that could provide it. -/
def call (cx : Lookup) (place : Place) (d : Declaration) : Engine MethodResult := do
  let (ref, r) ← cx.resolveTrait place.type d.trait
  if r.noImpl.isEmpty then
    let selfType ← ofSubst (d.method.selfType.subst ref.types)
    cx.reconcile d.method ref r selfType place.chain
  else
    fail (.lostTrait d.trait.id place)

/-- Answer a call at a place, or go on as given if no trait could provide the method there. -/
def choose (cx : Lookup) (place : Place) (otherwise : Engine MethodResult) :
    Engine MethodResult := do
  match ← select (cx.couldApply place) cx.declarations with
  | [] => otherwise
  | [d] => cx.call place d
  | several =>
    report (.ambiguousTraits cx.name place several.length)
    pure (.ambiguous (several.map (·.trait)))

/-- Dereference a place and go on as given from there. -/
def deref (cx : Lookup) (place : Place) (next : Place → Engine MethodResult) :
    Engine MethodResult := do
  let v ← fresh
  let r ← cx.resolveRef "deref" (Place.derefRef .shared place (.var v))
  if derefHolds r then
    report (.dereferenced cx.name place (.var v))
    next (.deref .shared place (.var v) r)
  else
    report (.cannotDeref cx.name place)
    pure (.cannotDeref place.type)

/-- Answer a call at a place that may be dereferenced `n` more times. -/
def search (cx : Lookup) : Nat → Place → Engine MethodResult
  | 0, place => cx.choose place do
    report (.autoderefLimit cx.name place)
    pure (.cannotDeref place.type)
  | n + 1, place => cx.choose place (cx.deref place (cx.search n))

end Lookup

/-- Resolve a call of the method `name` on a receiver, with some traits in scope. -/
def resolve (config : Config) (program : Program) (receiver : Ty) (traits : List Trait)
    (name : Text) : Engine MethodResult :=
  let cx : Lookup := ⟨config, program, declaring traits name, name⟩
  cx.search config.maxAutoderef.toNat (.receiver receiver)

end MethodCall

end TraitResolution
