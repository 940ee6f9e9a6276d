import TraitResolution.Event
import TraitResolution.Log.Logger

/-! # Events in a log

Every event belongs to a section and is a record at the level for debugging.
-/

namespace TraitResolution.Log

/-- The attributes of an obligation. Its reference is written with bound variables replaced. -/
def obligationAttrs (env : Env) (o : Obligation) : List Attr :=
  [⟨"obligation.id", o.id⟩, ⟨"obligation.trait", env.refText (env.resolveRef o.trait)⟩,
    ⟨"obligation.depth", toString o.depth⟩]

/-- The logger for events about a method call. -/
def methodLogger (method : Text) : Logger :=
  (Logger.forSection "method").withAttrs [⟨"method", method⟩]

/-- The logger of an event. -/
def eventLogger : Event → Logger
  | .rolledBack .. | .occursCheckFailed .. => .forSection "types"
  | .overflow .. | .confirmed .. | .noImpl .. | .notEnoughTypes .. | .ambiguousImpls ..
  | .discarded .. => .forSection "resolve"
  | .boundsCannotHold .. | .conflict .. => .forSection "coherence"
  | .ambiguousTraits method _ _ | .autoderefLimit method _ | .cannotDeref method _
  | .dereferenced method _ _ | .peeling method _ _ | .cannotMakeMutable method _ =>
    methodLogger method
  | .compiled .. | .answered .. => .forSection "catalogue"
  | .loaded .. => .forSection "cmd"

/-- The message of an event. -/
def eventMessage : Event → String
  | .rolledBack .. => "rolling back bindings"
  | .occursCheckFailed .. => "occurs check failed"
  | .overflow .. => "overflow"
  | .confirmed .. => "confirmed"
  | .noImpl .. => "no impl"
  | .notEnoughTypes .. => "deferred, not enough type information"
  | .ambiguousImpls .. => "deferred, ambiguous"
  | .discarded .. => "discarding candidate with unsatisfiable bounds"
  | .boundsCannotHold .. => "bounds cannot hold"
  | .conflict .. => "conflict"
  | .ambiguousTraits .. => "ambiguous"
  | .autoderefLimit .. => "autoderef limit reached"
  | .cannotDeref .. => "cannot deref"
  | .dereferenced .. => "dereferenced"
  | .peeling .. => "self type does not match, peeling"
  | .cannotMakeMutable .. => "cannot make mutable"
  | .compiled .. => "compiled catalogue"
  | .answered .. => "resolved method"
  | .loaded .. => "loaded catalogue"

/-- The attributes of an event, in the environment in which it happened. -/
def eventAttrs (env : Env) : Event → List Attr
  | .rolledBack undone trail => [⟨"undone", toString undone⟩, ⟨"trail", toString trail⟩]
  | .occursCheckFailed v type => [⟨"var", env.text (.var v)⟩, ⟨"type", env.text type⟩]
  | .overflow o | .noImpl o | .notEnoughTypes o => obligationAttrs env o
  | .confirmed o impl | .discarded o impl => obligationAttrs env o ++ [⟨"impl", impl⟩]
  | .ambiguousImpls o candidates =>
    obligationAttrs env o ++ [⟨"candidates", toString candidates⟩]
  | .boundsCannotHold impl noImpl =>
    [⟨"impl", impl⟩, ⟨"noImpl", "[" ++ Text.intercalate " " noImpl ++ "]"⟩]
  | .conflict first second trait => [⟨"first", first⟩, ⟨"second", second⟩, ⟨"trait", trait⟩]
  | .ambiguousTraits _ place traits =>
    [⟨"receiver", env.placeText place⟩, ⟨"traits", toString traits⟩]
  | .autoderefLimit _ place | .cannotDeref _ place | .cannotMakeMutable _ place =>
    [⟨"receiver", env.placeText place⟩]
  | .dereferenced _ place target =>
    [⟨"receiver", env.placeText place⟩, ⟨"target", env.text target⟩]
  | .peeling _ selfType place =>
    [⟨"selfType", env.text selfType⟩, ⟨"receiver", env.placeText place⟩]
  | .compiled traits impls obligations methods vars =>
    [⟨"traits", toString traits⟩, ⟨"impls", toString impls⟩,
      ⟨"obligations", toString obligations⟩, ⟨"methods", toString methods⟩,
      ⟨"vars", toString vars⟩]
  | .answered query result => [⟨"query", query⟩, ⟨"result", result⟩]
  | .loaded path obligations methods =>
    [⟨"path", path⟩, ⟨"obligations", toString obligations⟩, ⟨"methods", toString methods⟩]

/-- The line of an event, if it is written. No attribute of an event names a section. -/
def occurrenceLine? (f : Filter) (o : Occurrence) : Option Text :=
  let logger := eventLogger o.event
  let message := eventMessage o.event
  if logger.writes f ⟨Level.debug, message, []⟩ then
    some (logger.line ⟨Level.debug, message, eventAttrs o.env o.event⟩)
  else
    none

/-- The lines that some events leave in a log. -/
def trace (f : Filter) (events : List Occurrence) : List Text :=
  events.filterMap (occurrenceLine? f)

end TraitResolution.Log
