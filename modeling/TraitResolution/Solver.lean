import TraitResolution.Unification

/-! # Resolving obligations

An obligation is confirmed when exactly one impl can satisfy it: either only one unifies with it,
or only one remains once those with unsatisfiable bounds are discarded. Confirming binds variables
and gives rise to the obligations of the impl's bounds. An obligation without candidates has no impl
if all its types are known, and is deferred otherwise; with several candidates it is deferred.

## Implementation notes

Obligations are settled in generations: first the given ones, then all that arise from these, and so
on. That is the order in which a queue would yield them. Each generation lies one deeper, so after
`Solver.generations` of them every obligation that is left lies beyond the greatest depth. The
obligations that are tried out while candidates are weighed have one generation less before them.

No depth lies beyond the greatest number of 64 bits. A search with that number as its limit goes on
while obligations arise, and may never return. So that it has an outcome all the same, it is given
up after as many generations as there are depths, and `Cause.endless` stands for a search without
end.
-/

namespace TraitResolution

namespace Engine

/-- Keep the elements that pass a test, in order. -/
def select {α : Type} (p : α → Engine Bool) : List α → Engine (List α)
  | [] => pure []
  | a :: as => do
    let keep ← p a
    let rest ← select p as
    pure (if keep then a :: rest else rest)

end Engine

namespace Solver

open Engine

/-- Fresh variables for the parameters of an impl, and the reference it implements with them. -/
def instantiate (impl : Impl) : Engine (List Ty × Reference) := do
  let vars ← freshTypes impl.params.length
  let ref ← ofSubst (impl.trait.subst vars)
  pure (vars, ref)

/-- Unify the reference of an impl with an obligation. The types for the impl's parameters are
returned if that succeeds. -/
def apply (impl : Impl) (o : Obligation) : Engine (Option (List Ty)) := do
  let (vars, ref) ← instantiate impl
  if ← unifyReferences ref o.trait then
    pure (some vars)
  else
    pure none

/-- The obligations that the bounds of an impl give rise to. -/
def boundsOf (o : Obligation) (impl : Impl) (vars : List Ty) : Engine (List Obligation) := do
  let bounds ← ofSubst (impl.boundsWith vars)
  pure (o.nestedAll bounds)

/-- Whether an impl unifies with an obligation. -/
def unifies (o : Obligation) (impl : Impl) : Engine Bool :=
  probe do
    let vars ← apply impl o
    pure vars.isSome

/-- Whether the bounds of an impl could hold, as far as `speculate` can tell. -/
def viable (speculate : List Obligation → Engine Resolution) (o : Obligation) (impl : Impl) :
    Engine Bool := do
  let holds ← probe do
    match ← apply impl o with
    | none => pure false
    | some vars =>
      let nested ← boundsOf o impl vars
      let r ← speculate nested
      pure r.noImpl.isEmpty
  if holds then
    pure true
  else
    report (.discarded o impl.id)
    pure false

/-- The impls that could satisfy an obligation. Bounds are not weighed if only one unifies. -/
def candidates (program : Program) (speculate : List Obligation → Engine Resolution)
    (o : Obligation) : Engine (List Impl) := do
  let unifiable ← select (unifies o) (program.implsOf o.trait.id)
  if unifiable.length = 1 then
    pure unifiable
  else
    select (viable speculate o) unifiable

/-- Choose an impl for an obligation and keep the bindings that make it apply. -/
def confirm (o : Obligation) (impl : Impl) : Engine (Resolution × List Obligation) := do
  match ← apply impl o with
  | none => fail (.lostCandidate impl.id o.id)
  | some vars =>
    let nested ← boundsOf o impl vars
    pure (.ofConfirmed ⟨o, impl, vars⟩, nested)

/-- Whether an obligation lies beyond the greatest depth. -/
def beyond (maxDepth : Int) (o : Obligation) : Bool :=
  maxDepth < o.depth

/-- Settle one obligation. What arises from it is returned beside where it ended up. -/
def settle (maxDepth : Int) (program : Program)
    (speculate : List Obligation → Engine Resolution) (o : Obligation) :
    Engine (Resolution × List Obligation) := do
  if beyond maxDepth o then
    report (.overflow o)
    pure (.ofOverflow [o], [])
  else
    match ← candidates program speculate o with
    | [impl] =>
      report (.confirmed o impl.id)
      confirm o impl
    | [] =>
      let env ← present
      if env.fullyBound o.trait.types then
        report (.noImpl o)
        pure (.ofNoImpl o, [])
      else
        report (.notEnoughTypes o)
        pure (.ofDeferred o, [])
    | several =>
      report (.ambiguousImpls o several.length)
      pure (.ofDeferred o, [])

/-- Settle the obligations of a generation in order, and collect the next generation. -/
def settleAll (settleOne : Obligation → Engine (Resolution × List Obligation)) :
    List Obligation → Engine (Resolution × List Obligation)
  | [] => pure (.empty, [])
  | o :: os => do
    let (r, nested) ← settleOne o
    let (rs, rest) ← settleAll settleOne os
    pure (r ++ rs, nested ++ rest)

/-- Resolve obligations whose `n`-th generation lies beyond the greatest depth. -/
def resolveWithin (maxDepth : Int) (program : Program) : Nat → List Obligation → Engine Resolution
  | _, [] => pure .empty
  | 0, os => do
    if os.all (beyond maxDepth) then
      os.forM fun o => report (.overflow o)
      pure (.ofOverflow os)
    else
      fail .endless
  | n + 1, os => do
    let (r, nested) ← settleAll (settle maxDepth program (resolveWithin maxDepth program n)) os
    let rest ← resolveWithin maxDepth program n nested
    pure (r ++ rest)

/-- The number of generations after which only obligations beyond the greatest depth are left, or
the number of all depths if there is nothing beyond. -/
def generations (maxDepth : Int) (os : List Obligation) : Nat :=
  if maxDepth + 1 < Number.signedLimit then
    os.foldr (fun o n => max (maxDepth + 1 - o.depth).toNat n) 0
  else
    Number.unsignedLimit

/-- Resolve obligations against a program. Bindings that confirm an obligation are kept. -/
def resolve (config : Config) (program : Program) (os : List Obligation) : Engine Resolution :=
  resolveWithin config.maxDepth program (generations config.maxDepth os) os

end Solver

end TraitResolution
