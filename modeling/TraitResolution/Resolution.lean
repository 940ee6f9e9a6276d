import TraitResolution.Env

/-! # Resolutions

A resolution sorts obligations into four buckets, each in the order in which its obligations were
settled.
-/

namespace TraitResolution

/-- The impl chosen for an obligation, and the types its parameters stand for. -/
structure Confirmation where
  obligation : Obligation
  impl : Impl
  replacements : List Ty
deriving DecidableEq

/-- What became of each obligation. -/
structure Resolution where
  /-- Satisfied by exactly one impl. -/
  confirmed : List Confirmation
  /-- Open until more types are known. -/
  deferred : List Obligation
  /-- Nested too deep to be looked at. -/
  overflow : List Obligation
  /-- Satisfied by no impl. -/
  noImpl : List Obligation
deriving DecidableEq

/-- The bucket an obligation is in. -/
inductive Outcome where
  | confirmed
  | deferred
  | overflow
  | noImpl
  | unknown
deriving DecidableEq

/-- The name of a bucket. -/
def Outcome.name : Outcome → String
  | confirmed => "confirmed"
  | deferred => "deferred"
  | overflow => "overflow"
  | noImpl => "noImpl"
  | unknown => "unknown"

namespace Resolution

/-- Nothing settled yet. -/
def empty : Resolution := ⟨[], [], [], []⟩

/-- What was settled first, then what was settled after it. -/
def append (a b : Resolution) : Resolution :=
  ⟨a.confirmed ++ b.confirmed, a.deferred ++ b.deferred, a.overflow ++ b.overflow,
    a.noImpl ++ b.noImpl⟩

instance : Append Resolution := ⟨append⟩

/-- One obligation confirmed. -/
def ofConfirmed (c : Confirmation) : Resolution := { empty with confirmed := [c] }

/-- One obligation deferred. -/
def ofDeferred (o : Obligation) : Resolution := { empty with deferred := [o] }

/-- Obligations that overflow. -/
def ofOverflow (os : List Obligation) : Resolution := { empty with overflow := os }

/-- One obligation without an impl. -/
def ofNoImpl (o : Obligation) : Resolution := { empty with noImpl := [o] }

/-- Where the obligation with the given id ended up. -/
def outcome (r : Resolution) (id : Text) : Outcome :=
  if r.confirmed.any (·.obligation.id == id) then .confirmed
  else if r.deferred.any (·.id == id) then .deferred
  else if r.overflow.any (·.id == id) then .overflow
  else if r.noImpl.any (·.id == id) then .noImpl
  else .unknown

/-- The ids of the confirmed obligations. -/
def confirmedIds (r : Resolution) : List Text :=
  r.confirmed.map (·.obligation.id)

end Resolution

namespace Env

/-- The text of a confirmation. -/
def confirmationText (env : Env) (c : Confirmation) : Text :=
  c.obligation.id ++ " -> " ++ c.impl.id ++ "<" ++
    ", ".intercalate (c.replacements.map env.text) ++ ">"

/-- A bucket of obligations under its heading, given the text of a reference. -/
def bucketText (refText : Reference → Text) (bucket : Outcome) (os : List Obligation) : Text :=
  bucket.name ++ ":\n" ++
    Text.join (os.map fun o => "  " ++ o.id ++ ": " ++ refText o.trait ++ "\n")

/-- The four buckets under their headings, given the text of a reference that is not confirmed. -/
def resolutionTextWith (env : Env) (refText : Reference → Text) (r : Resolution) : Text :=
  Outcome.confirmed.name ++ ":\n" ++
    Text.join (r.confirmed.map fun c => "  " ++ env.confirmationText c ++ "\n") ++
    bucketText refText .deferred r.deferred ++
    bucketText refText .overflow r.overflow ++
    bucketText refText .noImpl r.noImpl

/-- The text of a resolution. -/
def resolutionText (env : Env) (r : Resolution) : Text :=
  env.resolutionTextWith env.refText r

end Env

end TraitResolution
