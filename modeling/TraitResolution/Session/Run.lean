import TraitResolution.Session.Step

/-! # Running a session

A step that fails leaves the environment as the failure left it, and the session goes on with the
next step. Inside an attempt or a probe a failure ends all the steps around it, which are rolled
back. After every step the names of variables that no longer exist are forgotten.
-/

namespace TraitResolution.Session

/-- The state of a session. Of two entries for one name the first counts. -/
structure State where
  env : Env
  vars : List (String × Var)
  snapshots : List (String × Snapshot)
  events : List Occurrence

/-- The state at the start. -/
def State.initial : State := ⟨.empty, [], [], []⟩

/-- The work of a step. -/
abbrev Work := ExceptT Failure (StateM State)

namespace Work

/-- What is there, or a failure. -/
def found {α : Type} (what : String) : Option α → Work α
  | some a => pure a
  | none => throw (.unknown what)

/-- Run an operation of the engine. -/
def engine {α : Type} (x : Engine α) : Work α := fun s =>
  let y := x.run s.env
  (y.outcome.mapError .malformed, { s with env := y.env, events := s.events ++ y.events })

/-- The variable with a name. -/
def varNamed (name : String) : Work Var := do
  let s ← get
  found name (s.vars.lookup name)

/-- Give a name to a type if it is a variable. -/
def withName (vars : List (String × Var)) : String × Ty → List (String × Var)
  | (name, .var v) => (name, v) :: vars
  | _ => vars

/-- Give names to variables. -/
def nameVars (names : List String) (ts : List Ty) : Work Unit :=
  modify fun s => { s with vars := (names.zip ts).foldl withName s.vars }

/-- Forget the names of variables that do not exist. -/
def forget : Work Unit :=
  modify fun s => { s with vars := s.vars.filter fun p => p.2.index < s.env.count }

mutual

/-- The type that a term stands for. -/
def type : Term → Work Ty
  | .con id args => do
    let args ← typeAll args
    pure (.con id args)
  | .param index => pure (.param index)
  | .named name => do
    let v ← varNamed name
    pure (.var v)

/-- The types that some terms stand for. -/
def typeAll : List Term → Work (List Ty)
  | [] => pure []
  | t :: ts => do
    let t ← type t
    let ts ← typeAll ts
    pure (t :: ts)

end

/-- The reference that a term stands for. -/
def ref (r : RefTerm) : Work Reference := do
  let self ← type r.self
  let params ← typeAll r.params
  pure ⟨r.id, self, params⟩

/-- The obligation that a term stands for. -/
def obligation (o : ObligationTerm) : Work Obligation := do
  let trait ← ref o.trait
  pure ⟨o.id, trait, o.depth⟩

/-- The trait that a term stands for. -/
def trait (program : Program) : TraitTerm → Work Trait
  | .declared id => found id (program.trait? id)
  | .inline id fundeps methods => do
    let methods ← methods.mapM fun (id, self) => do
      let self ← type self
      pure (⟨id, self⟩ : Method)
    pure ⟨id, fundeps, methods⟩

/-- Run some work, and roll back afterwards unless it ends with a result that is to be kept. -/
def settled {α : Type} (keep : α → Bool) (x : Work α) : Work α := fun s =>
  let undo : Work Unit := engine (Engine.rollback s.env.snapshot)
  match x s with
  | (.ok a, s') => if keep a then (.ok a, s') else (do undo; pure a : Work α) s'
  | (.error e, s') => (do undo; throw e : Work α) s'

/-- Whether the work of an attempt is kept. -/
def decide : Verdict → List (Value × Env) → Bool
  | .fixed keep, _ => keep
  | .last, inner => (inner.getLast?.bind fun a => a.1.truth?).getD false

mutual

/-- Do the work of a step. -/
def step (program : Program) : Step → Work Value
  | .fresh names => do
    let ts ← engine (Engine.freshTypes names.length)
    nameVars names ts
    pure (.types ts)
  | .freshOne name => do
    let v ← engine Engine.fresh
    nameVars [name] [.var v]
    pure (.type (.var v))
  | .unify a b => do
    let a ← type a
    let b ← type b
    .truth <$> engine (Engine.unify a b)
  | .unifyAll xs ys => do
    let xs ← typeAll xs
    let ys ← typeAll ys
    .truth <$> engine (Engine.unifyAll xs ys)
  | .unifyReferences a b => do
    let a ← ref a
    let b ← ref b
    .truth <$> engine (Engine.unifyReferences a b)
  | .snapshot name => do
    modify fun s => { s with snapshots := (name, s.env.snapshot) :: s.snapshots }
    pure .nothing
  | .rollback name => do
    let s ← get
    let snapshot ← found name (s.snapshots.lookup name)
    engine (Engine.rollback snapshot)
    pure .nothing
  | .attempt inner verdict => do
    let answers ← settled (decide verdict) (steps program inner)
    pure (.attempted (decide verdict answers) answers)
  | .probe inner => do
    let answers ← settled (fun _ => false) (steps program inner)
    pure (.probed answers)
  | .view t => .viewed <$> type t
  | .free xs => .freeVars <$> typeAll xs
  | .subst t replacements => do
    let t ← type t
    let rs ← typeAll replacements
    .type <$> engine (Engine.ofSubst (t.subst rs))
  | .substAll xs replacements => do
    let xs ← typeAll xs
    let rs ← typeAll replacements
    .types <$> engine (Engine.ofSubst (Ty.substAll rs xs))
  | .look name => .var <$> varNamed name
  | .reference r => .viewedRef <$> ref r
  | .substRef r replacements => do
    let r ← ref r
    let rs ← typeAll replacements
    .ref <$> engine (Engine.ofSubst (r.subst rs))
  | .freshReference id self names => do
    let self ← type self
    let t ← found id (program.trait? id)
    let params ← engine (Engine.freshTypes t.arity)
    nameVars names params
    pure (.ref ⟨t.id, self, params⟩)
  | .instantiate position names => do
    let impl ← found "impl" program.impls[position]?
    let (vars, ref) ← engine (Solver.instantiate impl)
    nameVars names vars
    let bounds ← engine (Engine.ofSubst (impl.boundsWith vars))
    pure (.instantiated vars ref bounds)
  | .bounds position replacements => do
    let rs ← typeAll replacements
    let impl ← found "impl" program.impls[position]?
    .refs <$> engine (Engine.ofSubst (impl.boundsWith rs))
  | .program => pure (.program program)
  | .implsOf id => pure (.ids ((program.implsOf id).map (·.id)))
  | .trait id => pure (.trait (program.trait? id))
  | .resolve config obligations ask => do
    let os ← obligations.mapM obligation
    let r ← engine (Solver.resolve config program os)
    pure (.resolution r (ask.map fun (id : String) => r.outcome id))
  | .coherence config => .conflicts <$> engine (Coherence.check config program)
  | .method config receiver name traits => do
    let receiver ← type receiver
    let traits ← traits.mapM (trait program)
    .method <$> engine (MethodCall.resolve config program receiver traits name)

/-- Do the work of some steps in order, each with the environment it leaves. -/
def steps (program : Program) : List Step → Work (List (Value × Env))
  | [] => pure []
  | x :: xs => do
    let value ← step program x
    forget
    let s ← get
    let rest ← steps program xs
    pure ((value, s.env) :: rest)

end

end Work

/-- How a step ended, and the environment it left. -/
structure Answer where
  outcome : Except Failure Value
  env : Env

/-- Run steps one after the other, whether or not they fail. -/
def runFrom (program : Program) (s : State) : List Step → List Answer × State
  | [] => ([], s)
  | x :: xs =>
    let (outcome, s) := (Work.step program x).run.run s
    let (_, s) := (Work.forget).run.run s
    let (rest, s') := runFrom program s xs
    (⟨outcome, s.env⟩ :: rest, s')

/-- Run a session: the answer to each step, and what happened. -/
def run (program : Program) (steps : List Step) : List Answer × List Occurrence :=
  let (answers, s) := runFrom program .initial steps
  (answers, s.events)

end TraitResolution.Session
