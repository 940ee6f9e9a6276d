import TraitResolution.Coherence
import TraitResolution.MethodCall

/-! # Steps of a session

A session works on one environment, step by step. Steps give names to variables and to snapshots and
refer to them by these names; a name may be given again.
-/

namespace TraitResolution.Session

/-- A type in which variables are called by name. -/
inductive Term where
  | con (id : String) (args : List Term)
  | param (index : Int)
  | named (name : String)

/-- A trait reference in which variables are called by name. -/
structure RefTerm where
  id : String
  self : Term
  params : List Term

/-- A trait in scope of a method call: one of the program, or one that is declared on the spot. -/
inductive TraitTerm where
  | declared (id : String)
  | inline (id : String) (fundeps : List Bool) (methods : List (String × Term))

/-- An obligation in which variables are called by name. -/
structure ObligationTerm where
  id : String
  trait : RefTerm
  depth : Int

/-- What decides whether the work of an attempt is kept. -/
inductive Verdict where
  | fixed (keep : Bool)
  /-- The truth value that the last inner step yields. Any other value does not keep the work. -/
  | last

/-- A step. -/
inductive Step where
  /-- Create variables. -/
  | fresh (names : List String)
  /-- Create one variable. -/
  | freshOne (name : String)
  | unify (a b : Term)
  | unifyAll (xs ys : List Term)
  | unifyReferences (a b : RefTerm)
  /-- Take a snapshot. -/
  | snapshot (name : String)
  /-- Go back to a snapshot. It may be used again. -/
  | rollback (name : String)
  /-- Run steps and keep what they did if the verdict says so. -/
  | attempt (steps : List Step) (verdict : Verdict)
  /-- Run steps and keep nothing of what they did. -/
  | probe (steps : List Step)
  /-- Look at a type. -/
  | view (t : Term)
  /-- Find the unbound variables of some types. -/
  | free (xs : List Term)
  /-- Replace type parameters. -/
  | subst (t : Term) (replacements : List Term)
  | substAll (xs : List Term) (replacements : List Term)
  /-- Look at a variable. -/
  | look (name : String)
  /-- Look at a reference. -/
  | reference (r : RefTerm)
  | substRef (r : RefTerm) (replacements : List Term)
  /-- Build a reference to a trait with fresh variables for its parameters. -/
  | freshReference (trait : String) (self : Term) (names : List String)
  /-- Create variables for the parameters of the impl at a position. -/
  | instantiate (position : Nat) (names : List String)
  /-- The bounds of the impl at a position with types for its parameters. -/
  | bounds (position : Nat) (replacements : List Term)
  /-- Look at the program. -/
  | program
  | implsOf (trait : String)
  | trait (id : String)
  | resolve (config : Config) (obligations : List ObligationTerm) (ask : List String)
  | coherence (config : Config)
  | method (config : Config) (receiver : Term) (name : String) (traits : List TraitTerm)

/-- What a step yields. -/
inductive Value where
  | nothing
  | truth (b : Bool)
  | type (t : Ty)
  | types (ts : List Ty)
  | attempted (keep : Bool) (inner : List (Value × Env))
  | probed (inner : List (Value × Env))
  | viewed (t : Ty)
  | freeVars (ts : List Ty)
  | var (v : Var)
  | ref (r : Reference)
  | viewedRef (r : Reference)
  | refs (rs : List Reference)
  | instantiated (vars : List Ty) (ref : Reference) (bounds : List Reference)
  | program (p : Program)
  | ids (ids : List Text)
  | trait (t : Option Trait)
  | resolution (r : Resolution) (outcomes : List Outcome)
  | conflicts (cs : List Conflict)
  | method (r : MethodResult)

/-- The truth value that a step yields. -/
def Value.truth? : Value → Option Bool
  | truth b => some b
  | attempted keep _ => some keep
  | _ => none

/-- Why a step failed. -/
inductive Failure where
  | malformed (m : Malformed)
  /-- A name, id or position that stands for nothing. -/
  | unknown (what : String)

end TraitResolution.Session
