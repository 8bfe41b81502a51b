/-!
# Phases

When a configuration root is read, and which roots a realization builds.
-/

namespace PropertyBinding

/-- When a configuration root is resolved. -/
inductive Phase where
  /-- During the build only; never visible at run time. -/
  | buildTime
  /-- During the build; visible at run time, but fixed. -/
  | buildAndRunTimeFixed
  /-- Visible at run time and read again when the process starts. Only roots of this phase may
  have attributes that can be overridden at run time. -/
  | runTime
  deriving DecidableEq, Repr

/-- Whether a root of this phase is visible at run time. -/
def Phase.isAvailableAtRun (phase : Phase) : Bool :=
  phase = .buildAndRunTimeFixed || phase = .runTime

/-- Whether a root of this phase is read again when the process starts. -/
def Phase.isReadAtStart (phase : Phase) : Bool :=
  phase = .runTime

/-- The occasion for which roots are realized. -/
inductive Stage where
  /-- Every registered root. -/
  | build
  /-- Only roots that are available at run time. -/
  | runtime
  deriving DecidableEq, Repr

/-- Whether roots of this phase are realized at this stage. -/
def Stage.includes : Stage → Phase → Bool
  | .build, _ => true
  | .runtime, phase => phase.isAvailableAtRun

end PropertyBinding
