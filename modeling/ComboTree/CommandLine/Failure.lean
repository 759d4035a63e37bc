import ComboTree.Fault
import ComboTree.Settings.Fault

/-!
# Why a run ends without a result

Every failure has a message and an exit code; the codes are those of the `sysexits` convention.
-/

namespace ComboTree

/-- The exit codes of the program. -/
inductive ExitCode where
  | success
  | usage
  | badData
  | noInput
  | software
  | configuration
deriving DecidableEq, Repr, Inhabited

/-- The number that the program ends with. -/
def ExitCode.toNat : ExitCode → Nat
  | success => 0
  | usage => 64
  | badData => 65
  | noInput => 66
  | software => 70
  | configuration => 78

/-- Why a run ends without a result. -/
inductive Failure where
  /-- The path structure, a limit or the tree. -/
  | tree (fault : Fault)
  /-- The settings. -/
  | settings (fault : SettingsFault)
  /-- An argument that cannot be acted on. -/
  | arguments (reason : String)
  /-- A command line that asks for nothing. -/
  | usage (reason : String)
deriving DecidableEq, Repr, Inhabited

namespace Failure

/-- The failure as it is shown to the user. -/
def message : Failure → String
  | tree fault => fault.message
  | settings fault => s!"config error: {fault.message}"
  | arguments reason => s!"invalid arguments: {reason}"
  | usage reason => reason

/-- The exit code of a run that ends with this failure. -/
def exitCode : Failure → ExitCode
  | arguments _ | usage _ => .usage
  | settings _ => .configuration
  | tree fault =>
    match fault with
    | .malformedPath .. | .rootAlternatives _ | .noLevels => .badData
    | .parentNotFound .. | .nodeNotFound _ => .noInput
    | .tooManyAlternatives .. | .tooManyNodes .. | .unevenLevel .. => .software

end Failure

end ComboTree
