import ClassicBasic.Settings.File

/-!
# The settings of a run

Defaults, then the settings file, then the environment: each replaces what was there before.
-/

set_option autoImplicit false

namespace ClassicBasic

inductive SettingsFault
  | unreadable (path reason : Text)
  | notSettings (path : Text)
  | environment (fault : Environment.Fault)
  deriving DecidableEq, Repr

def SettingsFault.message : SettingsFault → Text
  | .unreadable path reason => "read " ++ path ++ ": " ++ reason
  | .notSettings path => "problem with " ++ path
  | .environment fault => fault.message

namespace Settings

/-- The settings under a settings file, if there is one, and the environment. The environment counts
only if the file is in order; what was set before a fault stays. -/
def load (path : Text) (file : Option Text) (env : Environment) :
    Settings × Option SettingsFault :=
  let decoded := match file with
    | some t => SettingsFile.apply t {}
    | none => ({}, true)
  if decoded.2 then
    let applied := env.apply decoded.1
    (applied.1, applied.2.map .environment)
  else (decoded.1, some (.notSettings path))

end Settings

end ClassicBasic
