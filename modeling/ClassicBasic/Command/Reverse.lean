import ClassicBasic.Classic.Dignify
import ClassicBasic.Command.Desk
import ClassicBasic.Settings.Flag

/-!
# Dignifying a classic program

Reads a classic listing and saves it as dignified source.
-/

set_option autoImplicit false

namespace ClassicBasic.Reverse

def layout (i : Invocation) : Dignify.Layout :=
  if i.indents then i.layout else { i.layout with indent := [] }

/-- Dignifies the program at `input` and saves it where `output` says. -/
def run (i : Invocation) (input output : Text) : Work Unit := do
  let verbosity := i.settings.verbosity
  let s ← Work.validated verbosity i.settings
  let path ← Work.absolute input
  let d ← Work.dialect verbosity s
  let listing ← Work.load verbosity s path
  Work.say verbosity
    [.step ("Basic Dignified: " ++ d.name), .step ("Dignifying: " ++ path)]
  let advised := Dignify.ofListing d (layout i) listing
  Work.say verbosity (Dignify.log advised)
  match advised.outcome with
  | .error failure => Work.fail verbosity failure.reason failure.position?
  | .ok code =>
    let saved := PathName.saveFile path output d.dignifiedExt
    Work.save verbosity saved code s.encoding "\n"
    Work.say verbosity [.step ("Saved: " ++ saved)]

end ClassicBasic.Reverse
