import ClassicBasic.Text.Basic

/-!
# How labels are written
-/

set_option autoImplicit false

namespace ClassicBasic.Label

def opening : Text := "\x7b"

def closing : Text := "\x7d"

def sameLine : Text := "@"

def bracketed (name : Text) : Text := opening ++ name ++ closing

end ClassicBasic.Label
