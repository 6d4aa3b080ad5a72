import ClassicBasic.Settings.Flag

/-!
# Which command a command line names

The first word that is neither a flag nor the value of one names a command; without such a name a
program is converted. Each command knows its flags and how many words it takes.
-/

set_option autoImplicit false

namespace ClassicBasic

inductive CommandName
  | convert
  | reverse
  | remtags
  | init
  | help
  deriving DecidableEq, Repr

namespace CommandName

def program : Text := "badig"

def word : CommandName → Text
  | .convert => []
  | .reverse => "reverse"
  | .remtags => "remtags"
  | .init => "init"
  | .help => "help"

def named : List CommandName := [.reverse, .remtags, .init, .help]

def ofWord? (word : Text) : Option CommandName := named.find? (·.word == word)

/-- Whether a word is a flag whose value is the next word. -/
def takesNext (flags : List Flag) (word : Text) : Bool :=
  !word.contains '=' &&
    match word with
    | '-' :: '-' :: name => !(flags.any fun f => f.name == name && f.implied.isSome)
    | ['-', c] => c.toNat < 128 && !(flags.any fun f => f.letter == some c && f.implied.isSome)
    | _ => false

/-- The first word that is neither a flag nor the value of one. The last word is never looked at
behind a flag that takes a value. -/
def firstPlain (flags : List Flag) : List Text → Option Text
  | [] => none
  | [w] => if w = [] ∨ ['-'].isPrefixOf w then none else some w
  | w :: v :: rest =>
    if w = "--" then none
    else if takesNext flags w then
      match rest with
      | [] => none
      | u :: more => firstPlain flags (u :: more)
    else if w = [] ∨ ['-'].isPrefixOf w then firstPlain flags (v :: rest)
    else some w

/-- The words without the first one that is `word` and neither a flag nor the value of one. -/
def remove (flags : List Flag) (word : Text) : List Text → List Text
  | [] => []
  | [w] => if w = word then [] else [w]
  | w :: v :: rest =>
    if w = "--" then w :: v :: rest
    else if takesNext flags w then w :: v :: remove flags word rest
    else if w = word then v :: rest
    else w :: remove flags word (v :: rest)

/-- The command that a command line names, and the words for it. -/
def find (words : List Text) : CommandName × List Text :=
  match firstPlain Flag.common words with
  | none => (.convert, words)
  | some w =>
    match ofWord? w with
    | none => (.convert, words)
    | some name => (name, remove Flag.common w words)

def flags : CommandName → List Flag
  | .reverse => Flag.common ++ Flag.layout ++ [Flag.help]
  | _ => Flag.common ++ [Flag.help]

/-- What is wrong with the words for a command that are no flags. -/
def wordsFault? (name : CommandName) (words : List Text) : Option Text :=
  let count := Text.ofNat words.length
  match name with
  | .convert =>
    if 2 < words.length then some ("accepts at most 2 arg(s), received " ++ count) else none
  | .reverse =>
    if words.length < 1 ∨ 2 < words.length then
      some ("accepts between 1 and 2 arg(s), received " ++ count)
    else none
  | .help => none
  | .remtags | .init =>
    words.head?.map fun w =>
      "unknown command " ++ Text.quoted w ++ " for " ++
        Text.quoted (program ++ " " ++ name.word)

end CommandName

end ClassicBasic
