import ClassicBasic.Yaml.Node
import ClassicBasic.Yaml.Scan

/-!
# Reading a settings file

The tokens of a file put together to a value. An alias stands for the last value with its anchor.
Readers take fuel that the number of tokens bounds: each of them uses up a token before it calls
itself again, or calls one that does.
-/

set_option autoImplicit false

namespace ClassicBasic.Yaml

/-- The tokens that are left and the values that have anchors, the last one first. -/
structure Left where
  tokens : List Token
  anchors : List (Text × Node) := []
  deriving Repr

abbrev Reader := StateT Left Option

namespace Reader

def peek : Reader Token := fun s => s.tokens.head?.map fun t => (t, s)

def skip : Reader Unit := fun s => some ((), { s with tokens := s.tokens.drop 1 })

def fail {α : Type} : Reader α := fun _ => none

def anchored (name : Text) : Reader Node := fun s => (s.anchors.lookup name).map fun n => (n, s)

/-- Gives a value its anchor, if it has one. -/
def anchor (name : Option Text) (n : Node) : Reader Unit := fun s =>
  match name with
  | none => some ((), s)
  | some name => some ((), { s with anchors := (name, n) :: s.anchors })

/-- What stands in front of a value: an anchor and a tag, in any order. -/
def properties : Reader (Option Text × Option Text) := do
  match ← peek with
  | .anchor name =>
    skip
    match ← peek with
    | .tag t =>
      skip
      return (some name, some t)
    | _ => return (some name, none)
  | .tag t =>
    skip
    match ← peek with
    | .anchor name =>
      skip
      return (some name, some t)
    | _ => return (none, some t)
  | _ => return (none, none)

def tagOf (t : Option Text) : Option Text := t.filter (· != ['!'])

mutual

/-- A value. Only where `block` holds it may be a collection by indentation; where `keyed` holds a
list may stand in the column of its key. -/
def node (block keyed : Bool) : Nat → Reader Node
  | 0 => fail
  | fuel + 1 => do
    match ← peek with
    | .alias name =>
      skip
      anchored name
    | _ =>
      let found ← properties
      let n ← content block keyed found.2 (found.1.isSome || found.2.isSome) fuel
      anchor found.1 n
      return n

/-- A value behind its anchor and its tag, which may be all there is. -/
def content (block keyed : Bool) (tag : Option Text) (bare : Bool) : Nat → Reader Node
  | 0 => fail
  | fuel + 1 => do
    match ← peek with
    | .dash => if keyed then return .sequence (← keyedItems fuel) else empty
    | .scalar quoted text =>
      skip
      return .scalar (tagOf tag) quoted text
    | .bracketOpen =>
      skip
      return .sequence (← flowItems true fuel)
    | .braceOpen =>
      skip
      return .mapping (← flowEntries true fuel)
    | .itemsStart =>
      if block then
        skip
        return .sequence (← items fuel)
      else empty
    | .entriesStart =>
      if block then
        skip
        return .mapping (← entries fuel)
      else empty
    | _ => empty
where
  empty : Reader Node := if bare then return .scalar (tagOf tag) false [] else fail

/-- A value that is not there if one of the tokens follows that `ends` tells. -/
def optional (ends : Token → Bool) (block keyed : Bool) : Nat → Reader Node
  | 0 => fail
  | fuel + 1 => do
    if ends (← peek) then return .null else node block keyed fuel

def items : Nat → Reader (List Node)
  | 0 => fail
  | fuel + 1 => do
    match ← peek with
    | .dash =>
      skip
      let item ← optional (fun t => t == .dash || t == .blockEnd) true false fuel
      return item :: (← items fuel)
    | .blockEnd =>
      skip
      return []
    | _ => fail

def keyedItems : Nat → Reader (List Node)
  | 0 => fail
  | fuel + 1 => do
    match ← peek with
    | .dash =>
      skip
      let item ← optional (fun t => t == .dash || t == .key || t == .value || t == .blockEnd)
        true false fuel
      return item :: (← keyedItems fuel)
    | _ => return []

/-- The value of an entry, which may be missing with its colon. -/
def entryValue (ends : Token → Bool) (block : Bool) : Nat → Reader Node
  | 0 => fail
  | fuel + 1 => do
    match ← peek with
    | .value =>
      skip
      optional ends block block fuel
    | _ => return .null

def entries : Nat → Reader (List (Node × Node))
  | 0 => fail
  | fuel + 1 => do
    let ends (t : Token) : Bool := t == .key || t == .value || t == .blockEnd
    match ← peek with
    | .key =>
      skip
      let name ← optional ends true true fuel
      let value ← entryValue ends true fuel
      return (name, value) :: (← entries fuel)
    | .blockEnd =>
      skip
      return []
    | _ => fail

/-- The items between brackets, up to the closing one. -/
def flowItems (first : Bool) : Nat → Reader (List Node)
  | 0 => fail
  | fuel + 1 => do
    match ← peek with
    | .bracketClose =>
      skip
      return []
    | t =>
      if !first then if t = .comma then skip else fail
      match ← peek with
      | .bracketClose =>
        skip
        return []
      | .key =>
        skip
        let entry ← flowPair fuel
        return .mapping [entry] :: (← flowItems false fuel)
      | _ =>
        let item ← node false false fuel
        return item :: (← flowItems false fuel)

/-- An entry that stands for a mapping among the items between brackets. -/
def flowPair : Nat → Reader (Node × Node)
  | 0 => fail
  | fuel + 1 => do
    let ends (t : Token) : Bool := t == .comma || t == .bracketClose
    let t ← peek
    let name ← if t = .value ∨ ends t then do
        skip
        pure .null
      else node false false fuel
    return (name, ← entryValue ends false fuel)

/-- The entries between braces, up to the closing one. -/
def flowEntries (first : Bool) : Nat → Reader (List (Node × Node))
  | 0 => fail
  | fuel + 1 => do
    let ends (t : Token) : Bool := t == .comma || t == .braceClose
    match ← peek with
    | .braceClose =>
      skip
      return []
    | t =>
      if !first then if t = .comma then skip else fail
      match ← peek with
      | .braceClose =>
        skip
        return []
      | .key =>
        skip
        let name ← optional (fun t => t == .value || ends t) false false fuel
        let value ← entryValue ends false fuel
        return (name, value) :: (← flowEntries false fuel)
      | _ =>
        let name ← node false false fuel
        return (name, .null) :: (← flowEntries false fuel)

end

def markedDocument (fuel : Nat) : Reader Node :=
  optional (fun t => t == .directive || t == .documentStart || t == .documentEnd || t == .streamEnd)
    true false fuel

/-- The first document: nothing if there is none. What follows it has to be readable, whatever it
is. -/
def document (fuel : Nat) : Reader (Option Node) := do
  match ← peek with
  | .streamEnd => return none
  | .directive =>
    skip
    if (← peek) = .documentStart then
      skip
      read (markedDocument fuel)
    else fail
  | .documentStart =>
    skip
    read (markedDocument fuel)
  | _ => read (node true false fuel)
where
  read (r : Reader Node) : Reader (Option Node) := do
    let n ← r
    let _ ← peek
    return some n

end Reader

/-- The first document of a settings file: nothing if it is empty, an error if the text is none. -/
def read (t : Text) : Except Unit (Option Node) :=
  let found := tokens t
  match (Reader.document (4 * found.length + 4)).run { tokens := found } with
  | some (n, _) => .ok n
  | none => .error ()

end ClassicBasic.Yaml
