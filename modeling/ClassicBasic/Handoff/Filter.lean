import ClassicBasic.Handoff.Effect
import ClassicBasic.Handoff.Format

/-!
# Filters

Commands that say what they read, from files or from their input: all of it, its start, or all of it
with octets replaced.
-/

set_option autoImplicit false

namespace ClassicBasic.Shell

/-- Says what is in files; a lone minus sign is the input. -/
def concatenate (files : Files) (input : Octets) : List Text → Effect
  | [] => { files }
  | path :: rest =>
    let more := concatenate files input rest
    match if path = ['-'] then .ok input else contents files path with
    | .ok octets => { more with spoken := (.output, octets) :: more.spoken }
    | .error e =>
      { more with spoken := complaintLine ("cat: " ++ unusable path e) :: more.spoken, code := 1 }

/-- Says what is in files, or the input when there are none. -/
def cat (files : Files) (input : Octets) (words : List Text) : Effect :=
  match operands words with
  | [] => say files input
  | paths => concatenate files input paths

inductive Measure
  | lines (n : Nat)
  | octets (n : Nat)
  deriving DecidableEq, Repr

def firstLines : Nat → Octets → Octets
  | 0, _ => []
  | _, [] => []
  | n + 1, b :: rest => b :: if b = 10 then firstLines n rest else firstLines (n + 1) rest

def Measure.start : Measure → Octets → Octets
  | .lines n, read => firstLines n read
  | .octets n, read => read.take n

def Measure.ofZeros : Measure → Octets
  | .lines _ => []
  | .octets n => List.replicate n 0

def count (numeral : Text) : Nat := (Text.readInt numeral).toOption.getD 0 |>.toNat

/-- What the options of the command for starts ask for, and its files. -/
def readMeasure (m : Measure) : List Text → Measure × List Text
  | [] => (m, [])
  | word :: rest =>
    match word, rest with
    | ['-', 'n'], n :: more => readMeasure (.lines (count n)) more
    | ['-', 'c'], n :: more => readMeasure (.octets (count n)) more
    | '-' :: 'n' :: n, more => readMeasure (.lines (count n)) more
    | '-' :: 'c' :: n, more => readMeasure (.octets (count n)) more
    | '-' :: d :: n, more => readMeasure (.lines (count (d :: n))) more
    | path, more =>
      let read := readMeasure m more
      (read.1, path :: read.2)

def head (files : Files) (input : Octets) (words : List Text) : Effect :=
  match readMeasure (.lines 10) words with
  | (m, []) => say files (m.start input)
  | (m, path :: _) =>
    if path = zeros then say files m.ofZeros
    else
      match contents files path with
      | .ok octets => say files (m.start octets)
      | .error e =>
        complain files
          ("head: cannot open " ++ inQuotes path ++ " for reading" ++ (unusable [] e)) 1

/-- The octets of a set, of which there are at most `fuel`: escapes stand for octets, and a minus
sign between two for all from one to the other. -/
def octetSet : Nat → Text → Octets
  | 0, _ => []
  | _ + 1, [] => []
  | fuel + 1, '\\' :: rest => (Format.escape rest).1 ++ octetSet fuel (Format.escape rest).2
  | fuel + 1, a :: '-' :: b :: rest =>
    ((List.range (b.toNat + 1 - a.toNat)).map fun n => UInt8.ofNat (a.toNat + n)) ++
      octetSet fuel rest
  | fuel + 1, c :: rest => Encoding.utf8Octets [c] ++ octetSet fuel rest

/-- Replaces the octets of a set by those at their places in another, the last of which stands for
all that are missing. -/
def exchange (set replacements : Octets) (b : UInt8) : UInt8 :=
  match set.reverse.idxOf? b with
  | none => b
  | some n => (replacements[set.length - 1 - n]?).getD (replacements.getLast?.getD b)

/-- Says the input with octets replaced, or without some. -/
def transliterate (files : Files) (input : Octets) (words : List Text) : Effect :=
  let octets (t : Text) := octetSet (t.length + 1) t
  match words with
  | [['-', 'd'], set] => say files (input.filter fun b => !(octets set).contains b)
  | [set, replacements] => say files (input.map (exchange (octets set) (octets replacements)))
  | _ => complain files "tr: missing operand" 1

end ClassicBasic.Shell
