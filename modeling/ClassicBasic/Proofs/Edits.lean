import ClassicBasic.Command.Execute
import Mathlib.Data.List.Induction

/-!
# Edits of settings

What a source of settings says is a log of edits, each of which gives one setting a value. The value
of a setting is that of the last edit of it. A settings file, the environment, the flags of a command
line and the tags of a program that are read without a fault do to settings just what their edits do.
-/

set_option autoImplicit false

namespace ClassicBasic

inductive Slot
  | field (f : Field)
  /-- The arguments of the tool. -/
  | arguments
  deriving DecidableEq, Repr

/-- A setting that is given a value. -/
inductive Edit
  | text (f : TextField) (value : Text)
  | number (f : NumberField) (value : Int)
  | switch (f : SwitchField) (value : Bool)
  | arguments (value : Option (List Text))
  deriving DecidableEq, Repr

namespace Edit

/-- What an edit gives a value. -/
def slot : Edit → Slot
  | .text f _ => .field (.text f)
  | .number f _ => .field (.number f)
  | .switch f _ => .field (.switch f)
  | .arguments _ => .arguments

def apply (s : Settings) : Edit → Settings
  | .text f value => s.setText f value
  | .number f value => s.setNumber f value
  | .switch f value => s.setSwitch f value
  | .arguments value => { s with tool := { s.tool with arguments := value } }

def applyAll (s : Settings) (edits : List Edit) : Settings := edits.foldl apply s

/-- The last edit of a setting. -/
def lastOf (slot : Slot) (edits : List Edit) : Option Edit :=
  (edits.filter (·.slot = slot)).getLast?

end Edit

namespace Settings

/-- The edit that gives a setting the value that it has. -/
def read (s : Settings) : Slot → Edit
  | .field (.text f) => .text f (s.text f)
  | .field (.number f) => .number f (s.number f)
  | .field (.switch f) => .switch f (s.switch f)
  | .arguments => .arguments s.tool.arguments

@[simp] theorem number_setText (s : Settings) (f : TextField) (value : Text) (g : NumberField) :
    (s.setText f value).number g = s.number g := by
  cases f <;> cases g <;> rfl

@[simp] theorem switch_setText (s : Settings) (f : TextField) (value : Text) (g : SwitchField) :
    (s.setText f value).switch g = s.switch g := by
  cases f <;> cases g <;> rfl

@[simp] theorem arguments_setText (s : Settings) (f : TextField) (value : Text) :
    (s.setText f value).tool.arguments = s.tool.arguments := by
  cases f <;> rfl

@[simp] theorem text_setNumber (s : Settings) (f : NumberField) (value : Int) (g : TextField) :
    (s.setNumber f value).text g = s.text g := by
  cases f <;> cases g <;> rfl

@[simp] theorem switch_setNumber (s : Settings) (f : NumberField) (value : Int) (g : SwitchField) :
    (s.setNumber f value).switch g = s.switch g := by
  cases f <;> cases g <;> rfl

@[simp] theorem arguments_setNumber (s : Settings) (f : NumberField) (value : Int) :
    (s.setNumber f value).tool.arguments = s.tool.arguments := by
  cases f <;> rfl

@[simp] theorem text_setSwitch (s : Settings) (f : SwitchField) (value : Bool) (g : TextField) :
    (s.setSwitch f value).text g = s.text g := by
  cases f <;> cases g <;> rfl

@[simp] theorem number_setSwitch (s : Settings) (f : SwitchField) (value : Bool) (g : NumberField) :
    (s.setSwitch f value).number g = s.number g := by
  cases f <;> cases g <;> rfl

@[simp] theorem arguments_setSwitch (s : Settings) (f : SwitchField) (value : Bool) :
    (s.setSwitch f value).tool.arguments = s.tool.arguments := by
  cases f <;> rfl

end Settings

namespace Edit

variable {s s' : Settings} {edits more : List Edit}

/-- An edit gives one setting its value and leaves the others alone. -/
theorem read_apply (s : Settings) (e : Edit) (slot : Slot) :
    (apply s e).read slot = if e.slot = slot then e else s.read slot := by
  have text (v : Option (List Text)) (g : TextField) :
      (apply s (.arguments v)).text g = s.text g := by cases g <;> rfl
  have number (v : Option (List Text)) (g : NumberField) :
      (apply s (.arguments v)).number g = s.number g := by cases g <;> rfl
  have switch (v : Option (List Text)) (g : SwitchField) :
      (apply s (.arguments v)).switch g = s.switch g := by cases g <;> rfl
  rcases slot with (f | f | f) | _ <;> cases e <;>
    simp only [Settings.read, Edit.slot, text, number, switch, reduceCtorEq, Slot.field.injEq,
      Field.text.injEq, Field.number.injEq, Field.switch.injEq, if_true, if_false] <;>
    simp only [apply, Settings.text_setText, Settings.number_setNumber, Settings.switch_setSwitch,
      Settings.number_setText, Settings.switch_setText, Settings.arguments_setText,
      Settings.text_setNumber, Settings.switch_setNumber, Settings.arguments_setNumber,
      Settings.text_setSwitch, Settings.number_setSwitch, Settings.arguments_setSwitch] <;>
    split <;> simp_all

theorem read_applyAll (s : Settings) (edits : List Edit) (slot : Slot) :
    (applyAll s edits).read slot = (lastOf slot edits).getD (s.read slot) := by
  induction edits using List.reverseRecOn with
  | nil => rfl
  | append_singleton edits e ih =>
    rw [applyAll, List.foldl_append, List.foldl_cons, List.foldl_nil, read_apply, lastOf,
      List.filter_append]
    by_cases h : e.slot = slot
    · simp [h]
    · simpa [h, lastOf, applyAll] using ih

theorem applyAll_append : applyAll s (edits ++ more) = applyAll (applyAll s edits) more :=
  List.foldl_append

theorem lastOf_congr {slot : Slot}
    (h : edits.filter (·.slot = slot) = more.filter (·.slot = slot)) :
    lastOf slot edits = lastOf slot more := by
  rw [lastOf, lastOf, h]

end Edit

variable {s s' : Settings}

/-! ### The settings file -/

namespace SettingsFile

/-- The edit that a text of the file stands for, if its meaning is of the right kind. -/
def textEdit? (f : Field) (t : Text) (m : Yaml.Meaning) : Option Edit :=
  match f, m with
  | _, .nothing => none
  | .text f, _ => some (.text f t)
  | .number f, .number (.integer n) => some (.number f n)
  | .number f, .number (.rounded (some n)) => some (.number f n)
  | .switch f, .truth b => some (.switch f b)
  | .switch f, .plain => some (.switch f (yesWords.contains t))
  | _, _ => none

def fieldEdits (f : Field) : Yaml.Node → List Edit
  | .scalar tag quoted t => ((Yaml.scalarMeaning? tag quoted t).bind (textEdit? f t)).toList
  | _ => []

def argumentsEdits : Yaml.Node → List Edit
  | .sequence items => [.arguments (some (decodeTexts items).1)]
  | _ => [.arguments none]

/-- The edits of a mapping, whose entries have the edits `entry`. -/
def mappingEdits (entry : Text → Yaml.Node → List Edit) : Yaml.Node → List Edit
  | .mapping entries =>
    entries.flatMap fun e =>
      match e.1 with
      | .scalar _ _ key => if isNull e.1 then [] else entry key e.2
      | _ => []
  | _ => []

def toolEntryEdits (key : Text) (n : Yaml.Node) : List Edit :=
  if key = argumentsKey then argumentsEdits n
  else
    match (firstToolFields ++ lastToolFields).lookup key with
    | some f => fieldEdits f n
    | none => []

def entryEdits (key : Text) (n : Yaml.Node) : List Edit :=
  if key = toolKey then mappingEdits toolEntryEdits n
  else
    match fields.lookup key with
    | some f => fieldEdits f n
    | none => []

/-- The edits of a settings file. -/
def edits (t : Text) : List Edit :=
  match Yaml.read t with
  | .ok (some n) => mappingEdits entryEdits n
  | _ => []

theorem decodeText_edit {f : Field} {t : Text} {m : Yaml.Meaning}
    (h : decodeText s f t m = (s', true)) : s' = Edit.applyAll s (textEdit? f t m).toList := by
  unfold decodeText at h
  unfold textEdit?
  split at h
  · cases h
    rfl
  · rename_i hm
    cases h
    cases m with
    | nothing => exact absurd rfl hm
    | _ => rfl
  · split at h <;> cases h
    rfl
  · cases h
    rfl
  · cases h
    rfl
  · split at h
    · rename_i hyes
      cases h
      rw [hyes]
      rfl
    · rename_i hyes
      split at h <;> cases h
      rw [Bool.eq_false_iff.2 hyes]
      rfl
  · cases h

theorem decodeField_edits {f : Field} {n : Yaml.Node} (h : decodeField s f n = (s', true)) :
    s' = Edit.applyAll s (fieldEdits f n) := by
  unfold decodeField at h
  split at h
  · split at h
    · rename_i hm
      rw [fieldEdits, hm]
      exact decodeText_edit h
    · cases h
  · cases h

theorem decodeArguments_edits {n : Yaml.Node} (h : decodeArguments s n = (s', true)) :
    s' = Edit.applyAll s (argumentsEdits n) := by
  unfold decodeArguments at h
  split at h
  · obtain ⟨rfl, -⟩ := Prod.mk.inj h
    rfl
  · rename_i hn
    split at h
    · cases h
      unfold argumentsEdits
      split
      · exact absurd rfl (hn _)
      · rfl
    · cases h

/-- Whether `decode` carries out the edits `entry` of an entry that is in order. -/
def Writes (decode : Settings → Text → Yaml.Node → Decoded) (entry : Text → Yaml.Node → List Edit) :
    Prop :=
  ∀ s key n s', decode s key n = (s', true) → s' = Edit.applyAll s (entry key n)

theorem foldl_edits {decode : Settings → Text → Yaml.Node → Decoded}
    {entry : Text → Yaml.Node → List Edit} (hw : Writes decode entry) {good : Bool}
    {entries : List (Yaml.Node × Yaml.Node)}
    (h : entries.foldl (fun d e =>
      let next := match e.1 with
        | .scalar _ _ t => if isNull e.1 then (d.1, true) else decode d.1 t e.2
        | _ => (d.1, false)
      (next.1, d.2 && next.2)) (s, good) = (s', true)) :
    good = true ∧ s' = Edit.applyAll s (mappingEdits entry (.mapping entries)) := by
  induction entries generalizing s good with
  | nil =>
    cases h
    exact ⟨rfl, rfl⟩
  | cons e rest ih =>
    rw [List.foldl_cons] at h
    obtain ⟨hgood, hs⟩ := ih h
    rw [Bool.and_eq_true] at hgood
    refine ⟨hgood.1, ?_⟩
    simp only [mappingEdits, List.flatMap_cons] at hs ⊢
    rw [Edit.applyAll_append, hs]
    congr 1
    obtain ⟨key, n⟩ := e
    cases key with
    | scalar tag quoted t =>
      dsimp only at hgood ⊢
      split
      · rfl
      · rename_i hnull
        rw [if_neg hnull] at hgood
        exact hw _ _ _ _ (Prod.ext rfl hgood.2)
    | sequence | mapping => cases hgood.2

theorem decodeMapping_edits {decode : Settings → Text → Yaml.Node → Decoded}
    {entry : Text → Yaml.Node → List Edit} {n : Yaml.Node} (hw : Writes decode entry)
    (h : decodeMapping decode s n = (s', true)) : s' = Edit.applyAll s (mappingEdits entry n) := by
  unfold decodeMapping at h
  split at h
  · rename_i entries
    unfold decodeEntries at h
    split at h
    · exact (foldl_edits hw h).2
    · cases h
  · rename_i hn
    obtain ⟨rfl, -⟩ := Prod.mk.inj h
    unfold mappingEdits
    split
    · exact absurd rfl (hn _)
    · rfl

theorem writes_toolEntry : Writes decodeToolEntry toolEntryEdits := by
  intro s key n s' h
  unfold decodeToolEntry at h
  unfold toolEntryEdits
  split at h
  · rename_i hkey
    rw [if_pos hkey]
    exact decodeArguments_edits h
  · rename_i hkey
    rw [if_neg hkey]
    cases hf : (firstToolFields ++ lastToolFields).lookup key with
    | some f =>
      rw [hf] at h
      exact decodeField_edits h
    | none =>
      rw [hf] at h
      cases h
      rfl

theorem writes_entry : Writes decodeEntry entryEdits := by
  intro s key n s' h
  unfold decodeEntry at h
  unfold entryEdits
  split at h
  · rename_i hkey
    rw [if_pos hkey]
    exact decodeMapping_edits writes_toolEntry h
  · rename_i hkey
    rw [if_neg hkey]
    cases hf : fields.lookup key with
    | some f =>
      rw [hf] at h
      exact decodeField_edits h
    | none =>
      rw [hf] at h
      cases h
      rfl

theorem apply_edits {t : Text} (h : apply t s = (s', true)) : s' = Edit.applyAll s (edits t) := by
  unfold apply at h
  unfold edits
  split at h
  · cases h
  · rename_i hr
    cases h
    rw [hr]
    rfl
  · rename_i hr
    rw [hr]
    exact decodeMapping_edits writes_entry h

end SettingsFile

/-! ### The environment -/

namespace Environment

def textEdits (env : Environment) : List Edit :=
  texts.filterMap fun e => (env.lookup e.1).map (.text e.2)

def numberEdits (env : Environment) (table : List (Text × NumberField)) : List Edit :=
  table.filterMap fun e =>
    (env.lookup e.1).bind fun value => (Text.readInt value).toOption.map (.number e.2)

def switchEdits (env : Environment) (table : List (Text × SwitchField)) : List Edit :=
  table.filterMap fun e =>
    (env.lookup e.1).bind fun value => (Text.readBool value).map (.switch e.2)

/-- The edits of the environment. -/
def edits (env : Environment) : List Edit :=
  textEdits env ++ numberEdits env numbers ++ switchEdits env switches

variable {env : Environment}

theorem applyTexts_edits : applyTexts env s = Edit.applyAll s (textEdits env) := by
  unfold applyTexts textEdits
  generalize texts = table
  induction table generalizing s with
  | nil => rfl
  | cons e rest ih =>
    rw [List.foldl_cons, ih]
    cases hl : env.lookup e.1 <;> simp [hl, Edit.applyAll, Edit.apply]

theorem applyNumbers_edits {table : List (Text × NumberField)}
    (h : applyNumbers env table s = (s', none)) :
    s' = Edit.applyAll s (numberEdits env table) := by
  unfold numberEdits
  induction table generalizing s with
  | nil =>
    cases h
    rfl
  | cons e rest ih =>
    obtain ⟨name, field⟩ := e
    simp only [applyNumbers] at h
    split at h
    · rename_i hl
      simpa [hl] using ih h
    · rename_i value hl
      split at h
      · rename_i n hn
        simpa [hl, hn, Except.toOption, Edit.applyAll, Edit.apply] using ih h
      · cases h

theorem applySwitches_edits {table : List (Text × SwitchField)}
    (h : applySwitches env table s = (s', none)) :
    s' = Edit.applyAll s (switchEdits env table) := by
  unfold switchEdits
  induction table generalizing s with
  | nil =>
    cases h
    rfl
  | cons e rest ih =>
    obtain ⟨name, field⟩ := e
    simp only [applySwitches] at h
    split at h
    · rename_i hl
      simpa [hl] using ih h
    · rename_i value hl
      split at h
      · rename_i b hb
        simpa [hl, hb, Edit.applyAll, Edit.apply] using ih h
      · cases h

theorem apply_edits (h : apply env s = (s', none)) : s' = Edit.applyAll s (edits env) := by
  unfold apply at h
  split at h
  · cases h
  · rename_i between hnumbers
    rw [applyTexts_edits] at hnumbers
    rw [edits, Edit.applyAll_append, Edit.applyAll_append, ← applyNumbers_edits hnumbers]
    exact applySwitches_edits h

end Environment

/-- The edits of a settings file that may be there. -/
def Settings.fileEdits (file : Option Text) : List Edit := file.elim [] SettingsFile.edits

theorem Settings.load_edits {path : Text} {file : Option Text} {env : Environment}
    (h : load path file env = (s', none)) :
    s' = Edit.applyAll {} (fileEdits file ++ env.edits) := by
  rw [Edit.applyAll_append]
  have applied {s : Settings} (h : ((env.apply s).1, (env.apply s).2.map SettingsFault.environment) =
      (s', none)) : s' = Edit.applyAll s env.edits := by
    obtain ⟨hs, hnone⟩ := Prod.mk.inj h
    exact Environment.apply_edits (Prod.ext hs (Option.map_eq_none_iff.1 hnone))
  cases file with
  | none => exact applied h
  | some t =>
    simp only [load] at h
    split at h
    · rename_i hgood
      rw [fileEdits, Option.elim_some, ← SettingsFile.apply_edits (Prod.ext rfl hgood)]
      exact applied h
    · cases h

/-! ### Flags -/

/-- The edits of a flag with a value. -/
def Flag.edits (target : Flag.Target) (value : Text) : List Edit :=
  match target with
  | .field (.text f) => [.text f value]
  | .field (.number f) => ((Text.readAnyInt value).toOption.map (.number f)).toList
  | .field (.switch f) => ((Text.readBool value).map (.switch f)).toList
  | .off f => ((Text.readBool value).map fun b => .switch f (!b)).toList
  | _ => []

theorem Invocation.assign_edits {i i' : Invocation} {target : Flag.Target} {value : Text}
    (h : i.assign target value = (i', none)) :
    i'.settings = Edit.applyAll i.settings (Flag.edits target value) := by
  cases target with
  | field f =>
    cases f with
    | text f =>
      cases h
      rfl
    | number f =>
      simp only [assign] at h
      split at h
      · rename_i hn
        cases h
        simp [Flag.edits, hn, Except.toOption, Edit.applyAll, Edit.apply]
      · cases h
      · cases h
    | switch f =>
      simp only [assign] at h
      split at h
      · rename_i hb
        cases h
        simp [Flag.edits, hb, Edit.applyAll, Edit.apply, setSwitch]
      · cases h
  | off f =>
    simp only [assign] at h
    split at h
    · rename_i hb
      cases h
      simp [Flag.edits, hb, Edit.applyAll, Edit.apply, setSwitch]
    · cases h
  | keepCase | split | blankLine | indents | help =>
    simp only [assign] at h
    split at h
    · cases h
      rfl
    · cases h

/-! ### Tags -/

namespace Tag

/-- The edit of a tag that makes a setting. -/
def edit? (t : Tag) : Option Edit :=
  match purpose? t.name with
  | some .exportFile => some (.text .output t.value)
  | some (.switch f) => t.switchValue?.map (.switch f)
  | some (.number f) => (Text.readInt t.value).toOption.map (.number f)
  | _ => none

/-- Whether a tag holds words for the command line. -/
def isArguments (t : Tag) : Bool := purpose? t.name == some .arguments

variable {a b : Applied} {t : Tag} {tags : List Tag}

theorem apply_edits (h : apply a t = (b, none)) :
    b.settings = Edit.applyAll a.settings t.edit?.toList ∧
      b.arguments = a.arguments ++ if t.isArguments then argumentWords t.value else [] := by
  unfold apply at h
  unfold edit? isArguments
  split at h
  · cases h
  · rename_i hp
    cases h
    simp [hp, Edit.applyAll, Edit.apply, Settings.setText]
  · rename_i hp
    cases h
    simp [hp, Edit.applyAll]
  · rename_i hp
    split at h <;> cases h
    simp [hp, Edit.applyAll]
  · rename_i hp
    split at h
    · rename_i hb
      cases h
      simp [hp, hb, Edit.applyAll, Edit.apply]
    · cases h
  · rename_i hp
    split at h
    · rename_i hn
      cases h
      simp [hp, hn, Except.toOption, Edit.applyAll, Edit.apply]
    · cases h

/-- Tags without a fault do what their edits do, and leave their words for the command line. -/
theorem applyAll_edits (h : applyAll a tags = (b, none)) :
    b.settings = Edit.applyAll a.settings (tags.filterMap edit?) ∧
      b.arguments = a.arguments ++
        (tags.filter isArguments).flatMap fun t => argumentWords t.value := by
  induction tags generalizing a with
  | nil =>
    cases h
    simp [Edit.applyAll]
  | cons t rest ih =>
    simp only [applyAll] at h
    split at h
    · cases h
    · rename_i between happly
      obtain ⟨hs, ha⟩ := apply_edits happly
      obtain ⟨hsettings, harguments⟩ := ih h
      rw [hsettings, harguments, hs, ha]
      constructor
      · rw [← Edit.applyAll_append]
        cases he : t.edit? <;> simp [he]
      · cases ht : t.isArguments <;> simp [ht]

end Tag

end ClassicBasic
