import ClassicBasic.Proofs.Edits

/-!
# Which source of a setting counts

The settings that a program is converted under come from the defaults, the settings file, the
environment, the command line and the tags of the program, and each source goes before the ones in
front of it. Words for the command line in tags are read after all other tags, so they go before a tag
that follows them.
-/

set_option autoImplicit false

namespace ClassicBasic

namespace CommandLine

/-! ### The flags of a command line -/

variable {flags : List Flag}

/-- The flags with their values that letters give in front of words, and the words that are left. -/
inductive Letters (flags : List Flag) : Text → List Text → List (Flag × Text) → List Text → Prop
  | done (rest : List Text) : Letters flags [] rest [] rest
  | test {letters : Text} (rest : List Text) (h : ("test.".toList).isPrefixOf letters = true) :
    Letters flags letters rest [] rest
  | letter {c : Char} {more left : Text} {rest behind : List Text} {found : Found}
      {given : List (Flag × Text)} (hn : ("test.".toList).isPrefixOf (c :: more) = false)
      (h : short flags c more rest = .ok (found, left))
      (hl : Letters flags left found.rest given behind) :
      Letters flags (c :: more) rest ((found.flag, found.value) :: given) behind

def isLong : Text → Bool
  | '-' :: '-' :: _ => true
  | _ => false

/-- The flags with their values that words give. -/
inductive Gives (flags : List Flag) : List Text → List (Flag × Text) → Prop
  | done : Gives flags [] []
  | plain {word : Text} {rest : List Text} {given : List (Flag × Text)} (h : isPlain word = true)
      (hr : Gives flags rest given) : Gives flags (word :: rest) given
  /-- Two dashes end the flags. -/
  | stop (rest : List Text) : Gives flags ("--".toList :: rest) []
  | long {word : Text} {rest : List Text} {found : Found} {given : List (Flag × Text)}
      (hw : isLong word = true) (hn : word ≠ "--".toList) (h : long flags word rest = .ok found)
      (hr : Gives flags found.rest given) :
      Gives flags (word :: rest) ((found.flag, found.value) :: given)
  | letters {word : Text} {rest behind : List Text} {given more : List (Flag × Text)}
      (hp : isPlain word = false) (hw : isLong word = false)
      (h : Letters flags (word.drop 1) rest given behind) (hr : Gives flags behind more) :
      Gives flags (word :: rest) (given ++ more)

/-- The edits of flags with their values. -/
def edits (given : List (Flag × Text)) : List Edit :=
  given.flatMap fun g => Flag.edits g.1.target g.2

theorem edits_append (given more : List (Flag × Text)) :
    edits (given ++ more) = edits given ++ edits more := List.flatMap_append

variable {s s' : State} {word letters : Text} {rest left : List Text}

theorem State.give_edits {f : Flag} {value : Text} (h : s.give f value = (s', none)) :
    s'.invocation.settings = Edit.applyAll s.invocation.settings (edits [(f, value)]) := by
  unfold give at h
  split at h
  · cases h
  · rename_i ha
    cases h
    simpa [edits] using Invocation.assign_edits ha

theorem long_suffix {found : Found} (h : CommandLine.long flags word rest = .ok found) :
    found.rest <:+ rest := by
  unfold CommandLine.long at h
  dsimp only at h
  split at h <;> try cases h
  split at h
  · cases h
  · split at h <;> cases h
    · exact List.suffix_refl _
    · exact List.suffix_refl _
    · exact List.suffix_cons _ _

theorem short_suffix {c : Char} {more more' : Text} {found : Found}
    (h : short flags c more rest = .ok (found, more')) :
    found.rest <:+ rest ∧ more'.length ≤ more.length := by
  unfold short at h
  split at h
  · cases h
  · split at h <;> cases h
    · exact ⟨List.suffix_refl _, Nat.zero_le _⟩
    · exact ⟨List.suffix_refl _, Nat.le_refl _⟩
    · exact ⟨List.suffix_refl _, Nat.zero_le _⟩
    · exact ⟨List.suffix_cons _ _, Nat.zero_le _⟩

/-- Letters that are read give flags, and the settings are edited by these. -/
theorem shorts_gives {fuel : Nat} (hf : letters.length ≤ fuel)
    (h : shorts flags s rest fuel letters = (s', .ok left)) :
    ∃ given, Letters flags letters rest given left ∧ left <:+ rest ∧
      s'.invocation.settings = Edit.applyAll s.invocation.settings (edits given) := by
  induction fuel generalizing s rest letters with
  | zero =>
    obtain rfl := List.length_eq_zero_iff.1 (Nat.le_zero.1 hf)
    cases h
    exact ⟨[], .done _, List.suffix_refl _, rfl⟩
  | succ fuel ih =>
    cases letters with
    | nil =>
      cases h
      exact ⟨[], .done _, List.suffix_refl _, rfl⟩
    | cons c more =>
      simp only [shorts] at h
      split at h
      · rename_i ht
        cases h
        exact ⟨[], .test _ ht, List.suffix_refl _, rfl⟩
      · rename_i ht
        split at h
        · cases h
        · rename_i found more' hshort
          split at h
          · cases h
          · rename_i between hgive
            obtain ⟨hsuf, hlen⟩ := short_suffix hshort
            have hfuel : more'.length ≤ fuel := by
              rw [List.length_cons] at hf
              omega
            obtain ⟨given, hletters, hleft, hsettings⟩ := ih hfuel h
            refine ⟨_, .letter (Bool.eq_false_iff.2 ht) hshort hletters, hleft.trans hsuf, ?_⟩
            rw [hsettings, State.give_edits hgive, ← Edit.applyAll_append, ← edits_append,
              List.singleton_append]

/-- Words that are read give flags, and the settings are edited by these. -/
theorem readFrom_gives {fuel : Nat} {words : List Text} (hf : words.length < fuel)
    (h : readFrom flags fuel s words = (s', none)) :
    ∃ given, Gives flags words given ∧
      s'.invocation.settings = Edit.applyAll s.invocation.settings (edits given) := by
  induction fuel generalizing s words with
  | zero => exact absurd hf (Nat.not_lt_zero _)
  | succ fuel ih =>
    cases words with
    | nil =>
      cases h
      exact ⟨[], .done, rfl⟩
    | cons word rest =>
      have hrest {left : List Text} (hl : left <:+ rest) : left.length < fuel :=
        Nat.lt_of_le_of_lt hl.length_le (Nat.lt_of_succ_lt_succ hf)
      simp only [readFrom] at h
      split at h
      · rename_i hp
        obtain ⟨given, hg, hs⟩ := ih (hrest (List.suffix_refl _)) h
        exact ⟨given, .plain hp hg, hs⟩
      · rename_i hp
        split at h
        · rename_i hw
          cases h
          exact ⟨[], hw ▸ .stop rest, rfl⟩
        · rename_i hw
          split at h
          · cases h
          · rename_i between left hword
            unfold flagWord at hword
            split at hword
            · split at hword
              · cases hword
              · rename_i tail found hlong
                split at hword
                · cases hword
                · rename_i hgive
                  cases hword
                  obtain ⟨given, hg, hs⟩ := ih (hrest (long_suffix hlong)) h
                  refine ⟨_, .long rfl hw hlong hg, ?_⟩
                  rw [hs, State.give_edits hgive, ← Edit.applyAll_append, ← edits_append,
                    List.singleton_append]
            · rename_i hshort
              have hletters : (word.drop 1).length ≤ word.length := by simp
              obtain ⟨given, hl, hsuf, hbetween⟩ := shorts_gives hletters hword
              obtain ⟨more, hg, hs⟩ := ih (hrest hsuf) h
              have hlong : isLong word = false := by
                unfold isLong
                split
                · exact absurd rfl (hshort _)
                · rfl
              refine ⟨given ++ more, .letters (Bool.eq_false_iff.2 hp) hlong hl hg, ?_⟩
              rw [hs, hbetween, ← Edit.applyAll_append, ← edits_append]

theorem read_gives {i : Invocation} {words : List Text} (h : read flags i words = (s', none)) :
    ∃ given, Gives flags words given ∧
      s'.invocation.settings = Edit.applyAll i.settings (edits given) :=
  readFrom_gives (Nat.lt_succ_self _) h

theorem long_append {found : Found} (h : CommandLine.long flags word rest = .ok found)
    (behind : List Text) : CommandLine.long flags word (rest ++ behind) =
      .ok { found with rest := found.rest ++ behind } := by
  unfold CommandLine.long at h ⊢
  dsimp only at h ⊢
  split at h <;> try cases h
  split at h
  · cases h
  · split at h <;> cases h
    · rename_i hd
      simp only [hd]
    · rename_i hd hi
      simp only [hd, hi]
    · rename_i hd hi
      simp only [hd, hi, List.cons_append]

theorem short_append {c : Char} {more more' : Text} {found : Found}
    (h : short flags c more rest = .ok (found, more')) (behind : List Text) :
    short flags c more (rest ++ behind) =
      .ok ({ found with rest := found.rest ++ behind }, more') := by
  unfold short at h ⊢
  split at h
  · cases h
  · split at h <;> cases h
    · rfl
    · rename_i hi hne
      rw [hi]
      split <;> simp_all
    · rename_i hn hi
      simp only [hi]
    · rename_i hi
      simp only [hi, List.cons_append]

theorem Letters.append {given : List (Flag × Text)} (h : Letters flags letters rest given left)
    (behind : List Text) : Letters flags letters (rest ++ behind) given (left ++ behind) := by
  induction h with
  | done rest => exact .done _
  | test rest h => exact .test _ h
  | letter hn h _ ih =>
    have hletter := Letters.letter hn (short_append h behind) ih
    exact hletter

theorem Letters.suffix {given : List (Flag × Text)} (h : Letters flags letters rest given left) :
    left <:+ rest := by
  induction h with
  | done rest => exact List.suffix_refl _
  | test rest h => exact List.suffix_refl _
  | letter _ h _ ih => exact ih.trans (short_suffix h).1

/-- Words without two dashes alone give their flags whatever follows them. -/
theorem Gives.append {words more : List Text} {given given' : List (Flag × Text)}
    (h : Gives flags words given) (hs : "--".toList ∉ words) (h' : Gives flags more given') :
    Gives flags (words ++ more) (given ++ given') := by
  induction h with
  | done => exact h'
  | plain hp _ ih => exact .plain hp (ih fun hm => hs (List.mem_cons_of_mem _ hm))
  | stop rest => exact absurd List.mem_cons_self hs
  | long hw hn h _ ih =>
    have hrest := ih fun hm => hs (List.mem_cons_of_mem _ ((long_suffix h).mem hm))
    have hlong := Gives.long hw hn (long_append h more) hrest
    exact hlong
  | letters hp hw h _ ih =>
    rw [List.append_assoc]
    refine .letters hp hw (h.append more) (ih fun hm => hs ?_)
    exact List.mem_cons_of_mem _ (h.suffix.mem hm)

theorem Letters.unique {given given' : List (Flag × Text)} {left' : List Text}
    (h : Letters flags letters rest given left) (h' : Letters flags letters rest given' left') :
    given = given' ∧ left = left' := by
  induction h generalizing given' left' with
  | done rest =>
    cases h' with
    | done => exact ⟨rfl, rfl⟩
    | test _ ht => cases ht
  | test rest h =>
    cases h' with
    | done => exact ⟨rfl, rfl⟩
    | test => exact ⟨rfl, rfl⟩
    | letter hn => exact absurd (h.symm.trans hn) (by decide)
  | letter hn h _ ih =>
    cases h' with
    | test _ ht => exact absurd (ht.symm.trans hn) (by decide)
    | letter _ h' hl =>
      cases h.symm.trans h'
      obtain ⟨rfl, rfl⟩ := ih hl
      exact ⟨rfl, rfl⟩

theorem Gives.unique {words : List Text} {given given' : List (Flag × Text)}
    (h : Gives flags words given) (h' : Gives flags words given') : given = given' := by
  have dashes : isPlain "--".toList = false ∧ isLong "--".toList = true := by decide
  have long_not_plain {w : Text} (hw : isLong w = true) : isPlain w = false := by
    unfold isLong at hw
    split at hw
    · rfl
    · cases hw
  induction h generalizing given' with
  | done =>
    cases h'
    rfl
  | plain hp _ ih =>
    cases h' with
    | plain _ hr => exact ih hr
    | stop => exact absurd (hp.symm.trans dashes.1) (by decide)
    | long hw => exact absurd (hp.symm.trans (long_not_plain hw)) (by decide)
    | letters hp' => exact absurd (hp.symm.trans hp') (by decide)
  | stop =>
    cases h' with
    | plain hp => exact absurd (hp.symm.trans dashes.1) (by decide)
    | stop => rfl
    | long _ hn => exact absurd rfl hn
    | letters _ hw => exact absurd (hw.symm.trans dashes.2) (by decide)
  | long hw hn h _ ih =>
    cases h' with
    | plain hp => exact absurd (hp.symm.trans (long_not_plain hw)) (by decide)
    | stop => exact absurd rfl hn
    | long _ _ h' hr =>
      cases h.symm.trans h'
      rw [ih hr]
    | letters _ hw' => exact absurd (hw.symm.trans hw') (by decide)
  | letters hp hw h _ ih =>
    cases h' with
    | plain hp' => exact absurd (hp'.symm.trans hp) (by decide)
    | stop => exact absurd (hw.symm.trans dashes.2) (by decide)
    | long hw' => exact absurd (hw'.symm.trans hw) (by decide)
    | letters _ _ h' hr =>
      obtain ⟨rfl, rfl⟩ := h.unique h'
      rw [ih hr]

end CommandLine

/-! ### The tags of a program -/

namespace Work

variable {α β : Type} {d d' : Desk}

theorem bind_ok {x : Work α} {a : α} (h : x d = .ok a d') (f : α → Work β) :
    (x >>= f) d = f a d' := by
  change EStateM.bind x f d = _
  rw [EStateM.bind, h]

theorem bind_eq_ok_iff {x : Work α} {f : α → Work β} {b : β} :
    (x >>= f) d = .ok b d' ↔ ∃ a e, x d = .ok a e ∧ f a e = .ok b d' := by
  change EStateM.bind x f d = .ok b d' ↔ _
  unfold EStateM.bind
  cases x d with
  | ok a e => exact ⟨fun h => ⟨a, e, rfl, h⟩, by rintro ⟨_, _, ⟨⟩, h⟩; exact h⟩
  | error e ρ => simp

theorem pure_eq_ok_iff {a b : α} : (pure a : Work α) d = .ok b d' ↔ a = b ∧ d = d' := by
  change EStateM.Result.ok a d = .ok b d' ↔ _
  simp

theorem fail_ne_ok {verbosity : Int} {reason : Text} {pos : Option Position} {b : α} :
    (fail verbosity reason pos : Work α) d ≠ .ok b d' := by
  intro h
  cases h

end Work

namespace Tag

/-- The words for the command line in tags. -/
def words (tags : List Tag) : List Text :=
  (tags.filter isArguments).flatMap fun t => argumentWords t.value

/-- The edits that a tag makes at its own place when its words give the flags `given`. -/
def makes (given : Tag → List (Flag × Text)) (t : Tag) : List Edit :=
  if t.isArguments then CommandLine.edits (given t) else t.edit?.toList

/-- Whether no tag sets what a tag with words in front of it has set. -/
def Settled (given : Tag → List (Flag × Text)) (tags : List Tag) : Prop :=
  tags.Pairwise fun t u => t.isArguments = true →
    ∀ e ∈ CommandLine.edits (given t), ∀ e' ∈ u.edit?, e.slot ≠ e'.slot

variable {flags : List Flag} {given : Tag → List (Flag × Text)} {tags : List Tag}

theorem edit?_of_isArguments {t : Tag} (h : t.isArguments = true) : t.edit? = none := by
  rw [isArguments, beq_iff_eq] at h
  simp [edit?, h]

/-- Of one setting, the edits of settled tags are those of the tags without words and then those of the
words. -/
theorem filter_makes (h : Settled given tags) (slot : Slot) :
    (tags.flatMap (makes given)).filter (·.slot = slot) =
      (tags.filterMap edit?).filter (·.slot = slot) ++
        ((tags.filter isArguments).flatMap fun t => CommandLine.edits (given t)).filter
          (·.slot = slot) := by
  induction tags with
  | nil => rfl
  | cons t rest ih =>
    obtain ⟨hfirst, hrest⟩ := List.pairwise_cons.1 h
    rw [List.flatMap_cons, List.filter_append, ih hrest]
    cases ht : t.isArguments with
    | false =>
      have hmakes : makes given t = t.edit?.toList := by simp [makes, ht]
      rw [hmakes, List.filter_cons_of_neg (by simp [ht])]
      cases he : t.edit? with
      | none => simp [he]
      | some e =>
        rw [List.filterMap_cons_some he, List.filter_cons]
        split <;> simp_all
    | true =>
      have hmakes : makes given t = CommandLine.edits (given t) := by simp [makes, ht]
      rw [hmakes, List.filterMap_cons_none (edit?_of_isArguments ht),
        List.filter_cons_of_pos ht, List.flatMap_cons, List.filter_append]
      -- what the words set, the tags behind them do not
      by_cases hnone : (CommandLine.edits (given t)).filter (·.slot = slot) = []
      · rw [hnone, List.nil_append, List.nil_append]
      · obtain ⟨e, he⟩ := List.exists_mem_of_ne_nil _ hnone
        rw [List.mem_filter, decide_eq_true_eq] at he
        have hplain : (rest.filterMap edit?).filter (·.slot = slot) = [] := by
          rw [List.filter_eq_nil_iff]
          intro e' he'
          obtain ⟨u, hu, hedit⟩ := List.mem_filterMap.1 he'
          rw [decide_eq_true_eq]
          exact fun heq => hfirst u hu ht e he.1 e' hedit (he.2.trans heq.symm)
        rw [hplain, List.nil_append, List.nil_append]

theorem gives_words (h : ∀ t ∈ tags, t.isArguments = true →
      CommandLine.Gives flags (argumentWords t.value) (given t) ∧
        "--".toList ∉ argumentWords t.value) :
    CommandLine.Gives flags (words tags) ((tags.filter isArguments).flatMap given) := by
  unfold words
  induction tags with
  | nil => exact .done
  | cons t rest ih =>
    obtain ⟨hfirst, hrest⟩ := List.forall_mem_cons.1 h
    cases ht : t.isArguments with
    | false => simpa [ht] using ih hrest
    | true =>
      obtain ⟨hgives, hdashes⟩ := hfirst ht
      simpa [ht] using hgives.append hdashes (ih hrest)

end Tag

/-! ### The settings of a run -/

/-- The edit as settings are used: two of the choices are taken in lower case. -/
def Edit.normalised : Edit → Edit
  | .text .printStyle value => .text .printStyle (Text.lower value)
  | .text .thenGoto value => .text .thenGoto (Text.lower value)
  | e => e

theorem Settings.read_normalised (s : Settings) (slot : Slot) :
    s.normalised.read slot = (s.read slot).normalised := by
  rcases slot with (f | f | f) | _
  · cases f <;> rfl
  · cases f <;> rfl
  · cases f <;> rfl
  · rfl

namespace Convert

variable {flags : List Flag} {i : Invocation} {listing : Listing} {s : Settings} {d d' : Desk}

/-- The tags of a program edit the settings, and the words in them edit the result. -/
theorem tagged_edits (h : tagged flags i listing d = .ok (some s) d') :
    ∃ behind, CommandLine.Gives flags (Tag.words (Tag.readAll listing).1) behind ∧
      s = (Edit.applyAll i.settings ((Tag.readAll listing).1.filterMap Tag.edit? ++
        CommandLine.edits behind)).normalised := by
  unfold tagged at h
  generalize Tag.readAll listing = all at h ⊢
  obtain ⟨tags, warnings⟩ := all
  dsimp only at h ⊢
  obtain ⟨_, e, -, h⟩ := Work.bind_eq_ok_iff.1 h
  rcases happly : Tag.applyAll { settings := i.settings } tags with ⟨applied, fault⟩
  rw [happly] at h
  cases fault with
  | some fault => exact absurd h Work.fail_ne_ok
  | none =>
    obtain ⟨hsettings, hwords⟩ := Tag.applyAll_edits happly
    dsimp only at h
    split at h
    · obtain ⟨_, _, -, h⟩ := Work.bind_eq_ok_iff.1 h
      exact absurd (Work.pure_eq_ok_iff.1 h).1 (by simp)
    · rcases hread : CommandLine.read flags { i with settings := applied.settings }
        applied.arguments with ⟨read, fault⟩
      rw [hread] at h
      cases fault with
      | some fault => exact absurd h Work.fail_ne_ok
      | none =>
        obtain ⟨valid, _, hvalid, h⟩ := Work.bind_eq_ok_iff.1 h
        obtain rfl : valid = s := by simpa using (Work.pure_eq_ok_iff.1 h).1
        unfold Work.validated at hvalid
        cases hf : read.invocation.settings.fault? with
        | some reason =>
          rw [hf] at hvalid
          exact absurd hvalid Work.fail_ne_ok
        | none =>
          rw [hf] at hvalid
          obtain ⟨rfl, -⟩ := Work.pure_eq_ok_iff.1 hvalid
          obtain ⟨behind, hgives, hbehind⟩ := CommandLine.read_gives hread
          rw [hwords, List.nil_append] at hgives
          refine ⟨behind, hgives, ?_⟩
          rw [hbehind, Edit.applyAll_append, hsettings]

end Convert

namespace Execute

variable {env : Environment} {files : Files} {words : List Text} {start s : Settings}
  {read : CommandLine.State} {input : Text} {listing : Listing} {desk : Desk}

/-- The edits of the words of a command line that are no flags. -/
def wordEdits : List Text → List Edit
  | [] => []
  | [input] => [.text .input input]
  | input :: output :: _ => [.text .input input, .text .output output]

theorem withWords_settings (i : Invocation) (words : List Text) :
    (withWords i words).settings = Edit.applyAll i.settings (wordEdits words) := by
  match words with
  | [] => rfl
  | [_] => rfl
  | _ :: _ :: _ => rfl

theorem settings_edits (h : settings env files = .ok start) :
    ∃ file, settingsText files (settingsFile env) = .ok file ∧
      start = Edit.applyAll {} (Settings.fileEdits file ++ env.edits) := by
  unfold settings at h
  dsimp only at h
  split at h
  · cases h
  · rename_i file hfile
    split at h
    · cases h
    · rename_i hload
      cases h
      exact ⟨file, hfile, Settings.load_edits hload⟩

/-- How a run of the program comes to convert the program at `input`, with the text `listing`, under the
settings `s`. -/
structure Stages (env : Environment) (files : Files) (words : List Text) (start : Settings)
    (read : CommandLine.State) (input : Text) (listing : Listing) (s : Settings) (desk : Desk) :
    Prop where
  started : settings env files = .ok start
  command : (CommandName.find words).1 = .convert
  parsed : CommandLine.read CommandName.convert.flags { settings := start } words = (read, none)
  unasked : read.invocation.help = false
  fitting : CommandName.convert.wordsFault? read.words = none
  named : (withWords read.invocation read.words).settings.input ≠ []
  absolute : input =
    PathName.absolute files.home (withWords read.invocation read.words).settings.input
  loaded : files.load (withWords read.invocation read.words).settings.encoding
    (withWords read.invocation read.words).settings.tabLength input = .ok listing
  tagged : Convert.tagged CommandName.convert.flags (withWords read.invocation read.words) listing
    { files } = .ok (some s) desk

theorem find_convert (h : (CommandName.find words).1 = .convert) : (CommandName.find words).2 = words := by
  unfold CommandName.find at h ⊢
  split at h
  · rfl
  · split at h
    · rfl
    · rename_i hw
      have hmem := List.mem_of_find?_eq_some hw
      exact absurd (show CommandName.convert ∈ CommandName.named from h ▸ hmem) (by decide)

theorem Stages.commandLine_eq (h : Stages env files words start read input listing s desk) :
    commandLine (settingsFile env) start words { files } = Convert.convert s input desk := by
  have hfound : CommandName.find words = (.convert, words) :=
    Prod.ext h.command (find_convert h.command)
  have hload : Work.load (withWords read.invocation read.words).settings.verbosity
      (withWords read.invocation read.words).settings input { files } = .ok listing { files } := by
    have hfiles : Work.files { files } = .ok files { files } := rfl
    unfold Work.load
    rw [Work.bind_ok hfiles, h.loaded]
    rfl
  unfold commandLine
  rw [hfound]
  simp only [h.parsed, h.unasked, h.fitting, Bool.false_eq_true, if_false, perform, if_neg h.named]
  have habsolute : Work.absolute (withWords read.invocation read.words).settings.input { files } =
      .ok input { files } := by
    rw [h.absolute]
    rfl
  unfold Convert.run
  rw [Work.bind_ok habsolute, Work.bind_ok hload, Work.bind_ok h.tagged]

/-- The settings that a program is converted under are what the last source says that says anything:
the defaults, the settings file, the environment, the command line, the tags, and then the words in
tags. When no tag sets what a tag with words in front of it has set, and the words of every tag are
whole, the words count as much as the tag that they stand in. -/
theorem settings_of_stages (h : Stages env files words start read input listing s desk) :
    ∃ file given behind outer,
      settingsText files (settingsFile env) = .ok file ∧
      CommandLine.Gives CommandName.convert.flags words given ∧
      CommandLine.Gives CommandName.convert.flags (Tag.words (Tag.readAll listing).1) behind ∧
      outer = Settings.fileEdits file ++ env.edits ++ CommandLine.edits given ++
        wordEdits read.words ∧
      commandLine (settingsFile env) start words { files } = Convert.convert s input desk ∧
      (∀ slot, s.read slot =
        ((Edit.lastOf slot (outer ++ (Tag.readAll listing).1.filterMap Tag.edit? ++
          CommandLine.edits behind)).getD (Settings.read {} slot)).normalised) ∧
      ∀ own : Tag → List (Flag × Text),
        (∀ t ∈ (Tag.readAll listing).1, t.isArguments = true →
          CommandLine.Gives CommandName.convert.flags (Tag.argumentWords t.value) (own t) ∧
            "--".toList ∉ Tag.argumentWords t.value) →
        Tag.Settled own (Tag.readAll listing).1 →
        ∀ slot, s.read slot =
          ((Edit.lastOf slot (outer ++ (Tag.readAll listing).1.flatMap (Tag.makes own))).getD
            (Settings.read {} slot)).normalised := by
  obtain ⟨file, hfile, hstart⟩ := settings_edits h.started
  obtain ⟨given, hgiven, hread⟩ := CommandLine.read_gives h.parsed
  obtain ⟨behind, hbehind, hs⟩ := Convert.tagged_edits h.tagged
  rw [withWords_settings, hread, hstart] at hs
  simp only [← Edit.applyAll_append, ← List.append_assoc] at hs
  refine ⟨file, given, behind, _, hfile, hgiven, hbehind, rfl, h.commandLine_eq, fun slot => ?_, ?_⟩
  · rw [hs, Settings.read_normalised, Edit.read_applyAll]
  · intro own hown hsettled slot
    rw [hs, Settings.read_normalised, Edit.read_applyAll]
    congr 2
    apply Edit.lastOf_congr
    have hflags : behind = ((Tag.readAll listing).1.filter Tag.isArguments).flatMap own :=
      hbehind.unique (Tag.gives_words hown)
    have hedits : CommandLine.edits behind =
        ((Tag.readAll listing).1.filter Tag.isArguments).flatMap fun t =>
          CommandLine.edits (own t) := by
      rw [hflags]
      exact List.flatMap_assoc
    simp only [List.filter_append, Tag.filter_makes hsettled, hedits, List.append_assoc]

/-- The listing of the program that a run comes to convert, and the settings. -/
def arrival? (env : Environment) (files : Files) (words : List Text) : Option (Listing × Settings) :=
  match settings env files with
  | .error _ => none
  | .ok start =>
    match CommandLine.read CommandName.convert.flags { settings := start } words with
    | (_, some _) => none
    | (read, none) =>
      let i := withWords read.invocation read.words
      let input := PathName.absolute files.home i.settings.input
      if (CommandName.find words).1 = .convert ∧ read.invocation.help = false ∧
          CommandName.convert.wordsFault? read.words = none ∧ i.settings.input ≠ [] then
        match files.load i.settings.encoding i.settings.tabLength input with
        | .error _ => none
        | .ok listing =>
          match Convert.tagged CommandName.convert.flags i listing { files } with
          | .ok (some s) _ => some (listing, s)
          | _ => none
      else none

theorem exists_stages (h : arrival? env files words = some (listing, s)) :
    ∃ start read input desk, Stages env files words start read input listing s desk := by
  unfold arrival? at h
  split at h
  · cases h
  · rename_i start hstart
    split at h
    · cases h
    · rename_i read hread
      dsimp only at h
      split at h
      · rename_i hall
        obtain ⟨hfind, hhelp, hfault, hinput⟩ := hall
        split at h
        · cases h
        · rename_i listing' hload
          split at h
          · rename_i desk htagged
            cases h
            exact ⟨start, read, _, desk, hstart, hfind, hread, hhelp, hfault, hinput, rfl, hload,
              htagged⟩
          · cases h
      · cases h

/-- A program in a file of its own. -/
def typed (code : Text) : Files :=
  Files.ofContents "/work" [("/work/game.dmx", Encoding.utf8Octets code)]

theorem settings_of_tagged_program :
    ∃ start read input listing s desk,
      Stages [("BADIG_LINE_STEP", "5")]
        (typed "##BB:TK_LIST=16\n##BB:ARGUMENTS=--ls 100\nprint 1") ["game.dmx"]
        start read input listing s desk ∧
      s.read (.field (.number .lineStart)) = .number .lineStart 100 ∧
      s.read (.field (.number .lineStep)) = .number .lineStep 5 ∧
      s.read (.field (.number .listWidth)) = .number .listWidth 16 := by
  let width : Tag := ⟨"TK_LIST", "16", .onLine 1 1 "##BB:TK_LIST=16" "/work/game.dmx"⟩
  let more : Tag :=
    ⟨"ARGUMENTS", "--ls 100", .onLine 2 1 "##BB:ARGUMENTS=--ls 100" "/work/game.dmx"⟩
  have hrun : (arrival? [("BADIG_LINE_STEP", "5")]
      (typed "##BB:TK_LIST=16\n##BB:ARGUMENTS=--ls 100\nprint 1") ["game.dmx"]).map
        (fun r => (Tag.readAll r.1).1) = some [width, more] := by
    decide +kernel
  obtain ⟨⟨listing, s⟩, harrival, htags⟩ := Option.map_eq_some_iff.1 hrun
  obtain ⟨start, read, input, desk, hstages⟩ := exists_stages harrival
  obtain ⟨file, given, behind, outer, hfile, hgiven, -, houter, -, -, hsettled⟩ :=
    settings_of_stages hstages
  -- what the sources outside the program say
  have hnone : settingsText (typed "##BB:TK_LIST=16\n##BB:ARGUMENTS=--ls 100\nprint 1")
      (settingsFile [("BADIG_LINE_STEP", "5")]) = .ok none := by decide +kernel
  obtain rfl : file = none := by
    rw [hnone] at hfile
    cases hfile
    rfl
  obtain rfl : given = [] := hgiven.unique (.plain (by decide) .done)
  -- what the words of the second tag say
  obtain ⟨found, hlong, hrest, hedits⟩ : ∃ found,
      CommandLine.long CommandName.convert.flags "--ls" ["100"] = .ok found ∧ found.rest = [] ∧
        Flag.edits found.flag.target found.value = [.number .lineStart 100] :=
    ⟨_, rfl, rfl, rfl⟩
  have hgives : CommandLine.Gives CommandName.convert.flags ["--ls", "100"]
      [(found.flag, found.value)] := .long rfl (by decide) hlong (hrest ▸ .done)
  let own (t : Tag) : List (Flag × Text) :=
    if t.isArguments then [(found.flag, found.value)] else []
  have hown : ∀ t ∈ (Tag.readAll listing).1, t.isArguments = true →
      CommandLine.Gives CommandName.convert.flags (Tag.argumentWords t.value) (own t) ∧
        "--".toList ∉ Tag.argumentWords t.value := by
    rw [htags]
    simp only [List.forall_mem_cons]
    exact ⟨fun h => absurd h (by decide), fun _ => ⟨hgives, by decide⟩, by simp⟩
  have hnext : Tag.Settled own (Tag.readAll listing).1 := by
    rw [htags]
    refine .cons (fun _ _ h => absurd h (by decide)) (.cons (by simp) .nil)
  have hmakes : (Tag.readAll listing).1.flatMap (Tag.makes own) =
      [.number .listWidth 16, .number .lineStart 100] := by
    have hmore : Tag.makes own more = [.number .lineStart 100] := by
      change Flag.edits found.flag.target found.value ++ [] = _
      rw [hedits, List.append_nil]
    rw [htags, List.flatMap_cons, List.flatMap_cons, List.flatMap_nil, hmore]
    rfl
  -- the words of the command line are no numbers
  have hwords (f : NumberField) :
      (wordEdits read.words).filter (fun e => e.slot = .field (.number f)) = [] := by
    unfold wordEdits
    split <;> simp [Edit.slot]
  have henv : Environment.edits [("BADIG_LINE_STEP", "5")] = [.number .lineStep 5] := by decide
  have hvalue (f : NumberField) := hsettled own hown hnext (.field (.number f))
  rw [hmakes, houter, henv] at hvalue
  refine ⟨start, read, input, listing, s, desk, hstages, ?_, ?_, ?_⟩ <;>
  · rw [hvalue]
    simp only [Edit.lastOf, List.filter_append, hwords]
    rfl

/-- A tag does not undo the words in a tag in front of it. -/
theorem tag_behind_words_ineffective :
    ∃ start read input listing s desk,
      Stages [] (typed "##BB:ARGUMENTS=--tk_tokenize\n##BB:TK_TOKENIZE=false\nprint 1")
        ["game.dmx"] start read input listing s desk ∧
      (Tag.readAll listing).1.map (fun t => (t.name, t.value)) =
        [("ARGUMENTS".toList, "--tk_tokenize".toList), ("TK_TOKENIZE".toList, "false".toList)] ∧
      s.switch .tokenize = true := by
  have hrun : (arrival? []
      (typed "##BB:ARGUMENTS=--tk_tokenize\n##BB:TK_TOKENIZE=false\nprint 1") ["game.dmx"]).map
        (fun r => ((Tag.readAll r.1).1.map (fun t => (t.name, t.value)), r.2.switch .tokenize)) =
      some ([("ARGUMENTS".toList, "--tk_tokenize".toList), ("TK_TOKENIZE".toList, "false".toList)],
        true) := by
    decide +kernel
  obtain ⟨⟨listing, s⟩, harrival, hvalues⟩ := Option.map_eq_some_iff.1 hrun
  obtain ⟨start, read, input, desk, hstages⟩ := exists_stages harrival
  obtain ⟨htags, hswitch⟩ := Prod.mk.inj hvalues
  exact ⟨start, read, input, listing, s, desk, hstages, htags, hswitch⟩

end Execute

end ClassicBasic
