import ClassicBasic.Lexer.Data
import ClassicBasic.Lexer.Munch
import ClassicBasic.Outcome

/-!
# Lexing a listing

The tokens of a listing: a start, a line end, the tokens of every line with a line end each, and an
end. Strings, remarks, remark blocks and DATA items are read as they stand; blank lines merge into
the line end before them.
-/

set_option autoImplicit false

namespace ClassicBasic.Lexer

/-- Reads the lines of a block up to the first that ends with `closer`. -/
def blockLines (closing : Nat) (opener : Token) (input : List Glyph) :
    Except Failure (List Token × List Glyph) :=
  let text := (Glyph.restOfLine input).1
  let atEnd := (Glyph.restOfLine input).2
  match Text.dropTail opener.value text with
  | some body =>
    let endPos := Glyph.place atEnd
    let last : Token :=
      ⟨.blockEnd, opener.value, endPos.withCol (endPos.col - opener.value.length)⟩
    .ok
      (if body.all Text.isBlank then [last] else [⟨.blockText, body, Glyph.place input⟩, last],
        atEnd)
  | none =>
    match _h : Glyph.nextLine? closing atEnd with
    | none => .error (opener.failure (.blockNotClosed opener.pos.line))
    | some next =>
      (blockLines closing opener next).map fun more =>
        (⟨.blockText, text, Glyph.place input⟩ :: more.1, more.2)
termination_by input.length
decreasing_by
  have : next.length < (Glyph.restOfLine input).2.length := Glyph.length_nextLine _h
  have := Glyph.length_restOfLine input
  omega

/-- Where the text of a block starts: behind its opener, or on the next line when nothing follows
it. -/
def blockStart? (closing : Nat) (input : List Glyph) : Option (List Glyph) :=
  if (Glyph.restOfLine input).1 = [] then Glyph.nextLine? closing input else some input

/-- Reads a block. Blocks of remarks are kept, blocks of comments dropped. -/
def block (closing : Nat) (opener : Token) (input : List Glyph) :
    Except Failure (List Token × List Glyph) :=
  match blockStart? closing input with
  | none => .error (opener.failure (.blockNotClosed opener.pos.line))
  | some start =>
    (blockLines closing opener start).map fun read =>
      (if opener.kind = .blockRemark then opener :: read.1 else [], read.2)

/-- Whether a `#name` after a token of the given kind is a tag and not a symbol with a name. -/
def opensTag : Kind → Bool
  | .newline | .toggle | .directive => true
  | _ => false

/-- The tokens that a scanned token stands for, read to the end of what it opens; `last` is the kind
of the token before it. -/
def complete (d : Dialect) (closing : Nat) (last : Kind) (t : Token) (input : List Glyph) :
    Except Failure (List Token × List Glyph) :=
  match t.kind with
  | .toggle =>
    match opensTag last, Dialect.splitToggle t.value with
    | false, some (symbol, name) =>
      let kind := (d.classify name).getD .identifier
      .ok ([⟨.symbol, symbol, t.pos⟩, ⟨kind, name, t.pos.withCol (t.pos.col + 1)⟩], input)
    | _, _ => .ok ([t], input)
  | .blockRemark =>
    if last = .newline then block closing t input
    else
      let text := (Glyph.restOfLine input).1
      .ok ([⟨.remark, "'", t.pos⟩, ⟨.remarkText, "'" ++ text, t.pos.withCol (t.pos.col + 1)⟩],
        (Glyph.restOfLine input).2)
  | .blockComment =>
    if last = .newline then block closing t input else .ok ([], (Glyph.restOfLine input).2)
  | .lineComment => .ok ([], (Glyph.restOfLine input).2)
  | .remark =>
    let text := (Glyph.restOfLine input).1
    .ok (if text = [] then [t] else [t, ⟨.remarkText, text, Glyph.place input⟩],
      (Glyph.restOfLine input).2)
  | .quote =>
    .ok ([⟨.string, t.value ++ (quotedTail input).1, t.pos⟩], (quotedTail input).2)
  | .data => .ok (t :: (dataFields closing input).1, (dataFields closing input).2)
  | _ => .ok ([t], input)

/-- The next token as the grammar scans it, and what is left. Line ends that run on past the end of
the listing exhaust it. -/
def scan (d : Dialect) (g : Glyph) (rest : List Glyph) : Except Failure (Token × List Glyph) :=
  match d.classify [g.char] with
  | none => .error (.located (.unrecognised [g.char]) g.pos)
  | some k =>
    let found := munch Glyph.char d [g.char] k rest
    if found.2.2 = [] ∧ (d.classify (found.1 ++ [Glyph.endMark])).isSome then .error .exhausted
    else .ok (⟨found.2.1, found.1, g.pos⟩, found.2.2)

theorem length_scan {d : Dialect} {g : Glyph} {rest left : List Glyph} {t : Token}
    (h : scan d g rest = .ok (t, left)) : left.length ≤ rest.length := by
  unfold scan at h
  split at h
  · cases h
  · dsimp only at h
    split at h
    · cases h
    · cases h
      exact length_munch _ _ _ _ _

theorem length_blockLines {closing : Nat} {opener : Token} {input : List Glyph}
    {read : List Token × List Glyph} (h : blockLines closing opener input = .ok read) :
    read.2.length ≤ input.length := by
  fun_induction blockLines closing opener input generalizing read with
  | case1 =>
    cases h
    exact Glyph.length_restOfLine _
  | case2 => cases h
  | case3 input _ _ _ next hn =>
    rename_i ih
    obtain ⟨more, hm, rfl⟩ := Outcome.map_eq_ok_iff.1 h
    have : next.length < (Glyph.restOfLine input).2.length := Glyph.length_nextLine hn
    have := Glyph.length_restOfLine input
    have := ih hm
    simp only
    omega

theorem length_blockStart {closing : Nat} {input start : List Glyph}
    (h : blockStart? closing input = some start) : start.length ≤ input.length := by
  unfold blockStart? at h
  split at h
  · exact Nat.le_of_lt (Glyph.length_nextLine h)
  · cases h
    exact Nat.le_refl _

theorem length_block {closing : Nat} {opener : Token} {input : List Glyph}
    {read : List Token × List Glyph} (h : block closing opener input = .ok read) :
    read.2.length ≤ input.length := by
  unfold block at h
  split at h
  · cases h
  · rename_i start hs
    obtain ⟨more, hm, rfl⟩ := Outcome.map_eq_ok_iff.1 h
    have := length_blockLines hm
    exact Nat.le_trans this (length_blockStart hs)

theorem length_complete {d : Dialect} {closing : Nat} {last : Kind} {t : Token}
    {input : List Glyph} {read : List Token × List Glyph}
    (h : complete d closing last t input = .ok read) : read.2.length ≤ input.length := by
  unfold complete at h
  have hr := Glyph.length_restOfLine input
  split at h
  · split at h <;> cases h <;> exact Nat.le_refl _
  · split at h
    · exact length_block h
    · cases h
      exact hr
  · split at h
    · exact length_block h
    · cases h
      exact hr
  · cases h
    exact hr
  · cases h
    exact hr
  · cases h
    exact length_quotedTail input
  · cases h
    exact length_dataFields closing input
  · cases h
    exact Nat.le_refl _

/-- The tokens of what is left of a listing whose last line has `closing` characters; `last` is the
kind of the token before them. -/
def lexFrom (d : Dialect) (closing : Nat) (last : Kind) (input : List Glyph) :
    Except Failure (List Token) :=
  match input with
  | [] => .ok [⟨.eof, Listing.eofText, {}⟩]
  | g :: rest =>
    if rest.length < closing then .ok [⟨.eof, Listing.eofText, g.pos⟩]
    else
      match _hs : scan d g rest with
      | .error e => .error e
      | .ok (t, left) =>
        if t.kind = .spaces then lexFrom d closing last left
        else if t.kind = .baseMark ∨ t.kind = .lonePoint then
          .error (t.failure (.incomplete t.value))
        else
          match _hc : complete d closing last t left with
          | .error e => .error e
          | .ok (tokens, left') =>
            let last' := (tokens.getLast?.map Token.kind).getD last
            (lexFrom d closing last' left').map (tokens ++ ·)
termination_by input.length
decreasing_by
  · have := length_scan _hs
    simp only [List.length_cons]
    omega
  · have := length_scan _hs
    have := length_complete _hc
    simp only [List.length_cons] at *
    omega

/-- The tokens of a listing, whose first and last lines are sentinels. -/
def lex (d : Dialect) (listing : Listing) : Except Failure (List Token) :=
  match listing with
  | first :: second :: more =>
    let start := Glyph.place (Glyph.ofLine first)
    let lines := second :: more
    let closing := (Glyph.ofLine ((second :: more).getLast (by simp))).length
    (lexFrom d closing .newline (lines.flatMap Glyph.ofLine)).map fun tokens =>
      ⟨.program, Listing.programText, start⟩ :: ⟨.newline, [Glyph.endMark], start⟩ :: tokens
  | _ => .error .unframed

end ClassicBasic.Lexer
