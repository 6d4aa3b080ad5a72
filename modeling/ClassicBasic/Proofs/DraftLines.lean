import ClassicBasic.Proofs.Draft
import ClassicBasic.Proofs.LineNumbers

/-!
# The lines of a draft

A compiled draft has one line for each of its rows, behind those of the introduction. A jump to a
label has become the number of the line of the row behind the label.
-/

set_option autoImplicit false

namespace ClassicBasic

open List (Forall₂)
open ClassicBasic.Numbering (Scale lineAt Landing Hits jumpsFrom labelsFrom infosFrom)
open NumberedLine (labelName)

variable {file : Text} {ds : List Draft} {scale : Scale} {k : Nat}

namespace Draft

/-- The rows of a draft, each by its jumps and its text. -/
def rows : List Draft → List (List Text × Text)
  | [] => []
  | label _ :: ds => rows ds
  | row names text :: ds => (names, text) :: rows ds

/-- The labels of a draft, with the lines of the rows behind them, from the line behind `k` line ends
on. -/
def labels (scale : Scale) (file : Text) (k : Nat) : List Draft → List (Text × Int)
  | [] => []
  | label n :: ds => (labelName n ++ "@" ++ file, lineAt scale k) :: labels scale file k ds
  | row _ _ :: ds => labels scale file (k + 1) ds

/-- Whether the token is the number that the row `i` jumps to by a name, the rows standing on the lines from
the one behind `k` line ends on. -/
structure Leads (scale : Scale) (file : Text) (k : Nat) (ds : List Draft) (i : Nat) (name : Text)
    (u : Token) : Prop where
  here : name = Label.sameLine → u.value = Text.ofInt (lineAt scale (k + i))
  away : ∀ n, name = labelName n →
    ∃ line, (labelName n ++ "@" ++ file, line) ∈ labels scale file k ds ∧ u.value = Text.ofInt line

end Draft

open Draft (Leads)

theorem Calls.leads {i : Nat} {name : Text} {t u : Token} (h : Calls file name t)
    (hh : Hits (Draft.labels scale file k ds).reverse (lineAt scale (k + i)) t u) :
    Leads scale file k ds i name u := by
  rw [Hits, h.value] at hh
  refine ⟨fun hs => ?_, fun n hn => ?_⟩
  · rwa [if_pos hs] at hh
  have hs : name ≠ Label.sameLine := by
    rw [hn, NumberedLine.labelName_eq]
    exact fun h => by cases h
  rw [if_neg hs] at hh
  obtain ⟨line, hline, hu⟩ := hh
  obtain ⟨front, back, hlabels, -⟩ := List.lookup_eq_some_iff.1 hline
  have hmem : (Numbering.key t, line) ∈ Draft.labels scale file k ds := List.mem_reverse.1 (by simp [hlabels])
  rw [Numbering.key, h.value, h.file hs, hn] at hmem
  exact ⟨line, hmem, hu⟩

theorem leads_of_calls {i : Nat} {names : List Text} {calls jumps : List Token}
    (h : Forall₂ (Calls file) names calls)
    (hh : Forall₂ (Hits (Draft.labels scale file k ds).reverse (lineAt scale (k + i))) calls jumps) :
    Forall₂ (Leads scale file k ds i) names jumps := by
  induction h generalizing jumps with
  | nil =>
    cases hh
    exact .nil
  | cons hc _ ih =>
    cases hh with
    | cons hl hh => exact .cons (hc.leads hl) (ih hh)

theorem exists_getElem?_of_forall₂ {α β : Type} {R : α → β → Prop} {l : List α} {m : List β}
    (h : Forall₂ R l m) {i : Nat} {a : α} (ha : l[i]? = some a) : ∃ b, m[i]? = some b ∧ R a b := by
  obtain ⟨hi, rfl⟩ := List.getElem?_eq_some_iff.1 ha
  exact ⟨_, List.getElem?_eq_getElem (h.length_eq ▸ hi), h.get hi (h.length_eq ▸ hi)⟩

namespace Signed

variable {signs calls rest : List Token} {names : List Text}

theorem jumps_call {read : List Token} (h : Forall₂ (Calls file) names calls) :
    jumpsFrom read (calls ++ rest) = jumpsFrom (calls.reverse ++ read) rest := by
  induction h generalizing read with
  | nil => rfl
  | cons hc _ ih =>
    rw [List.cons_append, Numbering.jumpsFrom_jump hc.kind, ih, List.reverse_cons, List.append_assoc]
    rfl

theorem labels_call (h : Forall₂ (Calls file) names calls) :
    labelsFrom scale k (calls ++ rest) = labelsFrom scale k rest := by
  refine Numbering.labelsFrom_append fun t ht => ?_
  obtain ⟨name, -, hc⟩ := Outcome.exists_of_forall₂ h ht
  simp [hc.kind]

theorem infos_call (h : Forall₂ (Calls file) names calls) :
    infosFrom scale k (calls ++ rest) = infosFrom scale k rest := by
  induction h with
  | nil => rfl
  | cons hc _ ih =>
    rw [List.cons_append, infosFrom, if_neg (by simp [hc.kind]), if_neg (by simp [hc.kind]), ih]

theorem jumps (h : Signed file ds signs) :
    Forall₂ (fun row calls => Forall₂ (Calls file) row.1 calls) (Draft.rows ds) (jumpsFrom [] signs) := by
  induction h with
  | done he =>
    rw [Numbering.jumpsFrom_eof he]
    exact .nil
  | @label n ds t rest hk hv hf more ih =>
    rw [show t :: rest = [t] ++ rest from rfl, Numbering.jumpsFrom_append (by simp [hk])]
    exact ih
  | @row names text ds calls rest newline hc hn ht more ih =>
    rw [jumps_call hc, Numbering.jumpsFrom_newline hn, List.append_nil, List.reverse_reverse]
    exact .cons hc ih

theorem labels (h : Signed file ds signs) : labelsFrom scale k signs = Draft.labels scale file k ds := by
  induction h generalizing k with
  | done he => exact Numbering.labelsFrom_eof he
  | @label n ds t rest hk hv hf more ih =>
    rw [Numbering.labelsFrom_token (by simp [hk]) (by simp [hk]), if_pos hk, ih, Numbering.key, hv, hf]
    rfl
  | @row names text ds calls rest newline hc hn ht more ih =>
    rw [labels_call hc, Numbering.labelsFrom_newline hn, ih, Draft.labels]

theorem infos (h : Signed file ds signs) :
    Forall₂ (fun row (info : LineInfo) => info.text = row.2) (Draft.rows ds) (infosFrom scale k signs) := by
  induction h generalizing k with
  | done he =>
    rw [infosFrom, if_pos he]
    exact .nil
  | @label n ds t rest hk hv hf more ih =>
    rw [infosFrom, if_neg (by simp [hk]), if_neg (by simp [hk])]
    exact ih
  | @row names text ds calls rest newline hc hn ht more ih =>
    rw [infos_call hc, infosFrom, if_neg (by simp [hn]), if_pos hn]
    exact .cons ht ih

end Signed

namespace Numbering

variable {labels : List (Text × Int)} {ls ms : List (List Token)}

/-- The jumps of a line lead from its number. -/
theorem Landing.getElem? (h : Landing labels scale k ls ms) :
    ls.length = ms.length ∧ ∀ i l m, ls[i]? = some l → ms[i]? = some m →
      Forall₂ (Hits labels (lineAt scale (k + i))) l m := by
  induction h with
  | done => exact ⟨rfl, by simp⟩
  | line hl _ ih =>
    refine ⟨congrArg Nat.succ ih.1, fun i l m hi hm => ?_⟩
    cases i with
    | zero =>
      cases hi
      cases hm
      exact hl
    | succ i =>
      have := ih.2 i l m hi hm
      rwa [Nat.add_assoc, Nat.add_comm 1] at this

theorem number_infosFrom {i : Nat} {info : LineInfo} {tokens : List Token}
    (h : (infosFrom scale k tokens)[i]? = some info) : info.number = lineAt scale (k + i) := by
  induction tokens generalizing k i with
  | nil => simp [infosFrom] at h
  | cons t rest ih =>
    rw [infosFrom] at h
    split at h
    · simp at h
    split at h
    · cases i with
      | zero =>
        obtain rfl := Option.some.inj h
        rfl
      | succ i => rw [ih h, Nat.add_assoc, Nat.add_comm 1]
    · exact ih h

end Numbering

/-- Line `i` of a compiled program: its number, the source it was made of and its jumps. -/
structure Compiled.HasLine (c : Compiled) (d : Dialect) (o : Options) (i : Nat) (n : Int) (text : Text)
    (jumps : List Token) : Prop where
  row : ∃ row notes, (Render.rows c.parsed)[i]? = some row ∧ c.code[i]? = some (Render.line d o notes row) ∧
    Render.HeadedBy n row ∧ Render.jumps row = jumps
  number : ∃ tail, c.code[i]? = some (Text.ofInt n ++ tail) ∧ (o.stripSpaces = false → Render.StartsBlank tail)
  info : ∃ source file, c.infos[i]? = some ⟨n, source, text, file⟩

namespace Compile

variable {s : Setting} {o : Options} {listing : Listing} {c : Compiled} {σ τ : Session}
  {start newline : Token} {input : List Token}

/-- How many lines introduce a program. -/
def introduction (o : Options) : Nat := if o.header then 2 else 0

theorem whole_counted (o : Options) (start second : Token) (rest : List Token) :
    ∃ lead, whole o (start :: second :: rest) = start :: second :: (lead ++ rest) ∧
      jumpsFrom [] (lead ++ rest) = List.replicate (introduction o) [] ++ jumpsFrom [] rest ∧
      ∀ scale, labelsFrom scale 1 (lead ++ rest) = labelsFrom scale (1 + introduction o) rest ∧
        ∃ infos, infos.length = introduction o ∧
          infosFrom scale 1 (lead ++ rest) = infos ++ infosFrom scale (1 + introduction o) rest := by
  unfold whole introduction
  split
  · exact ⟨Numbering.headerTexts.flatMap (Numbering.remarkLine start.pos), rfl, rfl,
      fun _ => ⟨rfl, [_, _], rfl, rfl⟩⟩
  · exact ⟨[], rfl, rfl, fun _ => ⟨rfl, [], rfl, rfl⟩⟩

/-- With the first line end in place, every row is headed by the number of its line. -/
theorem headedBy_of_headed (h : ofListing s o listing σ = .ok c τ) (hc : c.Headed) {i : Nat} {row : List Token}
    (hi : (Render.rows c.parsed)[i]? = some row) : Render.HeadedBy (lineAt o.scale (i + 1)) row := by
  obtain ⟨second, rest, K, ended, hsheet⟩ := exists_sheet h
  obtain ⟨n, hn, hhead⟩ := exists_getElem?_of_forall₂ (hsheet.rows_headed (hsheet.headed_iff.1 hc)).flip hi
  rw [List.getElem?_tail] at hn
  have heq := hsheet.follows.ended_eq.1 _ _ hn
  rw [Nat.zero_add] at heq
  exact heq ▸ hhead

/-- A compiled draft has a line for each of its rows, and each jump has become the number of the line it
leads to. -/
theorem hasLine_drafted (h : ofListing s o listing σ = .ok c τ)
    (hlex : Lexer.lex s.dialect listing = .ok (start :: newline :: input)) (hd : Drafted file ds input)
    (hk : start.kind = .program) (hstart : start.value ≠ Merge.keepSign)
    (hn : newline.kind = .newline) (hv : newline.value ≠ Merge.keepSign) :
    c.code.length = introduction o + (Draft.rows ds).length ∧
      ∀ i names text, (Draft.rows ds)[i]? = some (names, text) →
        ∃ jumps, c.HasLine s.dialect o (introduction o + i) (lineAt o.scale (introduction o + i + 1)) text jumps ∧
          Forall₂ (Leads o.scale file (introduction o + 1) ds i) names jumps := by
  obtain ⟨merged, numbered, before, after, hp⟩ := exists_passes h
  obtain hlexed : c.lexed = start :: newline :: input := Except.ok.inj (hp.lexed.symm.trans hlex)
  have hconverted := hp.converted
  rw [hlexed] at hconverted
  obtain ⟨signs, rest, hsigned, rfl, hfilter⟩ := Branch.exists_signed hd hk hstart hn hv hconverted
  obtain ⟨lead, hwhole, hjumps, hcounted⟩ := whole_counted o start newline rest
  obtain ⟨hlabels, infos, hlen, hinfos⟩ := hcounted o.scale
  obtain ⟨hhead, hreport, hland⟩ := hp.landing h hwhole hn
  -- what is counted are the signs
  obtain ⟨hj, hl, hi⟩ := Numbering.counted_filter o.scale [] rest (1 + introduction o)
  rw [hfilter] at hj hl hi
  rw [hjumps, ← hj, hlabels, ← hl, hsigned.labels, Nat.add_comm 1] at hland
  rw [hinfos, ← hi, Nat.add_comm 1] at hreport
  obtain ⟨hrows, hget⟩ := hland.getElem?
  rw [List.length_append, List.length_replicate, ← hsigned.jumps.length_eq, List.length_map] at hrows
  obtain ⟨notes, hcode⟩ := code_eq h
  refine ⟨by rw [hcode, List.length_map, hrows], fun i names text hrow => ?_⟩
  obtain ⟨calls, hcalls, hcall⟩ := exists_getElem?_of_forall₂ hsigned.jumps hrow
  obtain ⟨info, hinfo, htext⟩ : ∃ info, (infosFrom o.scale (introduction o + 1) signs)[i]? = some info ∧
      info.text = text := exists_getElem?_of_forall₂ hsigned.infos hrow
  obtain ⟨row, hat⟩ : ∃ row, (Render.rows c.parsed)[introduction o + i]? = some row := by
    have hlt := (List.getElem?_eq_some_iff.1 hrow).1
    exact ⟨_, List.getElem?_eq_getElem (by omega)⟩
  have hheaded := headedBy_of_headed h hhead hat
  obtain ⟨tail, htail, hblank⟩ := Render.line_headed s.dialect o notes hheaded
  have hline : c.code[introduction o + i]? = some (Render.line s.dialect o notes row) := by
    rw [hcode, List.getElem?_map, hat, Option.map_some]
  have hnumber := Numbering.number_infosFrom hinfo
  rw [Nat.add_right_comm] at hnumber
  have hhits := hget (introduction o + i) calls (Render.jumps row)
    (by rw [List.getElem?_append_right (by simp), List.length_replicate, Nat.add_sub_cancel_left, hcalls])
    (by rw [List.getElem?_map, hat, Option.map_some])
  rw [← Nat.add_assoc, Nat.add_comm 1] at hhits
  refine ⟨_, ⟨⟨row, notes, hat, hline, hheaded, rfl⟩, ⟨tail, htail ▸ hline, hblank⟩, info.source, info.file, ?_⟩,
    leads_of_calls hcall hhits⟩
  rw [hreport, List.getElem?_append_right (by omega), hlen, Nat.add_sub_cancel_left, hinfo, ← hnumber, ← htext]

end Compile

end ClassicBasic
