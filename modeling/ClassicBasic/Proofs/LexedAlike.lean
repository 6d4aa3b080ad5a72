import ClassicBasic.Proofs.Covering
import ClassicBasic.Proofs.Spelling
import ClassicBasic.Proofs.WrittenAlike

/-!
# Listings that are lexed alike

The lexer looks at the letters of a listing up to their case only, and not at the numbers of its lines.
Two listings whose characters are the same up to case have the same tokens up to case, whatever the
letters stand in: where a string, a remark or an item of DATA begins and ends is decided by signs and
keywords.
-/

set_option autoImplicit false

namespace ClassicBasic

open List (Forall₂)

/-- Whether two lines are the same under `f`, in one file. -/
structure Line.Same (f : Char → Char) (l l' : Line) : Prop where
  file : l.file = l'.file
  text : l.text.map f = l'.text.map f

/-- Whether two tokens are the same under `f`, in one file. -/
structure Token.Same (f : Char → Char) (t t' : Token) : Prop where
  kind : t.kind = t'.kind
  file : t.pos.file = t'.pos.file
  value : t.value.map f = t'.value.map f

namespace Glyph

/-- Whether two characters of listings are the same under `f`, in one file. -/
structure Same (f : Char → Char) (g g' : Glyph) : Prop where
  char : f g.char = f g'.char
  ends : g.ends = g'.ends
  file : g.pos.file = g'.pos.file

variable {f : Char → Char} {g g' : Glyph} {input input' : List Glyph}

theorem Same.is (hf : Text.Fine f) (h : Same f g g') {c : Char} (hc : Text.isCaseless c = true) :
    g.char = c ↔ g'.char = c :=
  ⟨hf.eq_sign h.char hc, hf.eq_sign h.char.symm hc⟩

theorem Same.beq (hf : Text.Fine f) (h : Same f g g') {c : Char} (hc : Text.isCaseless c = true) :
    (g.char == c) = (g'.char == c) := by
  rw [Bool.eq_iff_iff, beq_iff_eq, beq_iff_eq]
  exact h.is hf hc

theorem spread_same {v v' file : Text} (h : v.map f = v'.map f)
    (line line' : Nat) (col col' : Int) (text text' : Text) :
    Forall₂ (Same f) (spread line text file col v) (spread line' text' file col' v') := by
  induction v generalizing v' col col' with
  | nil =>
    obtain rfl := List.map_eq_nil_iff.1 h.symm
    exact .cons ⟨rfl, rfl, rfl⟩ .nil
  | cons c v ih =>
    obtain ⟨c', v', rfl, hc, hv⟩ := List.map_eq_cons_iff.1 h.symm
    exact .cons ⟨hc.symm, rfl, rfl⟩ (ih hv.symm _ _)

theorem ofLine_same (hf : Text.Fine f) {l l' : Line} (h : l.Same f l') :
    Forall₂ (Same f) (ofLine l) (ofLine l') := by
  have hblank (c c' : Char) (hc : f c = f c') : Text.isBlank c = Text.isBlank c' :=
    hf.apply (g := Text.isBlank) (by decide) hc
  have htext := Text.trimEnd_of_map (f := f) hblank h.text
  rw [ofLine, ofLine, h.file]
  exact spread_same htext _ _ _ _ _ _

theorem place_same (h : Forall₂ (Same f) input input') : (place input).file = (place input').file := by
  cases h with
  | nil => rfl
  | cons hg _ => exact hg.file

theorem dropWhile_same {p : Glyph → Bool} (hp : ∀ g g', Same f g g' → p g = p g')
    (h : Forall₂ (Same f) input input') :
    Forall₂ (Same f) (input.dropWhile p) (input'.dropWhile p) := by
  induction h with
  | nil => exact .nil
  | cons hg hmore ih =>
    rw [List.dropWhile_cons, List.dropWhile_cons, hp _ _ hg]
    split
    · exact ih
    · exact .cons hg hmore

theorem restOfLine_same (h : Forall₂ (Same f) input input') :
    (restOfLine input).1.map f = (restOfLine input').1.map f ∧
      Forall₂ (Same f) (restOfLine input).2 (restOfLine input').2 := by
  refine ⟨?_, dropWhile_same (fun g g' hg => by rw [hg.ends]) h⟩
  unfold restOfLine
  induction h with
  | nil => rfl
  | @cons g g' _ _ hg _ ih =>
    simp only [List.takeWhile_cons, hg.ends]
    split
    · simpa [hg.char] using ih
    · rfl

theorem nextLine_same (closing : Nat) (h : Forall₂ (Same f) input input') :
    Option.Rel (Forall₂ (Same f)) (nextLine? closing input) (nextLine? closing input') := by
  have hnext := List.forall₂_drop 1 (restOfLine_same h).2
  simp only [nextLine?]
  rw [show (input.dropWhile fun g => !g.ends) = (restOfLine input).2 from rfl,
    show (input'.dropWhile fun g => !g.ends) = (restOfLine input').2 from rfl, hnext.length_eq]
  split
  · exact .some hnext
  · exact .none

end Glyph

namespace Lexer

open Glyph (Same)
open Outcome (Both)

variable {f : Char → Char} (hf : Text.Fine f) {d : Dialect} {closing : Nat} {g g' : Glyph}
  {rest rest' input input' : List Glyph}
  {t t' : Token} {v v' : Text}

include hf

theorem all_isBlank_same (h : v.map f = v'.map f) :
    v.all Text.isBlank = v'.all Text.isBlank :=
  hf.all (by decide) h

def ReadAs (f : Char → Char) (r r' : List Token × List Glyph) : Prop :=
  Forall₂ (Token.Same f) r.1 r'.1 ∧ Forall₂ (Same f) r.2 r'.2

theorem munch_same {taken taken' : Text} (k : Kind)
    (ht : taken.map f = taken'.map f) (h : Forall₂ (Same f) input input') :
    (munch Glyph.char d taken k input).1.map f =
        (munch Glyph.char d taken' k input').1.map f ∧
      (munch Glyph.char d taken k input).2.1 = (munch Glyph.char d taken' k input').2.1 ∧
      Forall₂ (Same f) (munch Glyph.char d taken k input).2.2
        (munch Glyph.char d taken' k input').2.2 := by
  induction h generalizing taken taken' k with
  | nil => exact ⟨ht, rfl, .nil⟩
  | @cons g g' rest rest' hg hrest ih =>
    have hgrown : (taken ++ [g.char]).map f = (taken' ++ [g'.char]).map f := by
      simp [ht, hg.char]
    simp only [munch, d.classify_like hf hgrown]
    split
    · exact ih _ hgrown
    · exact ⟨ht, rfl, .cons hg hrest⟩

theorem scan_same (hg : Same f g g') (h : Forall₂ (Same f) rest rest') :
    Both (fun r r' => Token.Same f r.1 r'.1 ∧ Forall₂ (Same f) r.2 r'.2) (scan d g rest)
      (scan d g' rest') := by
  have hone : [g.char].map f = [g'.char].map f := by simp [hg.char]
  unfold scan
  rw [d.classify_like hf hone]
  cases d.classify [g'.char] with
  | none => exact .error _ _
  | some k =>
    obtain ⟨hvalue, hkind, hleft⟩ := munch_same hf (d := d) k hone h
    have hends : ((munch Glyph.char d [g.char] k rest).1 ++ [Glyph.endMark]).map f =
        ((munch Glyph.char d [g'.char] k rest').1 ++ [Glyph.endMark]).map f := by
      simp [hvalue]
    have hnil : (munch Glyph.char d [g.char] k rest).2.2 = [] ↔
        (munch Glyph.char d [g'.char] k rest').2.2 = [] := by
      rw [← List.length_eq_zero_iff, hleft.length_eq, List.length_eq_zero_iff]
    dsimp only
    simp only [d.classify_like hf hends, hnil]
    split
    · exact .error _ _
    · exact .ok ⟨⟨hkind, hg.file, hvalue⟩, hleft⟩

theorem dropTail_same {w : Text} (hw : w.all Text.isCaseless = true)
    (h : v.map f = v'.map f) :
    Option.Rel (fun u u' : Text => u.map f = u'.map f) (Text.dropTail w v)
      (Text.dropTail w v') := by
  have hlen := Text.length_of_map h
  have htail : (v.drop (v.length - w.length)).map f =
      (v'.drop (v'.length - w.length)).map f := by
    rw [List.map_drop, List.map_drop, h, hlen]
  have hends : w.isSuffixOf v = w.isSuffixOf v' := by
    rw [Bool.eq_iff_iff, List.isSuffixOf_iff_suffix, List.isSuffixOf_iff_suffix,
      List.suffix_iff_eq_drop, List.suffix_iff_eq_drop, eq_comm, eq_comm (a := w)]
    exact hf.eq_signs htail hw
  unfold Text.dropTail
  rw [hends]
  split
  · exact .some (by rw [List.map_take, List.map_take, h, hlen])
  · exact .none

theorem blockLines_same {opener opener' : Token} (ho : opener.value = opener'.value)
    (hs : opener.value.all Text.isCaseless = true) (h : Forall₂ (Same f) input input') :
    Both (ReadAs f) (blockLines closing opener input) (blockLines closing opener' input') := by
  obtain ⟨n, hn⟩ : ∃ n, input.length = n := ⟨_, rfl⟩
  induction n using Nat.strong_induction_on generalizing input input' with
  | _ n ih =>
    obtain ⟨htext, hleft⟩ := Glyph.restOfLine_same h
    have hplace := Glyph.place_same h
    have hbody := dropTail_same hf hs htext
    have hnext := Glyph.nextLine_same closing hleft
    rw [blockLines, blockLines, ← ho]
    dsimp only
    split
    · rename_i body hb
      rw [hb] at hbody
      generalize Text.dropTail opener.value (Glyph.restOfLine input').1 = found at hbody ⊢
      cases hbody with
      | @some _ body' hv =>
        have hlast := Glyph.place_same hleft
        dsimp only
        rw [all_isBlank_same hf hv]
        split
        · exact .ok ⟨.cons ⟨rfl, hlast, rfl⟩ .nil, hleft⟩
        · exact .ok ⟨.cons ⟨rfl, hplace, hv⟩ (.cons ⟨rfl, hlast, rfl⟩ .nil), hleft⟩
    · rename_i hb
      rw [hb] at hbody
      generalize Text.dropTail opener.value (Glyph.restOfLine input').1 = found at hbody ⊢
      cases hbody
      dsimp only
      split
      · rename_i hx
        rw [hx] at hnext
        split
        · exact .error _ _
        · rename_i hx'
          rw [hx'] at hnext
          cases hnext
      · rename_i next hx
        rw [hx] at hnext
        split
        · rename_i hx'
          rw [hx'] at hnext
          cases hnext
        · rename_i next' hx'
          rw [hx'] at hnext
          have hlt : next.length < n := by
            have h1 := Glyph.length_nextLine hx
            have h2 := Glyph.length_restOfLine input
            omega
          cases hnext with
          | some hrel =>
            exact (ih _ hlt hrel rfl).map fun r r' hr =>
              ⟨.cons ⟨rfl, hplace, htext⟩ hr.1, hr.2⟩

theorem block_same (ho : Token.Same f t t') (hs : t.value.all Text.isCaseless = true)
    (h : Forall₂ (Same f) input input') :
    Both (ReadAs f) (block closing t input) (block closing t' input') := by
  have hvalue : t.value = t'.value := ((hf.eq_signs ho.value hs).1 rfl).symm
  obtain ⟨htext, -⟩ := Glyph.restOfLine_same h
  have hnext := Glyph.nextLine_same closing h
  have hstart : Option.Rel (Forall₂ (Same f)) (blockStart? closing input)
      (blockStart? closing input') := by
    have hnil : (Glyph.restOfLine input).1 = [] ↔ (Glyph.restOfLine input').1 = [] :=
      hf.eq_signs htext rfl
    unfold blockStart?
    simp only [hnil]
    split
    · exact hnext
    · exact .some h
  unfold block
  generalize blockStart? closing input = start at hstart
  generalize blockStart? closing input' = start' at hstart
  cases hstart with
  | none => exact .error _ _
  | some hrel =>
    refine (blockLines_same hf hvalue hs hrel).map fun r r' hr => ⟨?_, hr.2⟩
    dsimp only
    rw [ho.kind]
    split
    · exact .cons ho hr.1
    · exact .nil

theorem quotedTail_same (h : Forall₂ (Same f) input input') :
    (quotedTail input).1.map f = (quotedTail input').1.map f ∧
      Forall₂ (Same f) (quotedTail input).2 (quotedTail input').2 := by
  induction h with
  | nil => exact ⟨rfl, .nil⟩
  | @cons g g' rest rest' hg hrest ih =>
    simp only [quotedTail, hg.is hf (c := Glyph.endMark) (by decide), hg.is hf (c := '"') (by decide)]
    split
    · exact ⟨rfl, .cons hg hrest⟩
    · split
      · exact ⟨rfl, hrest⟩
      · exact ⟨by simp [hg.char, ih.1], ih.2⟩

theorem endsData_same (h : Forall₂ (Same f) input input') : endsData input = endsData input' := by
  cases h with
  | nil => rfl
  | cons hg _ => rw [endsData, endsData, hg.beq hf (by decide), hg.beq hf (by decide)]

theorem endsLine_same (h : Forall₂ (Same f) input input') : endsLine input = endsLine input' := by
  cases h with
  | nil => rfl
  | cons hg _ => rw [endsLine, endsLine, hg.beq hf (by decide)]

theorem getLast_same {c : Char} (hc : Text.isCaseless c = true)
    (h : v.map f = v'.map f) :
    (v.getLast? == some c) = (v'.getLast? == some c) := by
  have hlast := congrArg List.getLast? h
  rw [List.getLast?_map, List.getLast?_map] at hlast
  cases hv : v.getLast? with
  | none =>
    cases hv' : v'.getLast? with
    | none => rfl
    | some x => simp [hv, hv'] at hlast
  | some x =>
    cases hv' : v'.getLast? with
    | none => simp [hv, hv'] at hlast
    | some x' =>
      rw [hv, hv', Option.map_some, Option.map_some, Option.some.injEq] at hlast
      rw [Bool.eq_iff_iff, beq_iff_eq, beq_iff_eq, Option.some.injEq, Option.some.injEq]
      exact ⟨hf.eq_sign hlast hc, hf.eq_sign hlast.symm hc⟩

theorem dataPart_same (hv : v.map f = v'.map f) (hg : Same f g g')
    (h : Forall₂ (Same f) rest rest') :
    (dataPart v g rest).1.map f = (dataPart v' g' rest').1.map f ∧
      Forall₂ (Same f) (dataPart v g rest).2 (dataPart v' g' rest').2 := by
  have hnil : v = [] ↔ v' = [] := hf.eq_signs hv rfl
  obtain ⟨htext, hleft⟩ := quotedTail_same hf h
  simp only [dataPart, hnil, hg.is hf (c := '"') (by decide)]
  split
  · exact ⟨by simp [htext], hleft⟩
  · exact ⟨by simp [hv, hg.char], h⟩

theorem continued_same (hv : v.map f = v'.map f)
    (h : Forall₂ (Same f) input input') :
    Option.Rel (Forall₂ (Same f)) (continued? closing v input) (continued? closing v' input') := by
  have hnext := Glyph.nextLine_same closing h
  rw [continued?, continued?, endsLine_same hf h, getLast_same hf (by decide) hv]
  split
  · exact hnext
  · exact .none

inductive ItemStep.As (f : Char → Char) : ItemStep → ItemStep → Prop
  | last {ts ts' : List Token} {left left' : List Glyph} (tokens : Forall₂ (Token.Same f) ts ts')
      (remains : Forall₂ (Same f) left left') : As f (.last ts left) (.last ts' left')
  | next {ts ts' : List Token} {s s' : Position} {joined joined' part part' : Text}
      {left left' : List Glyph} (tokens : Forall₂ (Token.Same f) ts ts') (file : s.file = s'.file)
      (earlier : joined.map f = joined'.map f) (now : part.map f = part'.map f)
      (remains : Forall₂ (Same f) left left') :
      As f (.next ts s joined part left) (.next ts' s' joined' part' left')

section Items

variable {s s' : Position} {joined joined' item item' part part' : Text}
  {left left' : List Glyph}

theorem itemPart_same (hs : s.file = s'.file) (hj : joined.map f = joined'.map f)
    (hi : item.map f = item'.map f) (hl : Forall₂ (Same f) left left') :
    ItemStep.As f (itemPart closing s joined item left) (itemPart closing s' joined' item' left') := by
  have hcomma : (item.getLast? == some ',') = (item'.getLast? == some ',') :=
    getLast_same hf (by decide) hi
  have hplace := Glyph.place_same hl
  have hfront : (joined ++ item.dropLast).map f = (joined' ++ item'.dropLast).map f := by
    rw [List.map_append, List.map_append, hj, List.map_dropLast, List.map_dropLast, hi]
  have hnext : Option.Rel (Forall₂ (Same f)) (continued? closing item left)
      (continued? closing item' left') := continued_same hf hi hl
  rw [itemPart, itemPart, ← hcomma, ← endsData_same hf hl]
  split
  · exact .next .nil hs hj hi hl
  generalize continued? closing item left = next at hnext
  generalize continued? closing item' left' = next' at hnext
  cases hnext with
  | some hmore => exact .next .nil hs hfront rfl hmore
  | none =>
    dsimp only
    split
    · have htokens : Forall₂ (Token.Same f)
          [⟨.dataField, joined ++ item.dropLast, s⟩,
            ⟨.symbol, ",", (Glyph.place left).withCol ((Glyph.place left).col - 1)⟩]
          [⟨.dataField, joined' ++ item'.dropLast, s'⟩,
            ⟨.symbol, ",", (Glyph.place left').withCol ((Glyph.place left').col - 1)⟩] :=
        .cons ⟨rfl, hs, hfront⟩ (.cons ⟨rfl, hplace, rfl⟩ .nil)
      split
      · exact .last htokens hl
      · exact .next htokens hplace rfl rfl hl
    · refine .last (.cons ⟨rfl, hs, ?_⟩ .nil) hl
      rw [List.map_append, List.map_append, hj, hi]

theorem itemStep_same (hs : s.file = s'.file) (hj : joined.map f = joined'.map f)
    (hp : part.map f = part'.map f) (h : Forall₂ (Same f) input input') :
    ItemStep.As f (itemStep closing s joined part input) (itemStep closing s' joined' part' input') := by
  cases h with
  | nil => exact .last .nil .nil
  | @cons g g' rest rest' hg hrest =>
    have hmark : g.char = Glyph.endMark ↔ g'.char = Glyph.endMark := hg.is hf (by decide)
    have hnil : joined = [] ↔ joined' = [] := hf.eq_signs hj rfl
    have hblank : (part ++ [g.char]).all Text.isBlank = (part' ++ [g'.char]).all Text.isBlank :=
      all_isBlank_same hf (by simp [hp, hg.char])
    obtain ⟨hitem, hleft⟩ := dataPart_same hf hp hg hrest
    simp only [itemStep, hmark, hnil, hblank]
    split
    · refine .last ?_ (.cons hg hrest)
      split
      · exact .nil
      · exact .cons ⟨rfl, hs, hj⟩ .nil
    split
    · exact .next .nil (Glyph.place_same hrest) hj rfl hrest
    · exact itemPart_same hf hs hj hitem hleft

theorem dataItems_same (hs : s.file = s'.file) (hj : joined.map f = joined'.map f)
    (hp : part.map f = part'.map f) (h : Forall₂ (Same f) input input') :
    ReadAs f (dataItems closing s joined part input) (dataItems closing s' joined' part' input') := by
  obtain ⟨n, hn⟩ : ∃ n, input.length = n := ⟨_, rfl⟩
  induction n using Nat.strong_induction_on
    generalizing s s' joined joined' part part' input input' with
  | _ n ih =>
    have hsame : ItemStep.As f (itemStep closing s joined part input)
        (itemStep closing s' joined' part' input') := itemStep_same hf hs hj hp h
    rw [dataItems_step, dataItems_step]
    generalize hstep : itemStep closing s joined part input = step at hsame
    generalize itemStep closing s' joined' part' input' = step' at hsame
    cases hsame with
    | last htokens hover => exact ⟨htokens, hover⟩
    | next htokens hfile hearlier hnow hover =>
      have hshort := itemStep_shorter hstep
      obtain ⟨hmore, hleft⟩ := ih _ (by omega) hfile hearlier hnow hover rfl
      exact ⟨List.rel_append htokens hmore, hleft⟩

end Items

theorem dataFields_same (h : Forall₂ (Same f) input input') :
    ReadAs f (dataFields closing input) (dataFields closing input') := by
  have hbody := Glyph.dropWhile_same (p := fun g => g.char == ' ')
    (fun g g' hg => hg.beq hf (by decide)) h
  simp only [dataFields]
  generalize input.dropWhile (fun g => g.char == ' ') = body at hbody
  generalize input'.dropWhile (fun g => g.char == ' ') = body' at hbody
  rw [endsData_same hf hbody]
  split
  · exact ⟨.nil, hbody⟩
  · exact dataItems_same hf (Glyph.place_same hbody) rfl rfl hbody

theorem splitToggle_same (h : v.map f = v'.map f) :
    Option.Rel (fun r r' : Text × Text => r.1 = r'.1 ∧ r.2.map f = r'.2.map f)
      (Dialect.splitToggle v) (Dialect.splitToggle v') := by
  have hcons (c e : Char) (rest : Text) : Dialect.splitToggle (c :: e :: rest) =
      if c = '#' ∧ (e :: rest).contains '\n' = false then some (['#'], e :: rest) else none := by
    unfold Dialect.splitToggle
    split
    · rename_i heq
      cases heq
      cases (e :: rest).contains '\n' <;> simp
    · rename_i hne
      rw [if_neg fun h => hne e rest (by rw [h.1])]
  have hone (c : Char) : Dialect.splitToggle [c] = none := by
    unfold Dialect.splitToggle
    split <;> simp_all
  match v, v', h with
  | [], v', h =>
    obtain rfl := List.map_eq_nil_iff.1 h.symm
    exact .none
  | [c], v', h =>
    obtain ⟨c', w, rfl, -, hw⟩ := List.map_eq_cons_iff.1 h.symm
    obtain rfl := List.map_eq_nil_iff.1 hw
    rw [hone, hone]
    exact .none
  | c :: e :: rest, v', h =>
    obtain ⟨c', w, rfl, hc, hw⟩ := List.map_eq_cons_iff.1 h.symm
    obtain ⟨e', rest', rfl, he, hrest⟩ := List.map_eq_cons_iff.1 hw
    have hsign : c = '#' ↔ c' = '#' :=
      ⟨hf.eq_sign hc.symm (by decide), hf.eq_sign hc (by decide)⟩
    have hname : (e :: rest).map f = (e' :: rest').map f := hw.symm
    have hfeed : (e :: rest).contains '\n' = (e' :: rest').contains '\n' := by
      have hall (l : Text) : l.contains '\n' = !l.all (· != '\n') := by
        induction l with
        | nil => rfl
        | cons x l ih => rw [List.contains_cons, ih, List.all_cons, Bool.not_and, bne, Bool.not_not, BEq.comm]
      rw [hall, hall, hf.all (by decide) hname]
    rw [hcons, hcons]
    simp only [hsign, hfeed]
    split
    · exact .some ⟨rfl, hname⟩
    · exact .none

theorem complete_same {last : Kind} (ht : Token.Same f t t') (hc : d.classify t.value = some t.kind)
    (h : Forall₂ (Same f) input input') :
    Both (ReadAs f) (complete d closing last t input) (complete d closing last t' input') := by
  obtain ⟨htext, hleft⟩ := Glyph.restOfLine_same h
  have hplace := Glyph.place_same h
  unfold complete
  rw [← ht.kind]
  split
  · have hsplit := splitToggle_same hf ht.value
    generalize Dialect.splitToggle t.value = parts at hsplit
    generalize Dialect.splitToggle t'.value = parts' at hsplit
    cases hsplit with
    | none => cases opensTag last <;> exact .ok ⟨.cons ht .nil, h⟩
    | @some r r' hr =>
      obtain ⟨sign, name⟩ := r
      obtain ⟨sign', name'⟩ := r'
      obtain ⟨rfl, hname⟩ := hr
      cases opensTag last with
      | true => exact .ok ⟨.cons ht .nil, h⟩
      | false =>
        dsimp only
        rw [d.classify_like hf hname]
        exact .ok ⟨.cons ⟨rfl, ht.file, rfl⟩ (.cons ⟨rfl, ht.file, hname⟩ .nil), h⟩
  · rename_i hk
    split
    · have hv : t.value = "''" := Dialect.classify_opening.2.2 (hk ▸ hc)
      exact block_same hf ht (by rw [hv]; decide) h
    · exact .ok ⟨.cons ⟨rfl, ht.file, rfl⟩
        (.cons ⟨rfl, ht.file, by simp [htext]⟩ .nil), hleft⟩
  · rename_i hk
    split
    · have hv : t.value = blockSign := Dialect.classify_opening.2.1 (hk ▸ hc)
      exact block_same hf ht (by rw [hv]; decide) h
    · exact .ok ⟨.nil, hleft⟩
  · exact .ok ⟨.nil, hleft⟩
  · have hnil : (Glyph.restOfLine input).1 = [] ↔ (Glyph.restOfLine input').1 = [] :=
      hf.eq_signs htext rfl
    simp only [hnil]
    refine .ok ⟨?_, hleft⟩
    split
    · exact .cons ht .nil
    · exact .cons ht (.cons ⟨rfl, hplace, htext⟩ .nil)
  · obtain ⟨hquoted, hmore⟩ := quotedTail_same hf h
    exact .ok ⟨.cons ⟨rfl, ht.file, by simp [ht.value, hquoted]⟩ .nil, hmore⟩
  · obtain ⟨hfields, hmore⟩ : ReadAs f (dataFields closing input) (dataFields closing input') :=
      dataFields_same hf h
    exact .ok ⟨.cons ht hfields, hmore⟩
  · exact .ok ⟨.cons ht .nil, h⟩

omit hf in
/-- A token is scanned and completed, and lexing goes on behind it. -/
theorem lexFrom_cons {last : Kind} (hr : closing ≤ rest.length) :
    lexFrom d closing last (g :: rest) = (scan d g rest >>= fun r =>
      if r.1.kind = .spaces then lexFrom d closing last r.2
      else if r.1.kind = .baseMark ∨ r.1.kind = .lonePoint then
        .error (r.1.failure (.incomplete r.1.value))
      else complete d closing last r.1 r.2 >>= fun read =>
        (lexFrom d closing ((read.1.getLast?.map Token.kind).getD last) read.2).map (read.1 ++ ·)) := by
  rw [lexFrom, if_neg (Nat.not_lt.2 hr)]
  split
  · rename_i e hs
    rw [hs]
    rfl
  · rename_i t left hs
    rw [hs]
    change _ = if t.kind = .spaces then _ else _
    split
    · rfl
    · dsimp only
      split
      · rfl
      · split
        · rename_i e hc
          rw [hc]
          rfl
        · rename_i tokens left' hc
          rw [hc]
          rfl

theorem lexFrom_same {last : Kind} (h : Forall₂ (Same f) input input') :
    Both (Forall₂ (Token.Same f)) (lexFrom d closing last input) (lexFrom d closing last input') := by
  obtain ⟨n, hn⟩ : ∃ n, input.length = n := ⟨_, rfl⟩
  induction n using Nat.strong_induction_on generalizing last input input' with
  | _ n ih =>
    cases h with
    | nil =>
      rw [lexFrom]
      exact .ok (.cons ⟨rfl, rfl, rfl⟩ .nil)
    | @cons g g' rest rest' hg hrest =>
      simp only [List.length_cons] at hn
      by_cases hr : rest.length < closing
      · unfold lexFrom
        rw [if_pos hr, if_pos (hrest.length_eq ▸ hr)]
        exact .ok (.cons ⟨rfl, hg.file, rfl⟩ .nil)
      · rw [lexFrom_cons (Nat.not_lt.1 hr), lexFrom_cons (hrest.length_eq ▸ Nat.not_lt.1 hr)]
        apply (scan_same hf hg hrest).bind
        rintro ⟨t, left⟩ ⟨t', left'⟩ hscan ⟨ht, hleft⟩
        have hlen := length_scan hscan
        dsimp only at ht hleft ⊢
        rw [← ht.kind]
        split
        · exact ih left.length (by omega) hleft rfl
        · split
          · exact .error _ _
          · apply (complete_same hf ht (scan_classified hscan) hleft).bind
            rintro ⟨tokens, more⟩ ⟨tokens', more'⟩ hcomplete ⟨htokens, hmore⟩
            have hless := length_complete hcomplete
            have hlast : tokens.getLast?.map Token.kind = tokens'.getLast?.map Token.kind := by
              have hkinds : tokens.map Token.kind = tokens'.map Token.kind := by
                rw [← List.forall₂_eq_eq_eq, List.forall₂_map_left_iff, List.forall₂_map_right_iff]
                exact htokens.imp fun _ _ h => h.kind
              rw [← List.getLast?_map, hkinds, List.getLast?_map]
            dsimp only at htokens hmore hless ⊢
            rw [hlast]
            exact (ih more.length (by omega) hmore rfl).map fun l l' hl => List.rel_append htokens hl

theorem lex_same {listing listing' : Listing} (h : Forall₂ (Line.Same f) listing listing') :
    Both (Forall₂ (Token.Same f)) (lex d listing) (lex d listing') := by
  cases h with
  | nil => exact .error _ _
  | @cons first first' lines lines' hfirst hlines =>
    have hstart := Glyph.place_same (Glyph.ofLine_same hf hfirst)
    have hinput : Forall₂ (Same f) (lines.flatMap Glyph.ofLine) (lines'.flatMap Glyph.ofLine) :=
      List.rel_flatMap hlines fun _ _ hl => Glyph.ofLine_same hf hl
    cases hlines with
    | nil => exact .error _ _
    | @cons second second' more more' hsecond hmore =>
      have hclosing : (Glyph.ofLine ((second :: more).getLast (by simp))).length =
          (Glyph.ofLine ((second' :: more').getLast (by simp))).length := by
        have hlast : ((second :: more).getLast (by simp)).Same f
            ((second' :: more').getLast (by simp)) := by
          clear hinput
          induction hmore generalizing second second' with
          | nil => exact hsecond
          | cons hl _ ih =>
            rw [List.getLast_cons_cons, List.getLast_cons_cons]
            exact ih hl
        exact (Glyph.ofLine_same hf hlast).length_eq
      simp only [lex, hclosing]
      exact (lexFrom_same hf hinput).map fun l l' hl =>
        .cons ⟨rfl, hstart, rfl⟩ (.cons ⟨rfl, hstart, rfl⟩ hl)

end Lexer

end ClassicBasic
