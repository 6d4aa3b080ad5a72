import ClassicBasic.Proofs.NumberedAlike
import ClassicBasic.Proofs.Spaced

/-!
# Writing two programs side by side

The last touches and the writing of the classic lines of two programs that are alike. Two listings
that are alike as they are lexed are compiled to lines that are alike, or neither compiles.
-/

set_option autoImplicit false

namespace ClassicBasic

open Conversion (Both)
open List (Forall₂)
open Token (Like Looks Numbered Returns)

variable {d : Dialect} {f : Char → Char} {t t' u u' : Token} {l l' out out' : List Token}
  {o : Options} {σ σ' : Session}

theorem Text.Fine.eq_or_ascii {c c' : Char} (hf : Text.Fine f) (h : f c = f c') :
    c = c' ∨ (c.toNat < 0x80 ∧ c'.toNat < 0x80) := by
  have hascii : decide (c.toNat < 0x80) = decide (c'.toNat < 0x80) :=
    hf.apply (g := fun c => decide (c.toNat < 0x80)) (by decide) h
  by_cases hc : c.toNat < 0x80
  · exact .inr ⟨hc, of_decide_eq_true (hascii ▸ decide_eq_true hc)⟩
  · have hself {c : Char} (hc : ¬c.toNat < 0x80) : c.toLower = c :=
      dif_neg (by
        simp only [UInt32.le_iff_toNat_le]
        intro h
        have h90 : c.toNat ≤ 90 := h.2
        omega)
    have hc' : ¬c'.toNat < 0x80 := of_decide_eq_false (hascii ▸ decide_eq_false hc)
    left
    rw [← hself hc, hf c c' h, hself hc']

theorem Text.foreign_of_bytes {text : String} {c : Char}
    (h : (text.toByteArray.data.toList.all fun b => 0x80 ≤ b) = true) (hc : c.toNat < 0x80) :
    c ∉ text.toList := by
  intro hmem
  have hbyte : UInt8.ofNat c.toNat ∈ String.utf8EncodeChar c := by
    have hle : c.val.toNat ≤ 127 := Nat.le_of_lt_succ hc
    simp only [String.utf8EncodeChar, if_pos hle]
    exact List.mem_singleton.2 rfl
  have hlow : (0x80 : UInt8) ≤ UInt8.ofNat c.toNat := by
    simpa using List.all_eq_true.1 h _ (bytes_of_mem hmem _ hbyte)
  rw [UInt8.le_iff_toNat_le, UInt8.toNat_ofNat', Nat.mod_eq_of_lt (by omega)] at hlow
  exact absurd hlow (Nat.not_le_of_lt hc)

theorem Dialect.translateChar_ascii (d : Dialect) {c : Char} (hc : c.toNat < 0x80) :
    d.translateChar c = c := by
  have hletters : (d.keyboardLetters.all fun e => !decide (e.1.toNat < 0x80)) = true := by
    cases d <;> decide
  have hnone : c ∉ d.upperHalf := by
    cases d with
    | msx =>
      refine fun hmem => (List.mem_append.1 hmem).elim ?_ ?_
      · exact Text.foreign_of_bytes (by decide +kernel) hc
      · exact Text.foreign_of_bytes (by decide +kernel) hc
    | coco => exact Text.foreign_of_bytes (by decide) hc
  have htyped : d.keyboardLetters.lookup c = none := by
    rw [List.lookup_eq_none_iff]
    intro e he
    have hforeign := List.all_eq_true.1 hletters e he
    rw [bne_iff_ne]
    rintro rfl
    simp [hc] at hforeign
  unfold translateChar
  simp only [htyped, Option.getD_none, List.idxOf?_eq_none_iff.2 hnone]

theorem Dialect.translate_like (d : Dialect) {v v' : Text} (hf : Text.Fine f)
    (h : v.map f = v'.map f) : (d.translate v).map f = (d.translate v').map f := by
  have halike : ∀ c c', f c = f c' → f (d.translateChar c) = f (d.translateChar c') := by
    intro c c' hc
    rcases hf.eq_or_ascii hc with rfl | ⟨hascii, hascii'⟩
    · rfl
    · rw [d.translateChar_ascii hascii, d.translateChar_ascii hascii', hc]
  rw [translate, translate, List.map_map, List.map_map]
  exact Text.map_of_map halike h

namespace Token

theorem Numbered.withValue {v v' : Text} (h : Numbered f t t') (hn : t.kind ≠ .newline)
    (hc : ¬(t.kind = .lineNumber ∨ t.kind = .compound)) (hv : v.map f = v'.map f) :
    Numbered f (t.withValue v) (t'.withValue v') :=
  ⟨⟨h.kind, fun hk => absurd hk hn, fun _ => hv⟩, fun hk => absurd hk hc⟩

theorem Returns.upper {v : Text} (h : Returns v) : Returns (Text.upper v) := by
  have hreturn : Text.upperChar '\r' = '\r' := by decide
  refine ⟨by simpa [Text.upper] using h.1, fun c hc => ?_⟩
  obtain ⟨x, hx, rfl⟩ := List.mem_map.1 hc
  rw [h.2 x hx, hreturn]

end Token

namespace Touch

variable (hf : Text.Fine f)

include hf

theorem isPrint_alike (ht : Numbered f t t') : isPrint t = isPrint t' := by
  have hquestion := ht.value_eq hf (w := Options.questionMark) (by decide)
  rw [isPrint, isPrint, ht.kind, ht.is hf (by decide), Bool.eq_iff_iff]
  simp [hquestion]

omit hf in
theorem printed_alike (ht : Numbered f t t') (hk : t.kind = .instruction) :
    Numbered f (printed o t) (printed o t') :=
  ht.withValue (by simp [hk]) (by simp [hk]) rfl

theorem capitalised_alike (ht : Numbered f t t') :
    Numbered f (capitalised d o t) (capitalised d o t') := by
  simp only [capitalised, ← ht.kind]
  split
  · refine ⟨⟨ht.kind, fun hk => ?_, fun hk => ?_⟩, fun hk => ?_⟩
    · exact ⟨(ht.returns hk).1.upper, (ht.returns hk).2.upper⟩
    · simp only [Token.withValue, Token.upper, hf.upper (ht.value hk)]
    · simp only [Token.withValue, Token.upper, ht.exact hk]
  · exact ht

theorem snippet_numbered {pos pos' : Position} {code : Text} :
    Forall₂ (Numbered f) (Lexer.snippet d pos code) (Lexer.snippet d pos' code) := by
  rw [Lexer.snippet_movedTo pos, Lexer.snippet_movedTo pos', List.forall₂_map_left_iff,
    List.forall₂_map_right_iff, List.forall₂_same]
  intro t ht
  have hlike : Like d f (t.movedTo pos) (t.movedTo pos) := by
    have hl := (Lexer.snippet_lexed {} code t ht).toLawful
    exact Token.like_refl ⟨hl.unnumbered, hl.classified, hl.unkept⟩
  obtain ⟨⟨hk, hr, hv⟩, hx⟩ := hlike.numbered hf
  exact ⟨⟨hk, hr, hv⟩, hx⟩

theorem follows_alike (ho : Forall₂ (Numbered f) out out') {words : List Text}
    (hw : ∀ w ∈ words, '\r' ∉ Text.fold w) : follows out words = follows out' words := by
  cases ho with
  | nil => rfl
  | @cons t t' out out' ht _ =>
    simp only [follows]
    rw [Bool.eq_iff_iff, List.any_eq_true, List.any_eq_true]
    exact exists_congr fun w => and_congr_right fun hmem => by rw [ht.is hf (hw w hmem)]

theorem touch_both (ho : Forall₂ (Numbered f) out out') (ht : Numbered f t t')
    (hu : Numbered f u u') :
    Outcome.Both (Forall₂ (Numbered f)) (touch d o out t u) (touch d o out' t' u') := by
  have hfollows : follows out ["THEN", "ELSE"] = follows out' ["THEN", "ELSE"] :=
    follows_alike hf ho (by decide)
  have one {w w' : Token} (h : Numbered f w w') : Forall₂ (Numbered f) [w] [w'] := .cons h .nil
  simp only [touch, ← isPrint_alike hf ht, ← ht.kind, ← ht.is hf (w := "THEN") (by decide),
    ← hu.is hf (w := "GOTO") (by decide), ← ht.is hf (w := "GOTO") (by decide), ← hfollows,
    ← ht.is hf (w := "FALSE") (by decide), ← ht.is hf (w := "TRUE") (by decide)]
  split
  · rename_i hp
    have hk : t.kind = .instruction := by
      have := hp.1
      simp only [isPrint, Bool.and_eq_true, beq_iff_eq] at this
      exact this.1
    exact .ok (one (capitalised_alike hf (printed_alike ht hk)))
  · split
    · exact .ok .nil
    · split
      · exact .ok .nil
      · split
        · rename_i hk
          have hvalue := ht.exact (.inr hk)
          cases ho with
          | nil => exact .error _ _
          | @cons w w' out out' hw _ =>
            simp only [← hw.kind]
            split
            · refine .ok ?_
              have hone : isByOne t = isByOne t' := by rw [isByOne, isByOne, hvalue]
              simp only [writtenOut, operator, ← hvalue, ← hone]
              refine List.rel_append (List.rel_append (snippet_numbered hf)
                (.cons hw (snippet_numbered hf))) ?_
              split
              · exact snippet_numbered hf
              · exact .nil
            · exact .error _ _
        · split
          · exact .ok (snippet_numbered hf)
          · split
            · exact .ok (snippet_numbered hf)
            · split
              · rename_i hl
                have hn : t.kind ≠ .newline := by
                  intro hk
                  simp [hk, Kind.isLiteral] at hl
                have hc : ¬(t.kind = .lineNumber ∨ t.kind = .compound) := by
                  rintro (hk | hk) <;> simp [hk, Kind.isLiteral] at hl
                exact .ok (one (ht.withValue hn hc (d.translate_like hf (ht.value hn))))
              · exact .ok (one (capitalised_alike hf ht))

theorem run_both (ho : Forall₂ (Numbered f) out out') (h : Forall₂ (Numbered f) l l') :
    Outcome.Both (Forall₂ (Numbered f)) (run d o out l) (run d o out' l') := by
  induction h generalizing out out' with
  | nil => exact .error _ _
  | @cons t t' l l' ht hl ih =>
    have hnext : Numbered f (l.headD t) (l'.headD t') := by
      cases hl with
      | nil => exact ht
      | cons h _ => exact h
    simp only [run, ← ht.kind]
    split
    · exact .ok (List.rel_reverse (.cons ht ho))
    · rcases (touch_both hf ho ht hnext (o := o) (d := d)).elim with
        ⟨e, e', hx, hx'⟩ | ⟨r, r', hx, hx', hr⟩
      · rw [hx, hx']
        exact .error _ _
      · rw [hx, hx']
        exact ih (List.rel_append (List.rel_reverse hr) ho)

theorem finish_both (h : Forall₂ (Numbered f) l l') :
    Outcome.Both (Forall₂ (Numbered f)) (finish d o l) (finish d o l') := by
  cases h with
  | nil => exact .error _ _
  | cons ht hl => exact run_both hf (.cons ht .nil) hl

end Touch

namespace Dialect

variable {v : Text}

theorem isReserved_returns (d : Dialect) (h : Returns v) : d.isReserved v = false := by
  rw [isReserved, Bool.eq_false_iff]
  intro hmem
  have hword := (reserved_form d _ (List.contains_iff_mem.1 hmem)).2.2.1
  obtain ⟨c, rest, hcons⟩ := List.exists_cons_of_ne_nil h.upper.1
  have hc := h.upper.2 c (by simp [hcons])
  rw [hcons, hc, List.all_cons, Bool.and_eq_true] at hword
  exact absurd hword.1 (by decide)

theorem isTight_returns (d : Dialect) (h : Returns v) : d.isTight v = false := by
  have hsymbols : (d.symbols.all fun w => !w.contains '\r') = true := by cases d <;> decide
  have hcontains : d.symbols.contains v = false := by
    rw [Bool.eq_false_iff]
    intro hmem
    have hfree := List.all_eq_true.1 hsymbols _ (List.contains_iff_mem.1 hmem)
    exact h.ne (by simpa using hfree) rfl
  rw [isTight, beq_eq_false_iff_ne.2 (h.ne (by decide)), beq_eq_false_iff_ne.2 (h.ne (by decide)),
    hcontains]
  rfl

end Dialect

namespace Render

variable {last last' : Option Token} {written written' space : Text} {notes : List (Int × Text)}

theorem eq_nil_of_map {v v' : Text} (h : v.map f = v'.map f) : v = [] ↔ v' = [] := by
  rw [← List.map_eq_nil_iff (f := f), h, List.map_eq_nil_iff]

theorem isEmpty_of_map {v v' : Text} (h : v.map f = v'.map f) : v.isEmpty = v'.isEmpty := by
  rw [Bool.eq_iff_iff, List.isEmpty_iff, List.isEmpty_iff, eq_nil_of_map h]

variable (hf : Text.Fine f)

include hf

theorem isKeyword_alike (ht : Numbered f t t') : isKeyword d t = isKeyword d t' := by
  have hreserved : d.isReserved t.value = d.isReserved t'.value :=
    ht.apply (fun v v' hv => d.isReserved_like hf hv)
      fun v v' hv hv' => by rw [d.isReserved_returns hv, d.isReserved_returns hv']
  rw [isKeyword, isKeyword, ht.kind, hreserved]

theorem isTight_alike (ht : Numbered f t t') : d.isTight t.value = d.isTight t'.value :=
  ht.apply (fun v v' hv => d.isTight_like hf hv)
    fun v v' hv hv' => by rw [d.isTight_returns hv, d.isTight_returns hv']

theorem needsSpace_alike (hl : Option.Rel (Numbered f) last last') (ht : Numbered f t t')
    (hn : t.kind ≠ .newline) (hw : written.map f = written'.map f) :
    needsSpace last t written = needsSpace last' t' written' := by
  have hkind : last.map Token.kind = last'.map Token.kind := by
    cases hl with
    | none => rfl
    | some h => simp [h.kind]
  have hupper : t.upper = t'.upper := hf.upper (ht.value hn)
  rw [needsSpace, needsSpace, ht.kind, isEmpty_of_map (ht.value hn), isEmpty_of_map hw,
    ht.is hf (by decide), hf.upper hw, hkind, hupper]

theorem spaceBefore_alike (hl : Option.Rel (Numbered f) last last') (ht : Numbered f t t')
    (hw : written.map f = written'.map f) :
    spaceBefore d space last t written = spaceBefore d space last' t' written' := by
  cases hl with
  | none => rfl
  | @some u u' hu =>
    have hblank : (written.getLast? != some ' ') = (written'.getLast? != some ' ') := by
      have hlast := congrArg List.getLast? hw
      rw [List.getLast?_map, List.getLast?_map] at hlast
      refine congrArg not ?_
      rw [Bool.eq_iff_iff, beq_iff_eq, beq_iff_eq]
      cases hx : written.getLast? with
      | none =>
        rw [hx] at hlast
        simp [Option.map_eq_none_iff.1 hlast.symm]
      | some c =>
        rw [hx] at hlast
        obtain ⟨c', hc', hcc⟩ := Option.map_eq_some_iff.1 hlast.symm
        rw [hc']
        simp only [Option.some.injEq]
        exact ⟨hf.eq_sign hcc.symm (by decide), hf.eq_sign hcc (by decide)⟩
    simp only [spaceBefore, isKeyword_alike hf ht, isEmpty_of_map hw, hblank, isTight_alike hf hu]

theorem spaceBehind_alike (ht : Numbered f t t') (hu : Option.Rel (Numbered f) last last') :
    spaceBehind d space t last = spaceBehind d space t' last' := by
  cases hu with
  | none => rw [spaceBehind, spaceBehind, ht.kind]
  | some hu => simp only [spaceBehind, ht.kind, isKeyword_alike hf ht, isTight_alike hf hu]

theorem lineText_alike (hl : Option.Rel (Numbered f) last last')
    (hw : written.map f = written'.map f) (h : Forall₂ (Numbered f) l l') :
    (lineText d space last written l).map f = (lineText d space last' written' l').map f := by
  induction h generalizing last last' written written' with
  | nil => exact hw
  | @cons t t' l l' ht hrest ih =>
    by_cases hn : t.kind = .newline
    · rw [lineText, lineText, if_pos hn, if_pos (ht.kind ▸ hn)]
      exact ih (.some ht) hw
    · have hnext : Option.Rel (Numbered f) l.head? l'.head? := by
        cases hrest with
        | nil => exact .none
        | cons h _ => exact .some h
      have hn' : t'.kind ≠ .newline := ht.kind ▸ hn
      simp only [lineText, if_neg hn, if_neg hn']
      have hapart : (if needsSpace last t written then written ++ " " else written).map f =
          (if needsSpace last' t' written' then written' ++ " " else written').map f := by
        rw [needsSpace_alike hf hl ht hn hw]
        split
        · rw [List.map_append, List.map_append, hw]
        · exact hw
      refine ih (.some ht) ?_
      simp only [List.map_append, spaceBefore_alike hf hl ht hapart, spaceBehind_alike hf ht hnext,
        ht.value hn, hapart]

omit hf in
theorem reportKey_alike (h : Forall₂ (Numbered f) l l') : reportKey l = reportKey l' := by
  cases h with
  | nil => rfl
  | @cons t t' l l' ht _ =>
    simp only [reportKey, ← ht.kind]
    split
    · rename_i hk
      rw [ht.exact (.inl hk)]
    · rfl

theorem trimEnd_alike {v v' : Text} (h : v.map f = v'.map f) :
    (Text.trimEnd isSpace v).map f = (Text.trimEnd isSpace v').map f :=
  Text.trimEnd_of_map (fun _ _ hc => hf.apply (by decide) hc) h

theorem line_alike (h : Forall₂ (Numbered f) l l') :
    (line d o notes l).map f = (line d o notes l').map f := by
  have htext : (lineText d (if o.stripSpaces then [] else " ") none [] l).map f =
      (lineText d (if o.stripSpaces then [] else " ") none [] l').map f :=
    lineText_alike hf .none rfl h
  simp only [line, reportKey_alike h]
  refine trimEnd_alike hf ?_
  split
  · simp only [List.map_append, trimEnd_alike hf htext]
  · exact htext

/-- A character that no machine has is in both texts or in neither. -/
theorem foreign_alike (ht : Numbered f t t') :
    (t.value.find? isForeign).isSome = (t'.value.find? isForeign).isSome := by
  have hany {v : Text} : (v.find? isForeign).isSome = v.any isForeign := by
    rw [Bool.eq_iff_iff, List.find?_isSome, List.any_eq_true]
  have hreturns {v : Text} (h : Returns v) : v.any isForeign = false := by
    rw [List.any_eq_false]
    intro c hc
    rw [h.2 c hc]
    decide
  rw [hany, hany]
  refine ht.apply (g := fun v => v.any isForeign) (fun v v' hv => ?_)
    fun v v' hv hv' => (hreturns hv).trans (hreturns hv').symm
  have hmap := hf.map (g := isForeign) (by decide) hv
  have hid (v : Text) : v.any isForeign = (v.map isForeign).any (fun b => b) := by
    rw [List.any_map]
    rfl
  rw [hid, hid, hmap]

/-- The lines of two programs that look the same are alike, or neither can be written. -/
theorem linesFrom_both {read read' : List Token} (hr : Forall₂ (Numbered f) read read')
    (h : Forall₂ (Numbered f) l l') :
    Outcome.Both (Forall₂ fun v v' : Text => v.map f = v'.map f) (linesFrom d o notes read l)
      (linesFrom d o notes read' l') := by
  induction h generalizing read read' with
  | nil => exact .ok .nil
  | @cons t t' l l' ht hl ih =>
    have hforeign : (if o.translate then t.value.find? isForeign else none).isSome =
        (if o.translate then t'.value.find? isForeign else none).isSome := by
      split
      · exact foreign_alike hf ht
      · rfl
    have hempty : t.value = [] ↔ t'.value = [] :=
      ht.value_eq hf (w := []) (by decide)
    have hread : Forall₂ (Numbered f) (if t.value = [] then read else t :: read)
        (if t'.value = [] then read' else t' :: read') := by
      simp only [hempty]
      split
      · exact hr
      · exact .cons ht hr
    have hline := @line_alike d f _ _ o notes hf (List.rel_reverse hread)
    simp only [linesFrom, ← ht.kind]
    split
    · exact .ok .nil
    · generalize (if o.translate then t.value.find? isForeign else none) = x at hforeign ⊢
      generalize (if o.translate then t'.value.find? isForeign else none) = x' at hforeign ⊢
      cases x with
      | some c =>
        cases x' with
        | some c' => exact .error _ _
        | none => cases hforeign
      | none =>
        cases x' with
        | some c' => cases hforeign
        | none =>
          dsimp only
          split
          · exact ih hread
          · generalize line d o notes (if t.value = [] then read else t :: read).reverse = v at hline ⊢
            generalize line d o notes (if t'.value = [] then read' else t' :: read').reverse = v'
              at hline ⊢
            rw [Text.length_of_map hline]
            split
            · exact .error _ _
            · exact (ih .nil).map fun _ _ hmore => .cons hline hmore

theorem lines_both (h : Forall₂ (Numbered f) l l') :
    Outcome.Both (Forall₂ fun v v' : Text => v.map f = v'.map f) (lines d o notes l)
      (lines d o notes l') :=
  linesFrom_both hf .nil (List.forall₂_drop 2 h)

end Render

namespace Compile

variable {s : Setting} {shelf : Shelf} {listing listing' : Listing}
  {R : List Token → List Token → Prop}

/-- The lines of a compiled program are alike if the texts of its files are alike as they are lexed
and put together. -/
theorem ofListing_both (hf : Text.Fine f)
    (hlex : Outcome.Both R (Lexer.lex s.dialect listing) (Lexer.lex s.dialect listing'))
    (hconvert : ∀ l l' τ τ', Lexer.lex s.dialect listing = .ok l → R l l' → σ.Alike τ → τ.Alike τ' →
      Both (Forall₂ (Like s.dialect f)) (Branch.convert s s.shelf.size (Branch.main s) l τ)
        (Branch.convert { s with shelf } shelf.size (Branch.main s) l' τ'))
    (hs : σ.Alike σ') :
    Both (fun c c' => Forall₂ (fun v v' : Text => v.map f = v'.map f) c.code c'.code)
      (ofListing s o listing σ) (ofListing { s with shelf } o listing' σ') := by
  unfold ofListing
  apply (Conversion.note_both hs).bind_of_ok
  intro _ _ σ₁ σ₁' h₁ _ hτ
  apply (Both.ofExcept hlex hτ).bind_of_ok
  intro l l' σ₂ σ₂' hread hl hτ
  obtain ⟨hx, rfl⟩ := Conversion.ofExcept_eq_ok_iff.1 hread
  apply (Conversion.note_both hτ).bind_of_ok
  intro _ _ σ₃ σ₃' h₃ _ hτ
  apply (Conversion.note_both hτ).bind_of_ok
  intro _ _ σ₄ σ₄' h₄ _ hτ
  have hnotes : σ.Alike σ₄ := (Conversion.note_alike h₁).trans
    ((Conversion.note_alike h₃).trans (Conversion.note_alike h₄))
  apply (hconvert l l' σ₄ σ₄' hx hl hnotes hτ).bind_of_ok
  intro merged merged' υ υ' hm hmerged hυ
  have hstart : ∀ t ∈ merged.head?, t.kind ≠ .newline := by
    obtain ⟨start, second, rest, rfl, hk, -⟩ := (Branch.convert_settled hx hm).seated.exists_cons
    simp [hk]
  apply (Conversion.checkpoint_both hυ).bind
  intro _ _ τ τ' _ hτ
  apply (Conversion.note_both hτ).bind
  intro _ _ τ τ' _ hτ
  have hwhole : Forall₂ (Like s.dialect f)
      (if o.header then Numbering.withHeader merged else merged)
      (if o.header then Numbering.withHeader merged' else merged') := by
    split
    · exact Numbering.withHeader_alike hmerged hstart
    · exact hmerged
  apply (Numbering.number_both hf hwhole hτ).bind
  rintro numbered numbered' τ τ' ⟨htokens, hnotes⟩ hτ
  apply (Conversion.note_both hτ).bind
  intro _ _ τ τ' _ hτ
  apply (Both.ofExcept (Touch.finish_both hf htokens) hτ).bind
  intro parsed parsed' τ τ' hparsed hτ
  apply (Conversion.note_both hτ).bind
  intro _ _ τ τ' _ hτ
  apply (Conversion.note_both hτ).bind
  intro _ _ τ τ' _ hτ
  have hlines := @Render.lines_both s.dialect f parsed parsed' o numbered'.notes hf hparsed
  rw [hnotes]
  apply (Both.ofExcept hlines hτ).bind
  intro code code' τ τ' hcode hτ
  apply (Conversion.note_both hτ).bind
  intro _ _ τ τ' _ hτ
  apply (Conversion.note_both hτ).bind
  intro _ _ τ τ' _ hτ
  exact .ok hcode hτ

end Compile

end ClassicBasic
