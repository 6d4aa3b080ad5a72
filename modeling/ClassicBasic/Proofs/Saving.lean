import ClassicBasic.Files
import ClassicBasic.Outcome
import Mathlib.Data.List.Flatten

/-!
# Saved lines are loaded again

Both encodings give back every character they have, line ends of any convention come down to one, and a
file that was written is found under its path. So a listing that is saved and loaded has the lines it
had before, as long as none of them holds a line end or a tab that is filled up; one empty line alone is
taken for no line.
-/

set_option autoImplicit false

namespace ClassicBasic

/-! ### Encoding and decoding -/

namespace Encoding

variable {e : Encoding} {r : Repair} {bytes rest : Octets} {t : Text}

theorem toNat_ofNat_octet {n : Nat} (h : n < 256) : (UInt8.ofNat n).toNat = n := by
  rw [UInt8.toNat_ofNat', Nat.mod_eq_of_lt h]

theorem utf8Read_single {b : UInt8} {n lo hi : Nat} (h : lead? b = some (n, 0, lo, hi)) :
    utf8Read r .between (b :: rest) = Char.ofNat n :: utf8Read r .between rest := by
  simp only [utf8Read, utf8Step, utf8Start, h, List.singleton_append]

theorem utf8Read_lead {b : UInt8} {n owed lo hi : Nat} (h : lead? b = some (n, owed + 1, lo, hi)) :
    utf8Read r .between (b :: rest) = utf8Read r (.inside n 1 (owed + 1) lo hi) rest := by
  simp only [utf8Read, utf8Step, utf8Start, h, List.nil_append]

theorem utf8Read_more {b : UInt8} {n begun k lo hi d : Nat} (h : continuation? lo hi b = some d) :
    utf8Read r (.inside n begun (k + 2) lo hi) (b :: rest) =
      utf8Read r (.inside (n * 64 + d) (begun + 1) (k + 1) 0x80 0xBF) rest := by
  simp only [utf8Read, utf8Step, h]
  rw [if_neg (by omega)]
  simp only [List.nil_append]
  rfl

theorem utf8Read_last {b : UInt8} {n begun lo hi d : Nat} (h : continuation? lo hi b = some d) :
    utf8Read r (.inside n begun 1 lo hi) (b :: rest) =
      Char.ofNat (n * 64 + d) :: utf8Read r .between rest := by
  simp only [utf8Read, utf8Step, h, if_true, List.singleton_append]

theorem continuation?_octet {n lo hi : Nat} (hn : n < 64) (hlo : lo ≤ n + 128)
    (hhi : n + 128 ≤ hi) : continuation? lo hi (UInt8.ofNat (n + 128)) = some n := by
  rw [continuation?, toNat_ofNat_octet (n := n + 128) (by omega), if_pos ⟨hlo, hhi⟩]
  congr 1
  omega

theorem utf8Read_char (c : Char) :
    utf8Read r .between (String.utf8EncodeChar c ++ rest) = c :: utf8Read r .between rest := by
  have hc : Char.ofNat c.val.toNat = c := Char.ofNat_toNat c
  have hvalid : c.val.toNat < 0xD800 ∨ (0xDFFF < c.val.toNat ∧ c.val.toNat < 0x110000) := c.valid
  have hlast (n : Nat) : continuation? 0x80 0xBF (UInt8.ofNat (n % 64 + 128)) = some (n % 64) :=
    continuation?_octet (by omega) (by omega) (by omega)
  unfold String.utf8EncodeChar
  generalize c.val.toNat = v at hc hvalid
  dsimp only
  split
  · have hlead : lead? (UInt8.ofNat v) = some (v, 0, 0, 0) := by
      simp only [lead?, toNat_ofNat_octet (n := v) (by omega)]
      rw [if_pos (by omega)]
    rw [List.singleton_append, utf8Read_single hlead, hc]
  · split
    · have hlead : lead? (UInt8.ofNat (v / 64 % 32 + 192)) = some (v / 64, 0 + 1, 0x80, 0xBF) := by
        simp only [lead?, toNat_ofNat_octet (n := v / 64 % 32 + 192) (by omega)]
        rw [if_neg (by omega), if_neg (by omega), if_pos (by omega)]
        congr 2
        omega
      rw [List.cons_append, List.singleton_append, utf8Read_lead hlead, utf8Read_last (hlast v),
        show v / 64 * 64 + v % 64 = v by omega, hc]
    · split
      · have hsum : (v / 4096 * 64 + v / 64 % 64) * 64 + v % 64 = v := by omega
        obtain ⟨lo, hi, hlead, hlo, hhi⟩ : ∃ lo hi,
            lead? (UInt8.ofNat (v / 4096 % 16 + 224)) = some (v / 4096, 1 + 1, lo, hi) ∧
              lo ≤ v / 64 % 64 + 128 ∧ v / 64 % 64 + 128 ≤ hi := by
          simp only [lead?, toNat_ofNat_octet (n := v / 4096 % 16 + 224) (by omega)]
          rw [if_neg (by omega), if_neg (by omega), if_neg (by omega)]
          split
          · exact ⟨_, _, by congr 2; omega, by omega, by omega⟩
          · split
            · exact ⟨_, _, by congr 2; omega, by omega, by omega⟩
            · rw [if_pos (by omega)]
              exact ⟨_, _, by congr 2; omega, by omega, by omega⟩
        rw [List.cons_append, List.cons_append, List.singleton_append, utf8Read_lead hlead,
          utf8Read_more (k := 0) (continuation?_octet (by omega) hlo hhi), utf8Read_last (hlast v),
          hsum, hc]
      · have hsum : ((v / 262144 * 64 + v / 4096 % 64) * 64 + v / 64 % 64) * 64 + v % 64 = v := by
          omega
        obtain ⟨lo, hi, hlead, hlo, hhi⟩ : ∃ lo hi,
            lead? (UInt8.ofNat (v / 262144 % 8 + 240)) = some (v / 262144, 2 + 1, lo, hi) ∧
              lo ≤ v / 4096 % 64 + 128 ∧ v / 4096 % 64 + 128 ≤ hi := by
          simp only [lead?, toNat_ofNat_octet (n := v / 262144 % 8 + 240) (by omega)]
          rw [if_neg (by omega), if_neg (by omega), if_neg (by omega), if_neg (by omega),
            if_neg (by omega), if_neg (by omega)]
          split
          · exact ⟨_, _, by congr 2; omega, by omega, by omega⟩
          · split
            · exact ⟨_, _, by congr 2; omega, by omega, by omega⟩
            · rw [if_pos (by omega)]
              exact ⟨_, _, by congr 2; omega, by omega, by omega⟩
        rw [List.cons_append, List.cons_append, List.cons_append, List.singleton_append,
          utf8Read_lead hlead, utf8Read_more (k := 1) (continuation?_octet (by omega) hlo hhi),
          utf8Read_more (k := 0) (hlast (v / 64)), utf8Read_last (hlast v), hsum, hc]

theorem utf8Read_octets (t : Text) : utf8Read r .between (utf8Octets t) = t := by
  induction t with
  | nil => rfl
  | cons c t ih => rw [utf8Octets, List.flatMap_cons, utf8Read_char, ← utf8Octets, ih]

theorem encodeChar?_cons {c : Char} {bs : Octets} (h : e.encode? (c :: t) = some bs) :
    ∃ first more, e.encodeChar? c = some first ∧ e.encode? t = some more ∧ bs = first ++ more := by
  simp only [encode?, List.mapM_cons, Option.map_eq_some_iff] at h
  obtain ⟨parts, hparts, rfl⟩ := h
  obtain ⟨first, hfirst, hrest⟩ := Option.bind_eq_some_iff.1 hparts
  obtain ⟨more, hmore, hpure⟩ := Option.bind_eq_some_iff.1 hrest
  cases hpure
  exact ⟨first, more.flatten, hfirst, Option.map_eq_some_iff.2 ⟨more, hmore, rfl⟩, rfl⟩

/-- The octets of a text in front of others are read as the text in front of them. -/
theorem decode_encode (h : e.encode? t = some bytes) (rest : Octets) :
    e.decode (bytes ++ rest) = t ++ e.decode rest := by
  induction t generalizing bytes with
  | nil =>
    cases h
    rfl
  | cons c t ih =>
    obtain ⟨first, more, hfirst, hmore, rfl⟩ := encodeChar?_cons h
    rw [List.append_assoc, List.cons_append, ← ih hmore]
    cases e with
    | latin1 =>
      simp only [encodeChar?] at hfirst
      split at hfirst
      · rename_i hc
        cases hfirst
        simp only [decode, List.singleton_append, List.map_cons]
        rw [toNat_ofNat_octet (by omega), Char.ofNat_toNat]
      · cases hfirst
    | utf8 =>
      cases hfirst
      exact utf8Read_char c

theorem encode?_ascii (ht : ∀ c ∈ t, c.toNat < 0x80) : e.encode? t = some (utf8Octets t) := by
  induction t with
  | nil => rfl
  | cons c t ih =>
    obtain ⟨hc, ht⟩ := List.forall_mem_cons.1 ht
    have hfirst : e.encodeChar? c = some (String.utf8EncodeChar c) := by
      cases e with
      | latin1 =>
        have hlow : c.val.toNat ≤ 127 := Nat.le_of_lt_succ hc
        rw [encodeChar?, if_pos (by omega)]
        simp only [String.utf8EncodeChar, if_pos hlow]
        rfl
      | utf8 => rfl
    have hmore := ih ht
    simp only [encode?, Option.map_eq_some_iff] at hmore ⊢
    obtain ⟨parts, hparts, hflat⟩ := hmore
    refine ⟨String.utf8EncodeChar c :: parts, ?_, ?_⟩
    · rw [List.mapM_cons, hfirst, hparts]
      rfl
    · rw [List.flatten_cons, hflat]
      rfl

end Encoding

/-! ### Lines and their ends -/

namespace Listing

variable {ending l t : Text} {lines : List Text}

/-- The conventions for the end of a line. -/
def endings : List Text := [['\n'], ['\r'], ['\r', '\n']]

/-- Whether a text holds no line end. -/
def Unbroken (t : Text) : Prop := ∀ c ∈ t, c ≠ '\r' ∧ c ≠ '\n'

/-- The text of a file: each line with a line end behind it. -/
def written (ending : Text) (lines : List Text) : Text := lines.flatMap (· ++ ending)

theorem written_cons : written ending (l :: lines) = l ++ (ending ++ written ending lines) := by
  rw [written, List.flatMap_cons, List.append_assoc, written]

theorem written_concat : written ending (lines ++ [l]) = written ending lines ++ l ++ ending := by
  simp [written]

theorem unifyEnds_cons {c : Char} (hc : c ≠ '\r') (t : Text) :
    unifyEnds (c :: t) = c :: unifyEnds t := by
  rw [unifyEnds.eq_def]
  split <;> simp_all

theorem unifyEnds_return (ht : t.head? ≠ some '\n') : unifyEnds ('\r' :: t) = '\n' :: unifyEnds t := by
  cases t with
  | nil => rfl
  | cons c t =>
    have hc : c ≠ '\n' := by simpa using ht
    rw [unifyEnds]
    intro more hmore
    exact hc (List.cons.inj hmore).1

theorem unifyEnds_append (hl : Unbroken l) (t : Text) : unifyEnds (l ++ t) = l ++ unifyEnds t := by
  induction l with
  | nil => rfl
  | cons c l ih =>
    obtain ⟨hc, hl⟩ := List.forall_mem_cons.1 hl
    rw [List.cons_append, unifyEnds_cons hc.1, ih hl, List.cons_append]

theorem head?_written (hl : ∀ l ∈ lines, Unbroken l)
    (hreturn : ending = ['\r']) : (written ending lines).head? ≠ some '\n' := by
  cases lines with
  | nil => simp [written]
  | cons l lines =>
    cases l with
    | nil => simp [written, hreturn]
    | cons c l =>
      have := (hl (c :: l) (by simp) c (by simp)).2
      simpa [written] using this

theorem unifyEnds_written (he : ending ∈ endings) (hl : ∀ l ∈ lines, Unbroken l) :
    unifyEnds (written ending lines) = written ['\n'] lines := by
  induction lines with
  | nil => rfl
  | cons l lines ih =>
    obtain ⟨hfirst, hrest⟩ := List.forall_mem_cons.1 hl
    have hend : unifyEnds (ending ++ written ending lines) = '\n' :: written ['\n'] lines := by
      rw [← ih hrest]
      simp only [endings, List.mem_cons, List.not_mem_nil, or_false] at he
      rcases he with rfl | rfl | rfl
      · exact unifyEnds_cons (by decide) _
      · exact unifyEnds_return (head?_written hrest rfl)
      · rfl
    rw [written_cons, unifyEnds_append hfirst, hend, written_cons, List.singleton_append]

theorem splitAt_unbroken (hl : Unbroken l) (t : Text) :
    Text.splitAt '\n' (l ++ '\n' :: t) = l :: Text.splitAt '\n' t := by
  induction l with
  | nil =>
    rw [List.nil_append, Text.splitAt]
    split
    · exact absurd ‹_› (Text.splitAt_ne_nil _ _)
    · rename_i heq
      rw [if_pos rfl, heq]
  | cons c l ih =>
    obtain ⟨hc, hl⟩ := List.forall_mem_cons.1 hl
    rw [List.cons_append, Text.splitAt, ih hl]
    simp only [if_neg hc.2]

theorem splitAt_last (hl : Unbroken l) : Text.splitAt '\n' l = [l] := by
  induction l with
  | nil => rfl
  | cons c l ih =>
    obtain ⟨hc, hl⟩ := List.forall_mem_cons.1 hl
    rw [Text.splitAt, ih hl]
    simp only [if_neg hc.2]

theorem splitAt_written (hl : ∀ l ∈ lines, Unbroken l) (hlast : Unbroken l) :
    Text.splitAt '\n' (written ['\n'] lines ++ l) = lines ++ [l] := by
  induction lines with
  | nil => exact splitAt_last hlast
  | cons first lines ih =>
    obtain ⟨hfirst, hrest⟩ := List.forall_mem_cons.1 hl
    rw [written_cons, List.append_assoc, List.append_assoc, List.singleton_append,
      splitAt_unbroken hfirst, ih hrest, List.cons_append]

theorem lineTexts_written (he : ending ∈ endings) (hl : ∀ l ∈ lines, Unbroken l)
    (hone : lines ≠ [[]]) : lineTexts (written ending lines) = lines := by
  unfold lineTexts
  rw [unifyEnds_written he hl]
  rcases List.eq_nil_or_concat lines with rfl | ⟨init, last, hlines⟩
  · rfl
  · rw [List.concat_eq_append] at hlines
    subst hlines
    have hinit : ∀ l ∈ init, Unbroken l := fun l h => hl l (by simp [h])
    have hlast : Unbroken last := hl last (by simp)
    have hdrop : Text.dropTail ['\n'] (written ['\n'] (init ++ [last])) =
        some (written ['\n'] init ++ last) := by
      rw [written_concat, Text.dropTail, if_pos (List.isSuffixOf_iff_suffix.2 (List.suffix_append _ _)),
        List.length_append, Nat.add_sub_cancel, List.take_left']
      rfl
    dsimp only
    rw [hdrop, Option.getD_some]
    split
    · rename_i hnil
      obtain ⟨hempty, rfl⟩ := List.append_eq_nil_iff.1 hnil
      cases init with
      | nil => exact absurd rfl hone
      | cons first init => simp [written] at hempty
    · rw [splitAt_written hinit hlast]

theorem expandFrom_tabless (ht : '\t' ∉ t) (size col : Nat) : expandFrom size col t = t := by
  fun_induction expandFrom size col t with
  | case1 => rfl
  | case2 => simp at ht
  | case3 col c t _ ih =>
    rw [ih (fun h => ht (List.mem_cons_of_mem _ h))]

theorem expandTabs_tabless {tab : Int} (ht : 0 < tab → '\t' ∉ t) : expandTabs tab t = t := by
  unfold expandTabs
  split
  · rfl
  · exact expandFrom_tabless (ht (by omega)) _ _

theorem numberFrom_eq (file : Text) (n : Nat) (lines : List Text) :
    numberFrom file n lines = (lines.zipIdx n).map fun l => ⟨l.2, l.1, file⟩ := by
  induction lines generalizing n with
  | nil => rfl
  | cons l lines ih => rw [numberFrom, ih, List.zipIdx_cons, List.map_cons]

theorem decode_encodeLines {e : Encoding} {bytes : Octets} (he : ending ∈ endings)
    (h : encodeLines e (Encoding.utf8Octets ending) lines = .ok bytes) :
    e.decode bytes = written ending lines := by
  induction lines generalizing bytes with
  | nil =>
    cases h
    cases e <;> rfl
  | cons l lines ih =>
    simp only [encodeLines] at h
    split at h
    · cases h
    · rename_i first hfirst
      obtain ⟨tail, htail, rfl⟩ := Outcome.map_eq_ok_iff.1 h
      have hending : e.encode? ending = some (Encoding.utf8Octets ending) := by
        refine Encoding.encode?_ascii ?_
        simp only [endings, List.mem_cons, List.not_mem_nil, or_false] at he
        rcases he with rfl | rfl | rfl <;> simp
      rw [List.append_assoc, Encoding.decode_encode hfirst, Encoding.decode_encode hending, ih htail,
        written_cons]

end Listing

/-! ### Files -/

namespace Files

variable {f f' : Files} {path full : Text} {bytes : Octets} {tab : Int}
  {lines : List Text} {encoding ending : Text}

/-- Another file in no place of a folder keeps paths leading where they led. -/
theorem follow_congr {done parts left : List Text} (hfolders : f'.folders = f.folders)
    (hfiles : ∀ here, f.isFolder here = true → f'.isFile here = f.isFile here)
    (h : f.follow done parts = .ok left) : f'.follow done parts = .ok left := by
  induction parts generalizing done with
  | nil => exact h
  | cons segment parts ih =>
    simp only [follow] at h ⊢
    split at h
    · cases h
    · rename_i hfile
      split at h
      · cases h
      · rename_i hfolder
        have hfolder : f.isFolder (ofSegments done.reverse) = true := by simpa using hfolder
        have hfolder' : f'.isFolder (ofSegments done.reverse) = true := by
          rwa [isFolder, hfolders, ← isFolder]
        rw [hfiles _ hfolder, if_neg hfile, hfolder', Bool.not_true, if_neg (by simp)]
        split at h
        · rename_i hdot
          rw [if_pos hdot]
          exact ih h
        · rename_i hdot
          rw [if_neg hdot]
          split at h
          · rename_i hup
            rw [if_pos hup]
            exact ih h
          · rename_i hup
            rw [if_neg hup]
            exact ih h

theorem lookup_filter (contents : List (Text × Octets)) (place : Text) :
    (contents.filter (·.1 != full)).lookup place =
      if place = full then none else contents.lookup place := by
  induction contents with
  | nil => simp
  | cons entry contents ih =>
    obtain ⟨name, bytes⟩ := entry
    by_cases hname : name = full
    · subst hname
      rw [List.filter_cons_of_neg (by simp), ih]
      split
      · rfl
      · rename_i hne
        rw [List.lookup_cons, beq_eq_false_iff_ne.2 hne]
    · rw [List.filter_cons_of_pos (by simpa using hname), List.lookup_cons, List.lookup_cons, ih]
      by_cases hplace : place = name
      · subst hplace
        simp [hname]
      · rw [beq_eq_false_iff_ne.2 hplace]

theorem read_write (h : f.write path bytes = .ok f') : f'.read path = .ok bytes := by
  unfold write at h
  split at h
  · cases h
  · rename_i full hfull
    split at h
    · cases h
    · rename_i hfolder
      split at h
      · cases h
      · cases h
        have hlookup (place : Text) : ((f.without full).contents ++ [(full, bytes)]).lookup place =
            if place = full then some bytes else f.contents.lookup place := by
          rw [List.lookup_append, without, lookup_filter]
          by_cases hplace : place = full
          · subst hplace
            simp
          · simp [hplace, List.lookup_cons, beq_eq_false_iff_ne.2 hplace]
        have hfiles (here : Text) (hhere : f.isFolder here = true) :
            ({ f with contents := (f.without full).contents ++ [(full, bytes)] } : Files).isFile here =
              f.isFile here := by
          rw [isFile, hlookup, if_neg, isFile]
          rintro rfl
          exact hfolder hhere
        have hresolve : ({ f with contents := (f.without full).contents ++ [(full, bytes)] } :
            Files).resolve path = .ok full := by
          unfold resolve at hfull ⊢
          split at hfull
          · cases hfull
          · rename_i hpath
            obtain ⟨left, hleft, rfl⟩ := Outcome.map_eq_ok_iff.1 hfull
            rw [if_neg hpath]
            exact Outcome.map_eq_ok_iff.2 ⟨left, follow_congr (f := f) rfl hfiles hleft, rfl⟩
        rw [read, hresolve]
        simp only [hlookup, if_true]

/-- Lines that were saved are loaded, numbered in order between the two sentinels. -/
theorem load_save (h : f.save path lines encoding ending = .ok f') (he : ending ∈ Listing.endings)
    (hl : ∀ l ∈ lines, Listing.Unbroken l) (ht : 0 < tab → ∀ l ∈ lines, '\t' ∉ l)
    (hone : lines ≠ [[]]) :
    f'.load encoding tab path =
      .ok (⟨0, Listing.programText, path⟩ :: (lines.zipIdx 1).map (fun l => ⟨l.2, l.1, path⟩) ++
        [⟨lines.length + 1, Listing.eofText, path⟩]) := by
  unfold save at h
  split at h
  · cases h
  · rename_i bytes hbytes
    split at h
    · cases h
    · rename_i written hwrite
      cases h
      have hpath : path ≠ [] := by
        rintro rfl
        simp [write, resolve] at hwrite
      unfold Listing.toOctets at hbytes
      split at hbytes
      · cases hbytes
      · rename_i e hname
        have htabs : lines.map (Listing.expandTabs tab) = lines :=
          (List.map_congr_left fun l hmem => Listing.expandTabs_tabless fun h0 => ht h0 l hmem).trans
            (List.map_id lines)
        rw [load, if_neg hpath, read_write hwrite]
        simp only [Listing.ofOctets, hname]
        rw [Listing.decode_encodeLines he hbytes, Listing.ofText, Listing.lineTexts_written he hl hone,
          htabs, Listing.framed, Listing.numberFrom_eq]

/-- Lines in Latin 1 with an empty line at their end, saved over an older file and loaded. -/
theorem load_save_latin1 :
    ((ofContents "/w" [("/w/a", [104])]).save "a" ["é", "10 PRINT", []] "latin1" ['\r', '\n'] =
      .ok { ofContents "/w" [("/w/a", [104])] with
        contents := [("/w/a", [233, 13, 10, 49, 48, 32, 80, 82, 73, 78, 84, 13, 10, 13, 10])] }) ∧
    ({ ofContents "/w" [("/w/a", [104])] with
        contents := [("/w/a", [233, 13, 10, 49, 48, 32, 80, 82, 73, 78, 84, 13, 10, 13, 10])] } :
      Files).load "latin1" 4 "a" =
      .ok [⟨0, "PROGRAM", "a"⟩, ⟨1, "é", "a"⟩, ⟨2, "10 PRINT", "a"⟩, ⟨3, [], "a"⟩, ⟨4, "EOF", "a"⟩] :=
  ⟨by decide,
    @load_save (ofContents "/w" [("/w/a", [104])]) _ "a" 4 ["é", "10 PRINT", []] "latin1" ['\r', '\n']
      (by decide) (by decide) (by simp [Listing.Unbroken]) (by simp) (by decide)⟩

end Files

end ClassicBasic
