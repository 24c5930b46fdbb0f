import Mathlib.Tactic.Common
import SecureTape.Proofs.Actions
import SecureTape.Schedule

/-!
# The text of schedules

A schedule is written line by line and read back by cutting its text into lines and lines into
words. Main statement: `Schedule.parse_toText_iff`, a schedule survives its text form exactly if its
names and notes are words and the name of the program is a line.

1. `words_intercalate`, `isWord_of_mem_words`: words survive, and nothing else is read as one.
2. `lines_flatMap`, `newline_notMem_of_mem_lines`: the same for lines, up to a final carriage
   return.
3. `number_toDigits`, `ofHexPairs?_flatMap_hexByte`: numbers and digests are read as written.
-/

namespace SecureTape

open List

variable {ls ws : List (List Char)} {c mark : Char} {after : List Char} {bound n : Nat}
  {es : List ScheduleEntry}

namespace Text

/-! ## Words -/

/-- Some characters, none of them a blank. -/
def IsWord (w : List Char) : Prop := w ≠ [] ∧ ∀ c ∈ w, isBlank c = false

instance (w : List Char) : Decidable (IsWord w) :=
  decidable_of_iff (w ≠ [] ∧ w.all (!isBlank ·)) (by simp [IsWord])

variable {w acc cs l : List Char}

theorem wordsFrom_append (hw : ∀ c ∈ w, isBlank c = false) (acc rest : List Char) :
    wordsFrom acc (w ++ rest) = wordsFrom (w.reverse ++ acc) rest := by
  induction w generalizing acc with
  | nil => rfl
  | cons c w ih =>
    have hc := hw c (.head _)
    rw [cons_append, wordsFrom, hc, if_neg Bool.false_ne_true,
      ih fun d hd => hw d (mem_cons_of_mem c hd), reverse_cons, append_assoc]
    rfl

@[simp] theorem words_blank_cons (cs : List Char) : words (' ' :: cs) = words cs := rfl

theorem words_intercalate (h : ∀ w ∈ ws, IsWord w) : words ([' '].intercalate ws) = ws := by
  induction ws with
  | nil => rfl
  | cons w ws ih =>
    obtain ⟨hne, hblank⟩ := h w (.head _)
    have hrest := ih fun v hv => h v (mem_cons_of_mem w hv)
    cases ws with
    | nil =>
      have happend := wordsFrom_append hblank [] []
      simp only [append_nil] at happend
      rw [intercalate_singleton, words, happend, wordsFrom, reverse_reverse]
      simp [hne]
    | cons v ws =>
      rw [intercalate_cons_cons, append_assoc, words, wordsFrom_append hblank,
        append_nil, singleton_append, wordsFrom, reverse_reverse]
      have hopen : w.reverse.isEmpty = false := by simpa using hne
      rw [if_pos (by decide), hopen, if_neg Bool.false_ne_true]
      exact congrArg (w :: ·) hrest

theorem isWord_of_mem_wordsFrom (hacc : ∀ c ∈ acc, isBlank c = false) (h : w ∈ wordsFrom acc cs) :
    IsWord w := by
  have hclosed (hopen : ¬acc.isEmpty = true) : IsWord acc.reverse :=
    ⟨by simpa using hopen, fun c hc => hacc c (mem_reverse.1 hc)⟩
  induction cs generalizing acc with
  | nil =>
    rw [wordsFrom] at h
    split at h
    · cases h
    · rename_i hopen
      rw [mem_singleton.1 h]
      exact hclosed hopen
  | cons c cs ih =>
    have hnil : ∀ d ∈ ([] : List Char), isBlank d = false := forall_mem_nil _
    rw [wordsFrom] at h
    split at h
    · split at h
      · exact ih hnil h (fun hopen => absurd rfl hopen)
      · rename_i hopen
        rcases mem_cons.1 h with rfl | hmem
        · exact hclosed hopen
        · exact ih hnil hmem (fun hopen => absurd rfl hopen)
    · rename_i hblank
      have hacc' : ∀ d ∈ c :: acc, isBlank d = false := by
        rintro d (- | ⟨-, hd⟩)
        · exact Bool.eq_false_iff.2 hblank
        · exact hacc d hd
      refine ih hacc' h fun _ => ⟨by simp, fun d hd => hacc' d (mem_reverse.1 hd)⟩

theorem isWord_of_mem_words (h : w ∈ words cs) : IsWord w :=
  isWord_of_mem_wordsFrom (forall_mem_nil _) h

/-! ## Lines -/

theorem linesFrom_append (hl : '\n' ∉ l) (acc rest : List Char) :
    linesFrom acc (l ++ '\n' :: rest) = closeLine (l.reverse ++ acc) :: linesFrom [] rest := by
  induction l generalizing acc with
  | nil => rfl
  | cons c l ih =>
    obtain ⟨hc, hl⟩ := not_or.1 (mt mem_cons.2 hl)
    rw [cons_append, linesFrom, if_neg (Ne.symm hc), ih hl, reverse_cons,
      append_assoc]
    rfl

theorem lines_flatMap (h : ∀ l ∈ ls, '\n' ∉ l) :
    lines (ls.flatMap (· ++ ['\n'])) = ls.map fun l => closeLine l.reverse := by
  induction ls with
  | nil => rfl
  | cons l ls ih =>
    rw [flatMap_cons, append_assoc, singleton_append, lines,
      linesFrom_append (h l (.head _)), append_nil, map_cons]
    exact congrArg (_ :: ·) (ih fun k hk => h k (mem_cons_of_mem l hk))

theorem closeLine_of_ne (h : l.getLast? ≠ some '\r') : closeLine l.reverse = l := by
  unfold closeLine
  split
  · rename_i acc hacc
    rw [← head?_reverse, hacc] at h
    exact absurd rfl h
  · exact reverse_reverse l

theorem closeLine_ne (h : l.getLast? = some '\r') : closeLine l.reverse ≠ l := by
  obtain ⟨k, rfl⟩ := getLast?_eq_some_iff.1 h
  rw [reverse_append]
  intro heq
  have hlength := congrArg List.length heq
  simp [closeLine] at hlength

theorem mem_closeLine (h : c ∈ closeLine acc) : c ∈ acc := by
  unfold closeLine at h
  split at h
  · exact .tail _ (mem_reverse.1 h)
  · exact mem_reverse.1 h

theorem newline_notMem_of_mem_linesFrom (hacc : '\n' ∉ acc) (h : l ∈ linesFrom acc cs) :
    '\n' ∉ l := by
  induction cs generalizing acc with
  | nil =>
    rw [linesFrom] at h
    split at h
    · cases h
    · rw [mem_singleton.1 h]
      exact fun hmem => hacc (mem_reverse.1 hmem)
  | cons c cs ih =>
    rw [linesFrom] at h
    split at h
    · rcases mem_cons.1 h with rfl | hmem
      · exact fun hmem => hacc (mem_closeLine hmem)
      · exact ih not_mem_nil hmem
    · rename_i hc
      exact ih (mt mem_cons.1 (not_or.2 ⟨Ne.symm hc, hacc⟩)) h

theorem newline_notMem_of_mem_lines (h : l ∈ lines cs) : '\n' ∉ l :=
  newline_notMem_of_mem_linesFrom not_mem_nil h

/-- Neither a line feed nor a carriage return is among the characters. -/
def Inline (l : List Char) : Prop := '\n' ∉ l ∧ '\r' ∉ l

instance (l : List Char) : Decidable (Inline l) := inferInstanceAs (Decidable (_ ∧ _))

theorem Inline.append {k : List Char} (hl : Inline l) (hk : Inline k) : Inline (l ++ k) :=
  ⟨fun h => (mem_append.1 h).elim hl.1 hk.1, fun h => (mem_append.1 h).elim hl.2 hk.2⟩

theorem inline_of_forall (h : ∀ c ∈ l, isBlank c = false) : Inline l :=
  ⟨fun hmem => absurd (h _ hmem) (by decide), fun hmem => absurd (h _ hmem) (by decide)⟩

theorem inline_intercalate (h : ∀ w ∈ ws, IsWord w) : Inline ([' '].intercalate ws) := by
  induction ws with
  | nil => decide
  | cons w ws ih =>
    have hw := inline_of_forall (h w (.head _)).2
    have hrest := ih fun v hv => h v (mem_cons_of_mem w hv)
    cases ws with
    | nil => rwa [intercalate_singleton]
    | cons v ws =>
      rw [intercalate_cons_cons]
      exact (hw.append (by decide)).append hrest

theorem Inline.closeLine (h : Inline l) : closeLine l.reverse = l :=
  closeLine_of_ne fun hlast => h.2 (mem_of_getLast? hlast)

/-! ## The last mark -/

theorem splitLast?_append (h : mark ∉ after) (before : List Char) :
    splitLast? mark (before ++ mark :: after) = some (before, after) := by
  have hkeep : ∀ c ∈ after.reverse, decide (c ≠ mark) = true := by
    intro c hc
    exact decide_eq_true fun heq => h (heq ▸ mem_reverse.1 hc)
  have hrev : (before ++ mark :: after).reverse = after.reverse ++ mark :: before.reverse := by simp
  simp only [splitLast?, hrev]
  rw [dropWhile_append_of_pos hkeep, takeWhile_append_of_pos hkeep,
    dropWhile_cons_of_neg (by simp), takeWhile_cons_of_neg (by simp)]
  simp

theorem eq_append_of_splitLast? {before : List Char}
    (h : splitLast? mark cs = some (before, after)) :
    ∃ rest, cs = before ++ rest := by
  simp only [splitLast?] at h
  split at h
  · cases h
  · rename_i c rest hdrop
    cases h
    have hrev := takeWhile_append_dropWhile (p := fun c => decide (c ≠ mark)) (l := cs.reverse)
    rw [hdrop] at hrev
    have hcs := congrArg List.reverse hrev
    rw [reverse_reverse, reverse_append, reverse_cons, append_assoc] at hcs
    exact ⟨_, hcs.symm⟩

/-! ## Numbers and digests -/

theorem digit?_of_isDigit (h : c.isDigit) : digit? 10 c = some (c.toNat - '0'.toNat) := by
  obtain ⟨hlow, hhigh⟩ : 0x30 ≤ c.toNat ∧ c.toNat ≤ 0x39 := by
    rw [Char.isDigit, Bool.and_eq_true, decide_eq_true_eq, decide_eq_true_eq] at h
    exact h
  have hsmall : c.toNat - 0x30 < 10 := by omega
  simp only [digit?]
  rw [if_pos ⟨hlow, hhigh⟩, Option.filter, decide_eq_true hsmall]
  rfl

theorem digitsValue?_of_isDigit (h : ∀ c ∈ cs, c.isDigit) (acc : Nat) :
    digitsValue? 10 acc cs = some (Nat.ofDigitChars 10 cs acc) := by
  induction cs generalizing acc with
  | nil => rfl
  | cons c cs ih =>
    rw [digitsValue?, digit?_of_isDigit (h c (.head _)), Nat.ofDigitChars_cons,
      Nat.mul_comm 10 acc]
    exact ih (fun d hd => h d (mem_cons_of_mem c hd)) _

theorem isDigit_of_mem_toDigits (h : c ∈ Nat.toDigits 10 n) :
    c.isDigit :=
  Nat.isDigit_of_mem_toDigits (by decide) (by decide) h

theorem isBlank_of_isDigit (h : c.isDigit) : isBlank c = false := by
  rw [Char.isDigit, Bool.and_eq_true, decide_eq_true_eq, decide_eq_true_eq] at h
  obtain ⟨hlow, hhigh⟩ : 0x30 ≤ c.toNat ∧ c.toNat ≤ 0x39 := h
  simp only [isBlank, Bool.or_eq_false_iff, Bool.and_eq_false_iff, decide_eq_false_iff_not,
    beq_eq_false_iff_ne]
  omega

theorem trim_of_forall (h : ∀ c ∈ cs, isBlank c = false) : trim cs = cs := by
  have hdrop {ds : List Char} (hds : ∀ c ∈ ds, isBlank c = false) : ds.dropWhile isBlank = ds := by
    cases ds with
    | nil => rfl
    | cons d ds => rw [dropWhile_cons_of_neg (Bool.eq_false_iff.1 (hds d (.head _)))]
  rw [trim, hdrop h, hdrop fun c hc => h c (mem_reverse.1 hc), reverse_reverse]

theorem numeral?_toDigits (h : n < bound) : numeral? 10 bound (Nat.toDigits 10 n) = some n := by
  have hdigits : ∀ c ∈ Nat.toDigits 10 n, c.isDigit = true := fun _ => isDigit_of_mem_toDigits
  unfold numeral?
  split
  · rename_i rest heq
    exact absurd (hdigits '+' (heq ▸ mem_cons_self)) (by decide)
  · simp only [digitsValue?_of_isDigit hdigits, Nat.ofDigitChars_ten_toDigits, Option.filter,
      decide_eq_true h]
    rw [if_neg (by simp [Nat.toDigits_ne_nil])]
    rfl

theorem numeral?_hexByte (b : UInt8) : numeral? 16 256 (hexByte b) = some b.toNat := by
  have hpairs : ∀ n < 256, numeral? 16 256 [hexDigit (n / 16), hexDigit (n % 16)] = some n := by
    decide +kernel
  exact hpairs b.toNat b.toNat_lt

theorem plain_of_mem_hexByte {b : UInt8} (h : c ∈ hexByte b) :
    c.toNat < 0x80 ∧ isBlank c = false := by
  have hdigits : ∀ n < 16, (Nat.digitChar n).toNat < 0x80 ∧ isBlank (Nat.digitChar n) = false := by
    decide
  have hdigit (n : Nat) : (hexDigit n).toNat < 0x80 ∧ isBlank (hexDigit n) = false :=
    hdigits _ (Nat.mod_lt _ (by decide))
  rcases mem_cons.1 h with rfl | h
  · exact hdigit _
  · rw [mem_singleton.1 h]
    exact hdigit _

theorem length_flatMap_hexByte (bytes : Bytes) :
    (bytes.flatMap hexByte).length = 2 * bytes.length := by
  induction bytes with
  | nil => rfl
  | cons b bytes ih =>
    rw [flatMap_cons, length_append, ih, length_cons, hexByte]
    simp only [length_cons, length_nil]
    omega

theorem ofHexPairs?_flatMap_hexByte (bytes : Bytes) :
    ofHexPairs? (bytes.flatMap hexByte) = some bytes := by
  induction bytes with
  | nil => rfl
  | cons b bytes ih =>
    have hbyte := numeral?_hexByte b
    rw [hexByte] at hbyte
    rw [flatMap_cons, hexByte, cons_append, cons_append, nil_append, ofHexPairs?,
      hbyte, ih]
    simp

end Text

namespace Schedule

open Text

variable {s : Schedule}

/-- The numbers of the schedule fit their fields, and its digest is one of 32 bytes. -/
structure Storable (s : Schedule) : Prop where
  maxParallelTapes : s.maxParallelTapes < range32
  count : s.tapes.length < range64
  lengths : ∀ e ∈ s.tapes, e.length < range64
  bits : s.arithmetic.bits < range32
  security : s.security < range32
  galoisLength : s.galoisLength < range32
  digest : s.digest.length = 32

/-- The names of tapes hold no blanks, notes are words, and the name of the program is a line that
does not end with a carriage return. -/
structure Clean (s : Schedule) : Prop where
  names : ∀ e ∈ s.tapes, ∀ c ∈ e.name.toList, isBlank c = false
  notes : ∀ note ∈ s.notes, IsWord note.toList
  line : '\n' ∉ s.programName.toList
  ending : s.programName.toList.getLast? ≠ some '\r'

instance (s : Schedule) : Decidable s.Clean :=
  decidable_of_iff ((∀ e ∈ s.tapes, e.name.toList.all (!isBlank ·)) ∧
      (∀ note ∈ s.notes, IsWord note.toList) ∧ '\n' ∉ s.programName.toList ∧
      s.programName.toList.getLast? ≠ some '\r') (by
    simp only [all_eq_true, Bool.not_eq_true']
    exact ⟨fun h => ⟨h.1, h.2.1, h.2.2.1, h.2.2.2⟩, fun h => ⟨h.names, h.notes, h.line, h.ending⟩⟩)

/-! ## Fields -/

theorem toList_toString (n : Nat) : (toString n).toList = Nat.toDigits 10 n := by
  rw [Nat.toString_eq_ofList_toDigits, String.toList_ofList]

theorem isBlank_of_mem_toString (h : c ∈ (toString n).toList) : isBlank c = false := by
  rw [toList_toString] at h
  exact isBlank_of_isDigit (isDigit_of_mem_toDigits h)

theorem number_toString (h : n < bound) (line : Nat) :
    number bound (toString n).toList line = .ok n := by
  rw [number, trim_of_forall fun _ => isBlank_of_mem_toString, toList_toString, numeral?_toDigits h]

theorem toList_entryText (e : ScheduleEntry) :
    (entryText e).toList = e.name.toList ++ ':' :: (toString e.length).toList := by
  simp [entryText]

variable {e : ScheduleEntry}

theorem isWord_entryText (h : ∀ c ∈ e.name.toList, isBlank c = false) :
    IsWord (entryText e).toList := by
  rw [toList_entryText]
  refine ⟨by simp, forall_mem_append.2 ⟨h, forall_mem_cons.2 ⟨rfl, ?_⟩⟩⟩
  exact fun _ => isBlank_of_mem_toString

theorem readEntry_entryText (h : e.length < range64) : readEntry (entryText e).toList = .ok e := by
  have hmark : ':' ∉ (toString e.length).toList := by
    intro hmem
    rw [toList_toString] at hmem
    exact absurd (isDigit_of_mem_toDigits hmem) (by decide)
  rw [readEntry, toList_entryText, splitLast?_append hmark]
  simp only [number_toString h, String.ofList_toList]
  rfl

theorem isBlank_of_readEntry {item : List Char} (hitem : IsWord item) (h : readEntry item = .ok e)
    (hc : c ∈ e.name.toList) : isBlank c = false := by
  unfold readEntry at h
  split at h
  · rename_i name length hsplit
    obtain ⟨rest, rfl⟩ := eq_append_of_splitLast? hsplit
    cases hnumber : number range64 length 2 with
    | error fault =>
      rw [hnumber] at h
      cases h
    | ok n =>
      rw [hnumber] at h
      cases h
      rw [String.toList_ofList] at hc
      exact hitem.2 c (mem_append_left rest hc)
  · cases h

theorem mapM_readEntry_entryText (h : ∀ e ∈ es, e.length < range64) :
    (es.map fun e => (entryText e).toList).mapM readEntry = .ok es := by
  induction es with
  | nil => rfl
  | cons e es ih =>
    rw [map_cons, mapM_cons, readEntry_entryText (h e (.head _)),
      ih fun d hd => h d (mem_cons_of_mem e hd)]
    rfl

theorem exists_readEntry_of_mapM {items : List (List Char)} (h : items.mapM readEntry = .ok es)
    (he : e ∈ es) : ∃ item ∈ items, readEntry item = .ok e := by
  induction items generalizing es with
  | nil =>
    cases h
    cases he
  | cons item items ih =>
    rw [mapM_cons] at h
    cases hitem : readEntry item with
    | error fault =>
      rw [hitem] at h
      cases h
    | ok d =>
      rw [hitem] at h
      cases hitems : items.mapM readEntry with
      | error fault =>
        rw [hitems] at h
        cases h
      | ok ds =>
        rw [hitems] at h
        cases h
        rcases mem_cons.1 he with rfl | he
        · exact ⟨item, .head _, hitem⟩
        · obtain ⟨found, hfound, hread⟩ := ih hitems he
          exact ⟨found, mem_cons_of_mem item hfound, hread⟩

theorem readArithmetic_arithmeticText {a : Arithmetic} (h : a.bits < range32) :
    readArithmetic (arithmeticText a).toList = .ok a := by
  cases a with
  | ring bits =>
    rw [readArithmetic, arithmeticText, String.toList_append, dropHead?_append]
    simp only [number_toString (show bits < range32 from h)]
    rfl
  | prime bits =>
    have hother : dropHead? "R:".toList ("lgp:".toList ++ (toString bits).toList) = none := rfl
    rw [readArithmetic, arithmeticText, String.toList_append, hother, dropHead?_append]
    simp only [number_toString (show bits < range32 from h)]
    rfl

theorem readDigest_toHex {digest : Bytes} (h : digest.length = 32) :
    readDigest (toHex digest).toList = .ok digest := by
  have hplain : (digest.flatMap hexByte).all (·.toNat < 0x80) = true := by
    rw [all_eq_true]
    intro c hc
    obtain ⟨b, -, hb⟩ := mem_flatMap.1 hc
    exact decide_eq_true (plain_of_mem_hexByte hb).1
  have hlength : (digest.flatMap hexByte).length = 64 := by rw [length_flatMap_hexByte, h]
  rw [readDigest, toHex, String.toList_ofList, if_pos ⟨hlength, hplain⟩,
    ofHexPairs?_flatMap_hexByte]

/-! ## Whole texts -/

theorem toList_toText (s : Schedule) :
    s.toText.toList = (s.textLines.map String.toList).flatMap (· ++ ['\n']) := by
  rw [toText, String.toList_join, flatMap_map, flatMap_map]
  simp

theorem inline_toString (n : Nat) : Inline (toString n).toList :=
  inline_of_forall fun _ => isBlank_of_mem_toString

theorem inline_arithmeticText (a : Arithmetic) : Inline (arithmeticText a).toList := by
  cases a with
  | ring bits | prime bits =>
    rw [arithmeticText, String.toList_append]
    exact .append (by decide) (inline_toString bits)

theorem inline_toHex (digest : Bytes) : Inline (toHex digest).toList := by
  rw [toHex, String.toList_ofList]
  refine inline_of_forall fun c hc => ?_
  obtain ⟨b, -, hb⟩ := mem_flatMap.1 hc
  exact (plain_of_mem_hexByte hb).2

theorem lines_toText (hnames : ∀ e ∈ s.tapes, ∀ c ∈ e.name.toList, isBlank c = false)
    (hnotes : ∀ note ∈ s.notes, IsWord note.toList) (hline : '\n' ∉ s.programName.toList) :
    lines s.toText.toList = (s.textLines.map String.toList).set 5
      (closeLine s.programName.toList.reverse) := by
  have htapes : Inline (" ".intercalate (s.tapes.map entryText)).toList := by
    rw [String.toList_intercalate, map_map]
    refine inline_intercalate fun w hw => ?_
    obtain ⟨e, he, rfl⟩ := mem_map.1 hw
    exact isWord_entryText (hnames e he)
  have hopts : Inline ("opts: " ++ " ".intercalate s.notes).toList := by
    rw [String.toList_append, String.toList_intercalate]
    refine .append (by decide) (inline_intercalate fun w hw => ?_)
    obtain ⟨note, hnote, rfl⟩ := mem_map.1 hw
    exact hnotes note hnote
  have hfield (head text : String) (hhead : Inline head.toList) (htext : Inline text.toList) :
      Inline (head ++ text).toList := by
    rw [String.toList_append]
    exact hhead.append htext
  have hmax := inline_toString s.maxParallelTapes
  have hcount := inline_toString s.tapes.length
  have hthreads : Inline "1 0".toList := by decide
  have hzero : Inline "0".toList := by decide
  have harithmetic := inline_arithmeticText s.arithmetic
  have hsecurity := hfield "sec:" _ (by decide) (inline_toString s.security)
  have hgalois := hfield "lg2:" _ (by decide) (inline_toString s.galoisLength)
  have hdigest := hfield "hash:" _ (by decide) (inline_toHex s.digest)
  rw [toList_toText, lines_flatMap]
  · simp only [textLines, map_cons, map_nil, set_cons_succ, set_cons_zero,
      htapes.closeLine, hopts.closeLine, hmax.closeLine, hcount.closeLine, hthreads.closeLine,
      hzero.closeLine, harithmetic.closeLine, hsecurity.closeLine, hgalois.closeLine,
      hdigest.closeLine]
  · simp only [textLines, map_cons, map_nil, forall_mem_cons]
    exact ⟨hmax.1, hcount.1, htapes.1, hthreads.1, hzero.1, hline, harithmetic.1, hopts.1,
      hsecurity.1, hgalois.1, hdigest.1, forall_mem_nil _⟩

/-- Reading gives the schedule back, up to a carriage return at the end of the program's name. -/
theorem parse_toText (hs : s.Storable)
    (hnames : ∀ e ∈ s.tapes, ∀ c ∈ e.name.toList, isBlank c = false)
    (hnotes : ∀ note ∈ s.notes, IsWord note.toList) (hline : '\n' ∉ s.programName.toList) :
    parse s.toText =
      .ok { s with programName := String.ofList (closeLine s.programName.toList.reverse) } := by
  have htapes : words (" ".intercalate (s.tapes.map entryText)).toList =
      s.tapes.map fun e => (entryText e).toList := by
    rw [String.toList_intercalate, map_map]
    refine words_intercalate fun w hw => ?_
    obtain ⟨e, he, rfl⟩ := mem_map.1 hw
    exact isWord_entryText (hnames e he)
  have hopts : words (" ".intercalate s.notes).toList = s.notes.map String.toList := by
    rw [String.toList_intercalate]
    refine words_intercalate fun w hw => ?_
    obtain ⟨note, hnote, rfl⟩ := mem_map.1 hw
    exact hnotes note hnote
  have hhead : afterHead "opts:" .expectedNotes ("opts: " ++ " ".intercalate s.notes).toList 7 =
      .ok (' ' :: (" ".intercalate s.notes).toList) := by
    rw [String.toList_append]
    rfl
  have hfield (head text : String) (flaw : ScheduleFlaw) (n : Nat) :
      afterHead head flaw (head ++ text).toList n = .ok text.toList := by
    rw [afterHead, String.toList_append, dropHead?_append]
  rw [parse, lines_toText hnames hnotes hline]
  simp only [textLines, map_cons, map_nil, set_cons_succ, set_cons_zero, ofLines,
    lineAt, getElem?_cons_zero, getElem?_cons_succ, bind, Except.bind, pure, Except.pure,
    number_toString hs.maxParallelTapes, number_toString hs.count, htapes,
    mapM_readEntry_entryText hs.lengths, readArithmetic_arithmeticText hs.bits, hhead, hfield,
    number_toString hs.security, number_toString hs.galoisLength, readDigest_toHex hs.digest,
    words_blank_cons, hopts, map_map]
  simp [Function.comp_def, String.ofList_toList]

theorem of_ofLines (h : ofLines ls = .ok s) :
    (∃ l, (words l).mapM readEntry = .ok s.tapes) ∧ (∃ l, s.notes = (words l).map String.ofList) ∧
      ∃ l ∈ ls, s.programName = String.ofList l := by
  -- one step for each line, field and value that is read
  obtain ⟨line0, -, h⟩ := of_bind_ok h
  obtain ⟨max, -, h⟩ := of_bind_ok h
  obtain ⟨line1, -, h⟩ := of_bind_ok h
  obtain ⟨count, -, h⟩ := of_bind_ok h
  obtain ⟨line2, -, h⟩ := of_bind_ok h
  obtain ⟨tapes, htapes, h⟩ := of_bind_ok h
  split at h
  · cases h
  obtain ⟨name, hname, h⟩ := of_bind_ok h
  obtain ⟨line6, -, h⟩ := of_bind_ok h
  obtain ⟨arithmetic, -, h⟩ := of_bind_ok h
  obtain ⟨line7, -, h⟩ := of_bind_ok h
  obtain ⟨notes, -, h⟩ := of_bind_ok h
  obtain ⟨line8, -, h⟩ := of_bind_ok h
  obtain ⟨field8, -, h⟩ := of_bind_ok h
  obtain ⟨security, -, h⟩ := of_bind_ok h
  obtain ⟨line9, -, h⟩ := of_bind_ok h
  obtain ⟨field9, -, h⟩ := of_bind_ok h
  obtain ⟨galoisLength, -, h⟩ := of_bind_ok h
  obtain ⟨line10, -, h⟩ := of_bind_ok h
  obtain ⟨field10, -, h⟩ := of_bind_ok h
  obtain ⟨digest, -, h⟩ := of_bind_ok h
  cases h
  refine ⟨⟨line2, htapes⟩, ⟨notes, rfl⟩, name, ?_, rfl⟩
  unfold lineAt at hname
  split at hname
  · cases hname
    exact mem_of_getElem? ‹_›
  · cases hname

/-- A schedule survives its text form exactly if the names of its tapes hold no blanks, its notes
are words, and the name of the program is a line that does not end with a carriage return. -/
theorem parse_toText_iff (hs : s.Storable) : parse s.toText = .ok s ↔ s.Clean := by
  constructor
  · intro h
    obtain ⟨⟨l, htapes⟩, ⟨k, hnotes⟩, line, hmem, hname⟩ := of_ofLines h
    have hclean : ∀ e ∈ s.tapes, ∀ c ∈ e.name.toList, isBlank c = false := by
      intro e he c hc
      obtain ⟨item, hitem, hread⟩ := exists_readEntry_of_mapM htapes he
      exact isBlank_of_readEntry (isWord_of_mem_words hitem) hread hc
    have hwords : ∀ note ∈ s.notes, IsWord note.toList := by
      intro note hnote
      rw [hnotes] at hnote
      obtain ⟨w, hw, rfl⟩ := mem_map.1 hnote
      rw [String.toList_ofList]
      exact isWord_of_mem_words hw
    have hline : '\n' ∉ s.programName.toList := by
      rw [hname, String.toList_ofList]
      exact newline_notMem_of_mem_lines hmem
    refine ⟨hclean, hwords, hline, fun hlast => closeLine_ne hlast ?_⟩
    -- reading takes a final carriage return away, and gave the name as it is
    rw [parse_toText hs hclean hwords hline] at h
    have hsame := congrArg programName (Except.ok.inj h)
    rw [← String.toList_inj, String.toList_ofList] at hsame
    exact hsame
  · intro h
    rw [parse_toText hs h.names h.notes h.line, closeLine_of_ne h.ending, String.ofList_toList]

/-- Colons in names, empty names and a program that is named like another line do no harm, but a
carriage return at the end of the program's name does. -/
theorem parse_toText_iff_returns :
    let s : Schedule :=
      ⟨"R:64", 3, [⟨"a:1", 12⟩, ⟨"", 0⟩], .prime 64, ["no_merge"], 40, 40, .replicate 32 7⟩
    let t : Schedule := { s with programName := "p\r" }
    (s.Storable ∧ parse s.toText = .ok s) ∧ t.Storable ∧ parse t.toText ≠ .ok t := by
  intro s t
  have hs : s.Storable := ⟨by decide, by decide, by decide, by decide, by decide, by decide, rfl⟩
  have ht : t.Storable := ⟨by decide, by decide, by decide, by decide, by decide, by decide, rfl⟩
  exact ⟨⟨hs, (parse_toText_iff hs).2 (by decide)⟩, ht, mt (parse_toText_iff ht).1 (by decide)⟩

end Schedule

end SecureTape
