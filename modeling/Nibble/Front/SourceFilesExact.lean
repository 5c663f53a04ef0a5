import Mathlib.Data.List.DropRight
import Nibble.Front.LexerExact
import Nibble.Front.SourceFiles

/-!
# Where an error is printed

What a lexer has written down of the text up to its cursor are the newlines that are no escapes.
From there on `get_src_linecol` counts lines, and `print_error` reads the text. An error is
printed where it lies just when it begins before the end of its file, ends no later than that,
and no newline before it is an escape.
-/

namespace Nibble.Front

/-! ## The line table -/

/-- The position after each newline that is recorded, in a text that begins at `start` in mode
`m`. -/
def recordedStarts (m : LexMode) (start : Nat) : List Char → List Nat
  | [] => []
  | c :: cs =>
    if c = '\n' ∧ m.isEscape = false then
      (start + 1) :: recordedStarts (m.step c) (start + 1) cs
    else recordedStarts (m.step c) (start + 1) cs

/-- The modes record these positions, whatever lies beyond the NUL. -/
theorem linesCut_eq {lx : Lexer} {m : LexMode} {s : List Char} {start : Nat}
    (hs : '\x00' ∉ s) (hpos : start + s.length < 2 ^ 32)
    (hstart : lx.str.text.length + lx.start = start + s.length + 1)
    (hlen : s.length < lx.str.text.length) :
    linesCut lx (some []) m (s ++ ['\x00']) = some (recordedStarts m start s) := by
  induction s generalizing m start with
  | nil =>
    simp only [List.nil_append, linesCut, if_true, ite_self]
    rfl
  | cons c s ih =>
    rw [List.mem_cons, not_or] at hs
    simp only [List.length_cons] at hpos hstart hlen
    have htail := @ih (m.step c) (start + 1) hs.2 (by omega) (by omega) (by omega)
    have hprog : progPos (lx.calcPos (c :: (s ++ ['\x00'])) + 1) = start + 1 := by
      simp only [progPos, Lexer.calcPos, List.length_cons, List.length_append, List.length_nil]
      omega
    simp only [List.cons_append, linesCut, Ne.symm hs.1, if_false, recordedStarts, htail, hprog]
    split <;> rfl

theorem recordedStarts_bounds {m : LexMode} {start : Nat} {s : List Char} :
    ∀ e ∈ recordedStarts m start s, start < e ∧ e ≤ start + s.length := by
  induction s generalizing m start with
  | nil => exact fun _ he => absurd he List.not_mem_nil
  | cons c s ih =>
    intro e he
    have htail := @ih (m.step c) (start + 1)
    unfold recordedStarts at he
    rw [List.length_cons]
    split at he
    · rcases List.mem_cons.mp he with rfl | he
      · omega
      · have := htail e he
        omega
    · have := htail e he
      omega

/-- The line of the end of a text and where it begins, by what is recorded. -/
def lastLine (m : LexMode) (start : Nat) : List Char → Nat → Nat → Nat × Nat
  | [], i, lineStart => (i, lineStart)
  | c :: cs, i, lineStart =>
    if c = '\n' ∧ m.isEscape = false then lastLine (m.step c) (start + 1) cs (i + 1) (start + 1)
    else lastLine (m.step c) (start + 1) cs i lineStart

/-- The loop stops where the lines begin behind the position. -/
theorem lineLoop_of_behind {stop pos : Nat} {table : List Nat} (i lineStart : Nat)
    (h : ∀ e ∈ table, pos < e ∧ e ≤ stop) :
    lineLoop stop pos table i lineStart = some (i, lineStart) := by
  cases table with
  | nil => rfl
  | cons e table =>
    obtain ⟨hpos, hstop⟩ := h e List.mem_cons_self
    rw [lineLoop, if_pos hstop, if_pos hpos]

theorem lineLoop_append {stop pos : Nat} {table rest : List Nat} (i lineStart : Nat)
    (h : ∀ e ∈ rest, pos < e ∧ e ≤ stop) :
    lineLoop stop pos (table ++ rest) i lineStart = lineLoop stop pos table i lineStart := by
  induction table generalizing i lineStart with
  | nil => exact lineLoop_of_behind i lineStart h
  | cons e table ih =>
    rw [List.cons_append, lineLoop, lineLoop, ih]

/-- The loop over what is recorded of a text, for a position in it. -/
theorem lineLoop_recorded {m : LexMode} {start stop a : Nat} {s : List Char} (i lineStart : Nat)
    (ha : a ≤ s.length) (hstop : start + s.length ≤ stop) :
    lineLoop stop (start + a) (recordedStarts m start s) i lineStart =
      some (lastLine m start (s.take a) i lineStart) := by
  induction s generalizing m start a i lineStart with
  | nil =>
    rw [List.take_nil]
    rfl
  | cons c s ih =>
    rw [List.length_cons] at ha hstop
    cases a with
    | zero =>
      refine lineLoop_of_behind i lineStart fun e he => ?_
      have := recordedStarts_bounds e he
      rw [List.length_cons] at this
      omega
    | succ a =>
      have hpos : start + (a + 1) = start + 1 + a := by omega
      rw [List.take_succ_cons, recordedStarts, lastLine, hpos]
      split
      · rw [lineLoop, if_pos (by omega), if_neg (by omega)]
        exact ih _ _ (by omega) (by omega)
      · exact ih _ _ (by omega) (by omega)

/-! ## Lines and columns -/

/-- The line and the column behind a text. -/
def lineColAfter (before : List Char) : LineCol :=
  ⟨before.count '\n' + 1, (before.rtakeWhile (· ≠ '\n')).length + 1⟩

/-- No newline of a text is an escape. -/
def NoEscapedNewline (m : LexMode) (s : List Char) : Prop :=
  ∀ u v, s = u ++ '\n' :: v → (m.after u).isEscape = false

theorem noEscapedNewline_cons {m : LexMode} {c : Char} {s : List Char} :
    NoEscapedNewline m (c :: s) ↔
      (c = '\n' → m.isEscape = false) ∧ NoEscapedNewline (m.step c) s := by
  constructor
  · intro h
    refine ⟨fun hc => h [] s (by rw [hc]; rfl), fun u v hs => ?_⟩
    exact h (c :: u) v (by rw [hs]; rfl)
  · rintro ⟨hc, hs⟩ u v he
    cases u with
    | nil =>
      rw [List.nil_append, List.cons.injEq] at he
      exact hc he.1
    | cons d u =>
      rw [List.cons_append, List.cons.injEq] at he
      obtain ⟨rfl, he⟩ := he
      exact hs u v he

/-- At most every newline is counted, and all of them only if none is an escape. -/
theorem lastLine_count {m : LexMode} {start : Nat} {s : List Char} (i lineStart : Nat) :
    (lastLine m start s i lineStart).1 ≤ i + s.count '\n' ∧
      ((lastLine m start s i lineStart).1 = i + s.count '\n' ↔ NoEscapedNewline m s) := by
  induction s generalizing m start i lineStart with
  | nil => exact ⟨Nat.le_refl _, iff_of_true rfl fun u v h => by simp at h⟩
  | cons c s ih =>
    rw [noEscapedNewline_cons, lastLine]
    split
    · rename_i hline
      obtain ⟨rfl, hescape⟩ := hline
      obtain ⟨hle, hiff⟩ := @ih (m.step '\n') (start + 1) (i + 1) (start + 1)
      rw [List.count_cons_self, ← hiff]
      refine ⟨by omega, ⟨fun h => ⟨fun _ => hescape, by omega⟩, fun h => by omega⟩⟩
    · rename_i hline
      obtain ⟨hle, hiff⟩ := @ih (m.step c) (start + 1) i lineStart
      by_cases hc : c = '\n'
      · subst hc
        rw [List.count_cons_self]
        refine ⟨by omega, iff_of_false (by omega) fun h => hline ⟨rfl, h.1 rfl⟩⟩
      · rw [List.count_cons_of_ne hc, hiff]
        exact ⟨hle, ⟨fun h => ⟨fun h => absurd h hc, h⟩, And.right⟩⟩

theorem rtakeWhile_cons_of_mem {s : List Char} (h : '\n' ∈ s) (c : Char) :
    (c :: s).rtakeWhile (· ≠ '\n') = s.rtakeWhile (· ≠ '\n') := by
  have hshort : (s.reverse.takeWhile (· ≠ '\n')).length ≠ s.reverse.length := fun hlen => by
    have hall := List.takeWhile_eq_self_iff.mp ((List.takeWhile_sublist _).eq_of_length hlen)
    exact of_decide_eq_true (hall '\n' (List.mem_reverse.mpr h)) rfl
  unfold List.rtakeWhile
  rw [List.reverse_cons, List.takeWhile_append, if_neg hshort]

theorem rtakeWhile_of_notMem {s : List Char} (h : '\n' ∉ s) : s.rtakeWhile (· ≠ '\n') = s :=
  List.rtakeWhile_eq_self_iff.mpr fun _ hc => decide_eq_true fun heq => h (heq ▸ hc)

theorem rtakeWhile_newline (s : List Char) :
    ('\n' :: s).rtakeWhile (· ≠ '\n') = s.rtakeWhile (· ≠ '\n') := by
  by_cases h : '\n' ∈ s
  · exact rtakeWhile_cons_of_mem h _
  · have hall : s.reverse.takeWhile (· ≠ '\n') = s.reverse :=
      List.takeWhile_eq_self_iff.mpr fun _ hc =>
        decide_eq_true fun heq => h (heq ▸ List.mem_reverse.mp hc)
    unfold List.rtakeWhile
    rw [List.reverse_cons, List.takeWhile_append, if_pos (by rw [hall]), hall]
    exact congrArg List.reverse (List.append_nil _)

/-- Where no newline is an escape, the last line begins behind the last of them. -/
theorem lastLine_start {m : LexMode} {start : Nat} {s : List Char} (i lineStart : Nat)
    (h : NoEscapedNewline m s) :
    (lastLine m start s i lineStart).2 + (s.rtakeWhile (· ≠ '\n')).length =
      if '\n' ∈ s then start + s.length else lineStart + s.length := by
  induction s generalizing m start i lineStart with
  | nil => rfl
  | cons c s ih =>
    obtain ⟨hescape, hrest⟩ := noEscapedNewline_cons.mp h
    rw [lastLine, List.length_cons]
    by_cases hc : c = '\n'
    · subst hc
      have hih := @ih (m.step '\n') (start + 1) (i + 1) (start + 1) hrest
      rw [if_pos ⟨rfl, hescape rfl⟩, if_pos List.mem_cons_self, rtakeWhile_newline, hih]
      split <;> omega
    · have hih := @ih (m.step c) (start + 1) i lineStart hrest
      have hmem : '\n' ∈ c :: s ↔ '\n' ∈ s := by
        rw [List.mem_cons]
        exact ⟨fun h => h.resolve_left fun h => hc h.symm, .inr⟩
      rw [if_neg fun h => hc h.1]
      by_cases hs : '\n' ∈ s
      · rw [if_pos hs] at hih
        rw [if_pos (hmem.mpr hs), rtakeWhile_cons_of_mem hs, hih]
        omega
      · rw [if_neg hs, rtakeWhile_of_notMem hs] at hih
        rw [if_neg fun h => hs (hmem.mp h), rtakeWhile_of_notMem fun h => hs (hmem.mp h),
          List.length_cons]
        omega

/-! ## The files of a run -/

variable {env : LexEnv} {sources : Sources} {o : Opened} {k a b : Nat}

theorem files_add (sources : Sources) (absPath : List UInt8) (code : SourceText) (cur : List Char) :
    Sources.files (sources ++ [⟨newSrcFile sources.files absPath code, cur, []⟩]) =
      addSrcFile sources.files absPath code := by
  unfold Sources.files addSrcFile
  rw [List.map_append]
  rfl

/-- What holds of a file while its lexer reads it: the table has what the modes record of the text
up to the cursor. -/
structure Lexing (env : LexEnv) (o : Opened) : Prop where
  start : o.file.range.start < 2 ^ 32
  stop : o.file.range.stop = progPos (o.file.range.start + o.file.code.chars.length)
  terminated : Terminated o.cur
  suffix : o.cur <:+ o.file.code.str.text
  lines : ∀ cut, linesCut (o.file.lexer env) cut .code o.file.code.str.text =
    (linesCut (o.file.lexer env) cut .code o.cur).map (o.file.linePos ++ ·)

theorem Lexing.scan {token : Token} {cur : List Char} {errors : List LexError}
    {linePos : List Nat} (h : Lexing env o)
    (hscan : scanToken (o.file.lexer env) o.cur ⟨some o.errors, some o.file.linePos⟩ =
      some (token, cur, ⟨some errors, some linePos⟩)) :
    Lexing env ⟨{ o.file with linePos }, cur, errors⟩ := by
  obtain ⟨hfollows, -⟩ := scanToken_follows (o.file.lexer env) h.terminated
    ⟨some o.errors, some o.file.linePos⟩
  rw [hscan] at hfollows
  have hscans : Scans (o.file.lexer env) .code o.cur ⟨some o.errors, some o.file.linePos⟩ .code cur
    ⟨some errors, some linePos⟩ := hfollows
  obtain ⟨new, hout, hlines⟩ := hscans.lines
  obtain rfl : linePos = o.file.linePos ++ new := Option.some.inj hout
  refine ⟨h.start, h.stop, hscans.terminated, hscans.suffix.trans h.suffix, fun cut => ?_⟩
  refine (h.lines cut).trans ?_
  rw [hlines, Option.map_map]
  simp only [Function.comp_def, List.append_assoc]
  rfl

theorem getCurrSrcPos_lt (h : ∀ o ∈ sources, Lexing env o) :
    getCurrSrcPos sources.files < 2 ^ 32 := by
  unfold getCurrSrcPos Sources.files
  rw [List.getLast?_map]
  cases hlast : sources.getLast? with
  | none => exact Nat.two_pow_pos 32
  | some o =>
    have hstop := (h o (List.mem_of_getLast? hlast)).stop
    show o.file.range.stop < 2 ^ 32
    rw [hstop]
    exact Nat.mod_lt _ (Nat.two_pow_pos 32)

theorem lexing_of_reached (h : SourcesReached env sources) : ∀ o ∈ sources, Lexing env o := by
  induction h with
  | refl => exact fun _ ho => absurd ho List.not_mem_nil
  | tail _ hstep ih =>
    cases hstep with
    | add absPath code =>
      intro o ho
      rcases List.mem_append.mp ho with ho | ho
      · exact ih o ho
      · obtain rfl := List.mem_singleton.mp ho
        refine ⟨getCurrSrcPos_lt ih, rfl, code.str.terminated, List.suffix_rfl, fun cut => ?_⟩
        exact Option.map_id'.symm
    | scan hk hscan =>
      intro o' ho'
      rcases List.mem_or_eq_of_mem_set ho' with ho' | rfl
      · exact ih o' ho'
      · exact (ih _ (List.mem_of_getElem? hk)).scan hscan

/-- How much of its text a lexer has read. -/
def Opened.read (o : Opened) : Nat := o.file.code.str.text.length - o.cur.length

theorem Terminated.exists_append {cur : List Char} (h : Terminated cur) :
    ∃ s, cur = s ++ ['\x00'] ∧ '\x00' ∉ s := by
  induction h with
  | nul => exact ⟨[], rfl, List.not_mem_nil⟩
  | @cons c cs hc _ ih =>
    obtain ⟨s, rfl, hs⟩ := ih
    exact ⟨c :: s, rfl, fun h => (List.mem_cons.mp h).elim (fun h => hc h.symm) hs⟩

theorem SourceText.str_prefix (code : SourceText) : code.str.chars <+: code.chars :=
  List.takeWhile_prefix _

/-- The loop over the table of a file, for a position that has been read. -/
theorem Lexing.lineLoop (h : Lexing env o)
    (hfits : o.file.range.start + o.file.code.chars.length < 2 ^ 32) (ha : a ≤ o.read) :
    lineLoop o.file.range.stop (o.file.range.start + a) o.file.linePos 0 o.file.range.start =
      some (lastLine .code o.file.range.start (o.file.code.chars.take a) 0 o.file.range.start) := by
  obtain ⟨s, hs, hsnul⟩ := h.terminated.exists_append
  have hprefix := o.file.code.str_prefix
  have hle := hprefix.length_le
  have hstop : o.file.range.stop = o.file.range.start + o.file.code.chars.length :=
    h.stop.trans (Nat.mod_eq_of_lt hfits)
  have htext := o.file.code.str.length_text
  have hcur := congrArg List.length hs
  have hsuf := h.suffix.length_le
  rw [List.length_append, List.length_singleton] at hcur
  have hread : o.read = o.file.code.str.chars.length - s.length := by
    unfold Opened.read
    omega
  have hall := h.lines (some [])
  have hwhole := @linesCut_eq (o.file.lexer env) .code o.file.code.str.chars o.file.range.start
    (fun h => o.file.code.str.ne_nul _ h rfl) (by omega)
    (by show o.file.code.str.text.length + o.file.range.start = _; omega)
    (by show _ < o.file.code.str.text.length; omega)
  have hrest := @linesCut_eq (o.file.lexer env) .code s (o.file.range.start + o.read)
    hsnul (by omega) (by show o.file.code.str.text.length + o.file.range.start = _; omega)
    (by show _ < o.file.code.str.text.length; omega)
  rw [hs, hrest] at hall
  rw [show o.file.code.str.text = o.file.code.str.chars ++ ['\x00'] from rfl, hwhole,
    Option.map_some, Option.some.injEq] at hall
  have hbehind : ∀ e ∈ recordedStarts .code (o.file.range.start + o.read) s,
      o.file.range.start + a < e ∧ e ≤ o.file.range.stop := by
    intro e he
    have := recordedStarts_bounds e he
    omega
  rw [← lineLoop_append 0 o.file.range.start hbehind, ← hall,
    lineLoop_recorded 0 o.file.range.start (by omega) (by omega)]
  obtain ⟨w, hw⟩ := hprefix
  rw [← hw, List.take_append_of_le_length (by omega)]

theorem posSub_of_le {a b : Nat} (hab : b ≤ a) (ha : a < 2 ^ 32) : posSub a b = a - b := by
  unfold posSub progPos
  omega

/-- What `get_src_linecol` counts for a position that has been read, before the end of the file. -/
theorem Lexing.linecol_iff (h : Lexing env o)
    (hfits : o.file.range.start + o.file.code.chars.length < 2 ^ 32) (ha : a ≤ o.read)
    (hlt : a < o.file.code.chars.length) :
    getSrcLinecol o.file (o.file.range.start + a) =
        some (lineColAfter (o.file.code.chars.take a)) ↔
      NoEscapedNewline .code (o.file.code.chars.take a) := by
  have hstop : o.file.range.stop = o.file.range.start + o.file.code.chars.length :=
    h.stop.trans (Nat.mod_eq_of_lt hfits)
  have hlen : (o.file.code.chars.take a).length = a := List.length_take_of_le (Nat.le_of_lt hlt)
  obtain ⟨-, hcount⟩ := @lastLine_count .code o.file.range.start (o.file.code.chars.take a) 0
    o.file.range.start
  have hrun : getSrcLinecol o.file (o.file.range.start + a) = _ := if_pos (by omega)
  rw [hrun, h.lineLoop hfits ha]
  simp only [Option.bind_eq_bind, Option.bind_some, Option.some.injEq]
  unfold lineColAfter
  rw [LineCol.mk.injEq]
  rw [Nat.zero_add] at hcount
  constructor
  · rintro ⟨hline, -⟩
    exact hcount.mp (Nat.succ.inj hline)
  · intro hplain
    have hbegin := @lastLine_start .code o.file.range.start _ 0 o.file.range.start hplain
    rw [hlen, ite_self] at hbegin
    refine ⟨congrArg (· + 1) (hcount.mpr hplain), ?_⟩
    rw [posSub_of_le (by omega) (by omega), ← hbegin, Nat.add_sub_cancel_left]
    exact Nat.mod_eq_of_lt (by omega)

/-! ## Reading the text -/

theorem printSpan_reads {file : SourceFile} (newLine : Nat → Piece) {n p : Nat} (line : Nat)
    (h : ∀ q, p ≤ q → q < p + n → posSub q file.range.start < file.code.buf.length) :
    ∃ pieces last, printSpan file newLine n p line = some (pieces, last) := by
  induction n generalizing p line with
  | zero => exact ⟨[], line, rfl⟩
  | succ n ih =>
    have hrest : ∀ q, p + 1 ≤ q → q < p + 1 + n →
        posSub q file.range.start < file.code.buf.length :=
      fun q hle hlt => h q (by omega) (by omega)
    obtain ⟨ch, hread⟩ : ∃ ch, file.code.buf[posSub p file.range.start]? = some ch :=
      ⟨_, List.getElem?_eq_getElem (h p (Nat.le_refl _) (by omega))⟩
    rw [printSpan, hread]
    simp only [Option.bind_eq_bind, Option.bind_some]
    split
    · obtain ⟨pieces, last, hrun⟩ := ih (line + 1) hrest
      exact ⟨newLine (line + 1) :: pieces, last, by rw [hrun]; rfl⟩
    · obtain ⟨pieces, last, hrun⟩ := ih line hrest
      exact ⟨_, last, by rw [hrun]; rfl⟩

theorem printRest_reads {cs : List Char} (h : '\x00' ∈ cs) : ∃ pieces, printRest cs = some pieces := by
  induction cs with
  | nil => exact absurd h List.not_mem_nil
  | cons c cs ih =>
    rw [printRest]
    split
    · rename_i hc
      obtain ⟨pieces, hrun⟩ := ih ((List.mem_cons.mp h).resolve_left (Ne.symm hc.1))
      exact ⟨_, by rw [hrun]; rfl⟩
    · exact ⟨[], rfl⟩

theorem SourceText.length_buf (code : SourceText) : code.buf.length = code.chars.length + 1 := by
  unfold SourceText.buf
  rw [List.length_append, List.length_singleton]

theorem exists_bind {α β : Type} {x : Option α} {f : α → Option β} {y : α} (hx : x = some y)
    (hf : ∃ z, f y = some z) : ∃ z, (x >>= f) = some z := by
  rw [hx]
  exact hf

/-- An error is printed once its file, its line and its column are found and the text is read. -/
theorem printError_reads {files : List SourceFile} {file : SourceFile} {error : SrcError}
    {linecol : LineCol} {useColors testModePaths : Bool} {lineStart : Nat}
    (hfound : getSrcFile files error.range.start = some k) (hk : files[k]? = some file)
    (hlinecol : getSrcLinecol file error.range.start = some linecol)
    (hline : posSub error.range.start (linecol.col - 1) = lineStart)
    (hspan : ∀ q, lineStart ≤ q → q < max error.range.start error.range.stop →
      posSub q file.range.start < file.code.buf.length) (hle : lineStart ≤ error.range.start)
    (hrest : '\x00' ∈ file.code.buf.drop (posSub error.range.stop file.range.start)) :
    ∃ pieces, printError files error useColors testModePaths = some pieces := by
  obtain ⟨rest, hrest⟩ := printRest_reads hrest
  obtain ⟨before, line, hbefore⟩ := @printSpan_reads file .nextLine
    (error.range.start - lineStart) lineStart linecol.line
    (fun q hle' hlt => hspan q hle' (by omega))
  obtain ⟨marked, last, hmarked⟩ := @printSpan_reads file
    (if useColors then Piece.nextRedLine else Piece.nextLine)
    (error.range.stop - error.range.start) error.range.start line
    (fun q hle' hlt => hspan q (by omega) (by omega))
  subst hline
  exact exists_bind hfound (exists_bind hk (exists_bind hlinecol (exists_bind hbefore
    (exists_bind hmarked (exists_bind hrest ⟨_, rfl⟩)))))

/-- An error that ends behind the terminator is not printed. -/
theorem printError_overruns {files : List SourceFile} {file : SourceFile} {error : SrcError}
    {useColors testModePaths : Bool} (hfound : getSrcFile files error.range.start = some k)
    (hk : files[k]? = some file)
    (hover : file.code.buf.length ≤ posSub error.range.stop file.range.start) :
    printError files error useColors testModePaths = none := by
  by_contra hsome
  obtain ⟨pieces, hrun⟩ := Option.ne_none_iff_exists'.mp hsome
  obtain ⟨i, hi, hrun⟩ := Option.bind_eq_some_iff.mp hrun
  obtain rfl : i = k := Option.some.inj (hi.symm.trans hfound)
  obtain ⟨file', hfile', hrun⟩ := Option.bind_eq_some_iff.mp hrun
  obtain rfl : file' = file := Option.some.inj (hfile'.symm.trans hk)
  obtain ⟨linecol, -, hrun⟩ := Option.bind_eq_some_iff.mp hrun
  obtain ⟨before, -, hrun⟩ := Option.bind_eq_some_iff.mp hrun
  obtain ⟨marked, -, hrun⟩ := Option.bind_eq_some_iff.mp hrun
  obtain ⟨rest, hrest, -⟩ := Option.bind_eq_some_iff.mp hrun
  rw [List.drop_eq_nil_of_le hover] at hrest
  cases hrest

/-! ## Where an error is printed -/

/-- The range of an error in a file, by where it begins and ends in the text. -/
def Opened.errorRange (o : Opened) (a b : Nat) : ProgRange :=
  ⟨progPos (o.file.range.start + a), progPos (o.file.range.start + b)⟩

/-- The file, the line and the column are those of the error, no assertion fails and nothing
outside the text and its terminator is read. -/
structure PrintsRight (sources : Sources) (k : Nat) (o : Opened) (a b : Nat) : Prop where
  file : getSrcFile sources.files (o.errorRange a b).start = some k
  linecol : getSrcLinecol o.file (o.errorRange a b).start =
    some (lineColAfter (o.file.code.chars.take a))
  reads : ∀ msg useColors testModePaths, ∃ pieces,
    printError sources.files ⟨o.errorRange a b, msg⟩ useColors testModePaths = some pieces

/-- The positions of the file do not run over, no file before it has positions behind the start of
the error, the error begins before the end of the text and ends no later than that, and no newline
before it is an escape. -/
structure Printable (sources : Sources) (k : Nat) (o : Opened) (a b : Nat) : Prop where
  fits : o.file.range.start + o.file.code.chars.length < 2 ^ 32
  earlier : ∀ file ∈ sources.files.take k, file.range.stop ≤ o.file.range.start + a
  begins : a < o.file.code.chars.length
  ends : b ≤ o.file.code.chars.length
  plain : NoEscapedNewline .code (o.file.code.chars.take a)

theorem getSrcFile_eq_iff {files : List SourceFile} {file : SourceFile} {pos : Nat}
    (hk : files[k]? = some file) : getSrcFile files pos = some k ↔
      pos < file.range.stop ∧ ∀ f ∈ files.take k, f.range.stop ≤ pos := by
  obtain ⟨hlt, rfl⟩ := List.getElem?_eq_some_iff.mp hk
  unfold getSrcFile
  rw [List.findIdx?_eq_some_iff_getElem]
  constructor
  · rintro ⟨_, hpos, hbefore⟩
    refine ⟨of_decide_eq_true hpos, fun f hf => ?_⟩
    obtain ⟨j, hj, rfl⟩ := List.getElem_of_mem hf
    rw [List.length_take] at hj
    have hnot := hbefore j (by omega)
    rw [List.getElem_take]
    simpa using hnot
  · rintro ⟨hpos, hbefore⟩
    refine ⟨hlt, decide_eq_true hpos, fun j hj => ?_⟩
    have hle := hbefore files[j] (List.mem_take_iff_getElem.mpr ⟨j, by omega, rfl⟩)
    simpa using hle

theorem posSub_progPos {start n : Nat} (hstart : start < 2 ^ 32) (hn : n < 2 ^ 32) :
    posSub (progPos (start + n)) start = n := by
  unfold posSub progPos
  omega

/-- What is read of a text ends before its terminator. -/
theorem Lexing.read_le (h : Lexing env o) : o.read ≤ o.file.code.chars.length := by
  obtain ⟨s, hs, -⟩ := h.terminated.exists_append
  have hle := o.file.code.str_prefix.length_le
  have htext := o.file.code.str.length_text
  unfold Opened.read
  rw [hs, List.length_append, List.length_singleton]
  omega

theorem Lexing.printable (h : Lexing env o) (hk : sources[k]? = some o) (ha : a ≤ o.read)
    (hb : b ≤ o.file.code.chars.length + 1) (hright : PrintsRight sources k o a b) :
    Printable sources k o a b := by
  have hfile : sources.files[k]? = some o.file := by
    rw [Sources.files, List.getElem?_map, hk, Option.map_some]
  have hread := h.read_le
  have hsize := o.file.code.fits
  have hstart := h.start
  have hstop := h.stop
  obtain ⟨hpos, hbefore⟩ := (getSrcFile_eq_iff hfile).mp hright.file
  have hlinecol := hright.linecol
  dsimp only [Opened.errorRange] at hpos hbefore hlinecol
  have hle : o.file.range.start ≤ progPos (o.file.range.start + a) := by
    unfold getSrcLinecol at hlinecol
    split at hlinecol
    · rename_i hrange
      exact hrange.1
    · cases hlinecol
  -- A position that has run over lies before the file, and so does an end.
  have hplace : progPos (o.file.range.start + a) = o.file.range.start + a := by
    unfold progPos at hle ⊢
    omega
  have hfits : o.file.range.start + o.file.code.chars.length < 2 ^ 32 := by
    unfold progPos at hstop hle hplace hpos
    omega
  have hend : progPos (o.file.range.start + o.file.code.chars.length) =
      o.file.range.start + o.file.code.chars.length := Nat.mod_eq_of_lt hfits
  rw [hplace] at hpos hbefore hlinecol
  have hbegins : a < o.file.code.chars.length := by omega
  refine ⟨hfits, hbefore, hbegins, ?_, (h.linecol_iff hfits ha hbegins).mp hlinecol⟩
  obtain ⟨pieces, hrun⟩ := hright.reads "" false false
  by_contra hlong
  have hover : o.file.code.buf.length ≤
      posSub (o.errorRange a b).stop o.file.range.start := by
    dsimp only [Opened.errorRange]
    rw [posSub_progPos hstart (by omega), SourceText.length_buf]
    omega
  rw [printError_overruns hright.file hfile hover] at hrun
  cases hrun

theorem Lexing.printsRight (h : Lexing env o) (hk : sources[k]? = some o) (hab : a ≤ b)
    (ha : a ≤ o.read) (hp : Printable sources k o a b) : PrintsRight sources k o a b := by
  have hfile : sources.files[k]? = some o.file := by
    rw [Sources.files, List.getElem?_map, hk, Option.map_some]
  obtain ⟨hfits, hearlier, hbegins, hends, hplain⟩ := hp
  have hstart := h.start
  have hbuf := o.file.code.length_buf
  have hstop : o.file.range.stop = o.file.range.start + o.file.code.chars.length :=
    h.stop.trans (Nat.mod_eq_of_lt hfits)
  have hbegin : progPos (o.file.range.start + a) = o.file.range.start + a :=
    Nat.mod_eq_of_lt (by omega)
  have hend : progPos (o.file.range.start + b) = o.file.range.start + b :=
    Nat.mod_eq_of_lt (by omega)
  have hfound : getSrcFile sources.files (o.file.range.start + a) = some k :=
    (getSrcFile_eq_iff hfile).mpr ⟨by omega, hearlier⟩
  have hlinecol := (h.linecol_iff hfits ha hbegins).mpr hplain
  refine ⟨?_, ?_, fun msg useColors testModePaths => ?_⟩
  · dsimp only [Opened.errorRange]
    rw [hbegin, hfound]
  · dsimp only [Opened.errorRange]
    rw [hbegin, hlinecol]
  have hcol : ((o.file.code.chars.take a).rtakeWhile (· ≠ '\n')).length ≤ a :=
    ((List.rtakeWhile_suffix _ _).length_le).trans
      (List.length_take_of_le (Nat.le_of_lt hbegins)).le
  have hcolumn : (lineColAfter (o.file.code.chars.take a)).col - 1 =
      ((o.file.code.chars.take a).rtakeWhile (· ≠ '\n')).length := Nat.add_sub_cancel _ _
  have hinside : ∀ q, o.file.range.start ≤ q → q < o.file.range.start + b →
      posSub q o.file.range.start < o.file.code.buf.length := by
    intro q hle hlt
    rw [posSub_of_le hle (by omega)]
    omega
  have hback : posSub (o.file.range.start + b) o.file.range.start = b := by
    rw [posSub_of_le (Nat.le_add_right _ _) (by omega), Nat.add_sub_cancel_left]
  have hnul : '\x00' ∈ o.file.code.buf.drop b := by
    unfold SourceText.buf
    rw [List.drop_append_of_le_length hends]
    exact List.mem_append_right _ (List.mem_singleton_self _)
  have hrange : o.errorRange a b = ⟨o.file.range.start + a, o.file.range.start + b⟩ := by
    unfold Opened.errorRange
    rw [hbegin, hend]
  rw [hrange]
  refine printError_reads hfound hfile hlinecol (posSub_of_le ?_ ?_) ?_ (Nat.sub_le _ _) ?_
  · show (lineColAfter (o.file.code.chars.take a)).col - 1 ≤ o.file.range.start + a
    rw [hcolumn]
    exact Nat.le_trans hcol (Nat.le_add_left _ _)
  · show o.file.range.start + a < 2 ^ 32
    omega
  · intro q hle hlt
    dsimp only at hle hlt
    rw [hcolumn] at hle
    exact hinside q (by omega) (by omega)
  · dsimp only
    rw [hback]
    exact hnul

/-- Errors of a file, wherever they come from: they begin in what the lexer has read, and end no
later than behind the terminator. -/
theorem print_error_exact (h : SourcesReached env sources) (hk : sources[k]? = some o) (hab : a ≤ b)
    (ha : a ≤ o.read) (hb : b ≤ o.file.code.chars.length + 1) :
    PrintsRight sources k o a b ↔ Printable sources k o a b := by
  have hlexing := lexing_of_reached h o (List.mem_of_getElem? hk)
  exact ⟨hlexing.printable hk ha hb, hlexing.printsRight hk hab ha⟩

/-- A lexer's surroundings without keywords and floating-point numbers. -/
def namesOnly : LexEnv := ⟨fun _ => .name, fun _ => none, fun _ => none⟩

/-- The file of one name of one letter. -/
def oneLetter : SourceText := ⟨['x'], by simp, by simp⟩

/-- The file of one quote. -/
def oneQuote : SourceText := ⟨['"'], by simp, by simp⟩

/-- The only file, before a token of it is read. -/
def opened (code : SourceText) : Opened := ⟨newSrcFile [] [] code, code.str.text, []⟩

theorem reached_opened (code : SourceText) : SourcesReached namesOnly [opened code] :=
  .single (.add [] [] code)

theorem print_error_exact_one_letter :
    PrintsRight [opened oneLetter] 0 (opened oneLetter) 0 1 ↔
      Printable [opened oneLetter] 0 (opened oneLetter) 0 1 :=
  print_error_exact (reached_opened oneLetter) rfl (by decide) (Nat.zero_le _) (by decide)

/-- The only file is a quote. The error of its literal ends behind the terminator, and there
`print_error` reads on; the range of its end is in no file. -/
theorem print_error_not_right :
    ∃ sources o, SourcesReached namesOnly sources ∧ sources[0]? = some o ∧
      (∃ e ∈ o.errors, e.range = o.errorRange 0 2 ∧ ∀ msg useColors testModePaths,
        printError sources.files ⟨e.range, msg⟩ useColors testModePaths = none) ∧
      getSrcFile sources.files (o.errorRange 1 1).start = none := by
  have hscan : scanToken ((opened oneQuote).file.lexer namesOnly) (opened oneQuote).cur
      ⟨some [], some []⟩ = some (⟨.str, ⟨0, 1⟩, .asStr []⟩, ['\x00'], ⟨some [⟨⟨0, 2⟩,
        "Encountered end-of-file while parsing string literal", []⟩], some []⟩) := rfl
  refine ⟨_, ⟨(opened oneQuote).file, ['\x00'], _⟩,
    (reached_opened oneQuote).tail (.scan (k := 0) rfl hscan), rfl,
    ⟨_, List.mem_singleton_self _, rfl, fun msg useColors testModePaths => ?_⟩, by decide⟩
  have hfound : getSrcFile [newSrcFile [] [] oneQuote] 0 = some 0 := by decide
  have hover : oneQuote.buf.length ≤ posSub 2 0 := by decide
  exact printError_overruns hfound rfl hover

end Nibble.Front
