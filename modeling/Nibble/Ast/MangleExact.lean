import Mathlib.Data.List.TakeWhile
import Nibble.Ast.Mangle
import Nibble.Print.FormatExact

/-!
# When names in the output are unique

The name of an emitted symbol is `main` or `module`, the number of its module, an underscore and
its own name. The digits of a number end at the underscore, so that two such names are the same
only for one name in modules whose numbers are; labels start with `L.`, and the names of literals
with an underscore. A foreign procedure has the name that it is given.
-/

namespace Nibble.Ast

open Nibble.Print

/-! ## Printed texts -/

/-- Characters of a format that stand for themselves. -/
def ordinaryItems (cs : List Char) (h : ∀ c ∈ cs, c ≠ '%' ∧ c ≠ '\x00') : List Item :=
  cs.pmap Item.ordinary h

theorem ordinaryItems_text {cs : List Char} (h : ∀ c ∈ cs, c ≠ '%' ∧ c ≠ '\x00') :
    (ordinaryItems cs h).flatMap Item.text = cs := by
  induction cs with
  | nil => rfl
  | cons c cs ih =>
    rw [ordinaryItems, List.pmap_cons, List.flatMap_cons]
    exact congrArg (c :: ·) (ih fun d hd => h d (List.mem_cons_of_mem c hd))

theorem ordinaryItems_args {cs : List Char} (h : ∀ c ∈ cs, c ≠ '%' ∧ c ≠ '\x00') :
    (ordinaryItems cs h).flatMap Item.args = [] := by
  induction cs with
  | nil => rfl
  | cons c cs ih =>
    rw [ordinaryItems, List.pmap_cons, List.flatMap_cons]
    exact ih fun d hd => h d (List.mem_cons_of_mem c hd)

theorem ordinaryItems_put {cs : List Char} (h : ∀ c ∈ cs, c ≠ '%' ∧ c ≠ '\x00') :
    (ordinaryItems cs h).flatMap (fun i => putText i.put) = cs.map Char.toNat := by
  induction cs with
  | nil => rfl
  | cons c cs ih =>
    rw [ordinaryItems, List.pmap_cons, List.flatMap_cons, List.map_cons]
    exact congrArg (c.toNat :: ·) (ih fun d hd => h d (List.mem_cons_of_mem c hd))

theorem ordinaryItems_kept {cs : List Char} (h : ∀ c ∈ cs, c ≠ '%' ∧ c ≠ '\x00') {s : Specifier} :
    .specifier s ∉ ordinaryItems cs h := by
  intro hs
  obtain ⟨c, hc, he⟩ := List.mem_pmap.mp hs
  cases he

/-- A format whose specifiers are kept. -/
theorem ftprintCharArray_items {format : String} {items : List Item} {args : List Arg}
    (htext : format.toList = items.flatMap Item.text) (hargs : args = items.flatMap Item.args)
    (hkept : ∀ s, .specifier s ∈ items → s.Kept) :
    ftprintCharArray format args = some (items.flatMap fun i => putText i.put) := by
  rw [ftprintCharArray, htext, hargs, ftprintv,
    (ftprintvLoop_iff items (Nat.le_refl _)).mpr hkept, Option.map_some, List.flatMap_append,
    List.flatMap_map]
  exact congrArg some (List.append_nil _)

/-- `%u` and `%llu` -/
def unsigned (length : Length) (value : BitVec length.bits) : Specifier where
  flags := []
  width := .omitted
  precision := .omitted
  length
  operand := .number .u value

/-- `%s` -/
def string (value : List UInt8) : Specifier where
  flags := []
  width := .omitted
  precision := .omitted
  length := .omitted
  operand := .string value

/-- A number in decimal. -/
def decText (n : Nat) : List Nat := ((numeral 10 n none).map (digitCode false)).reverse

theorem unsigned_kept {length : Length} (value : BitVec length.bits) :
    (unsigned length value).Kept := by
  refine ⟨fun w h => (nomatch h), ?_⟩
  have hlt : (Conv.u.value value).natAbs < 10 ^ 32 := by
    have hlt := (value.setWidth length.kept).isLt
    have hpow : 2 ^ length.kept ≤ 2 ^ 64 := Nat.pow_le_pow_right (by decide) length.kept_le
    have hvalue : (Conv.u.value value).natAbs = (value.setWidth length.kept).toNat := rfl
    omega
  simp only [unsigned, NumberKept, Precision.read, reduceCtorEq, and_false, if_false,
    List.not_mem_nil, decide_false, Bool.false_eq_true, false_and, Precision.asked, Width.read,
    Width.asked, and_self, and_true]
  exact hlt

theorem unsigned_text {length : Length} (value : BitVec length.bits) :
    putText (Item.specifier (unsigned length value)).put =
      decText (value.setWidth length.kept).toNat := by
  simp only [Item.put, putText, Specifier.field, unsigned, List.not_mem_nil, decide_false, laid,
    Bool.false_eq_true, if_false, Width.asked, Nat.zero_sub, spaces, List.replicate_zero,
    List.nil_append, List.append_nil, body, Precision.asked, Option.getD_none, zeros, head, false_and,
    Conv.value, Conv.signed, Int.natAbs_natCast]
  rw [if_neg (Int.not_lt.mpr (Int.natCast_nonneg _))]
  rfl

theorem unsigned_text_word (value : BitVec 32) :
    putText (Item.specifier (unsigned .omitted value)).put = decText value.toNat := by
  refine (@unsigned_text .omitted value).trans (congrArg decText ?_)
  exact congrArg BitVec.toNat (@BitVec.setWidth_eq 32 value)

theorem unsigned_text_long (value : BitVec 64) :
    putText (Item.specifier (unsigned .ll value)).put = decText value.toNat := by
  refine (@unsigned_text .ll value).trans (congrArg decText ?_)
  exact congrArg BitVec.toNat (@BitVec.setWidth_eq 64 value)

theorem string_kept (value : List UInt8) : (string value).Kept := by
  refine ⟨fun w h => (nomatch h), rfl, ?_⟩
  simp only [string, Width.read, Width.asked, Nat.zero_sub]

theorem string_text (value : List UInt8) :
    putText (Item.specifier (string value)).put = (cstr value).map UInt8.toNat := by
  simp only [Item.put, putText, Specifier.field, string, List.not_mem_nil, decide_false, laid,
    Bool.false_eq_true, if_false, Width.asked, Nat.zero_sub, spaces, List.replicate_zero,
    List.nil_append, List.append_nil, cut, Precision.asked]

/-! ## Decimal numbers -/

theorem decText_digit {n : Nat} : ∀ c ∈ decText n, 48 ≤ c ∧ c ≤ 57 := by
  intro c hc
  obtain ⟨d, hd, rfl⟩ := List.mem_map.mp (List.mem_reverse.mp hc)
  have hlt := numeral_lt (by decide) none d hd
  rw [digitCode, if_neg (by omega)]
  omega

theorem decText_inj {m n : Nat} : decText m = decText n ↔ m = n := by
  refine ⟨fun h => ?_, congrArg decText⟩
  have hdigits := List.map_injective_iff.mpr (digitCode_injective false) (List.reverse_injective h)
  have hvalue := congrArg (Nat.ofDigits 10) hdigits
  rwa [ofDigits_numeral, ofDigits_numeral] at hvalue

/-- What stands in front of the first separator is determined. -/
theorem append_cons_inj {α : Type*} {c : α} {xs ys as bs : List α} (hx : c ∉ xs) (hy : c ∉ ys) :
    xs ++ c :: as = ys ++ c :: bs ↔ xs = ys ∧ as = bs := by
  refine ⟨fun h => ?_, fun ⟨h, h'⟩ => by rw [h, h']⟩
  induction xs generalizing ys with
  | nil =>
    cases ys with
    | nil => exact ⟨rfl, (List.cons.inj h).2⟩
    | cons y ys => exact absurd ((List.cons.inj h).1 ▸ List.mem_cons_self) hy
  | cons x xs ih =>
    cases ys with
    | nil => exact absurd ((List.cons.inj h).1 ▸ List.mem_cons_self) hx
    | cons y ys =>
      obtain ⟨hxy, h⟩ := List.cons.inj h
      obtain ⟨hxs, has⟩ := ih (fun hm => hx (List.mem_cons_of_mem x hm))
        (fun hm => hy (List.mem_cons_of_mem y hm)) h
      exact ⟨by rw [hxy, hxs], has⟩

/-! ## Mangled names -/

/-- The name of a symbol of the module `k`. -/
def qualified (k : Nat) (name : Ident) : List Nat :=
  codes "module" ++ decText k ++ 95 :: name.str.map UInt8.toNat

/-- An identifier has no NUL and no separator of a path. -/
theorem Ident.char (name : Ident) {c : UInt8} (hc : c ∈ name.str) : c ≠ 0 ∧ c ≠ 47 := by
  have hno : (¬ Front.isAlphanum (Front.chr 0) = true ∧ Front.chr 0 ≠ '#') ∧
      ¬ Front.isAlphanum (Front.chr 47) = true ∧ Front.chr 47 ≠ '#' := by decide +kernel
  have hchar := name.chars c hc
  constructor
  · rintro rfl
    exact hchar.elim hno.1.1 hno.1.2
  · rintro rfl
    exact hchar.elim hno.2.1 hno.2.2

theorem Ident.cstr_eq (name : Ident) : cstr name.str = name.str :=
  List.takeWhile_eq_self_iff.mpr fun _ hc => decide_eq_true (name.char hc).1

theorem replacePathSep_eq {text : List Nat} (h : 47 ∉ text) : replacePathSep text = text := by
  rw [replacePathSep]
  refine (List.map_congr_left fun c hc => ?_).trans (List.map_id text)
  have hne : c ≠ 47 := by
    rintro rfl
    exact h hc
  rw [if_neg hne, id]

theorem Ident.notMem (name : Ident) : 47 ∉ name.str.map UInt8.toNat := by
  intro h
  obtain ⟨c, hc, he⟩ := List.mem_map.mp h
  exact (name.char hc).2 (UInt8.toNat_inj.mp he)

theorem Ident.map_inj {m n : Ident} : m.str.map UInt8.toNat = n.str.map UInt8.toNat ↔ m = n := by
  have hinj : Function.Injective UInt8.toNat := fun _ _ => UInt8.toNat_inj.mp
  refine ⟨fun h => ?_, fun h => by rw [h]⟩
  have hstr := List.map_injective_iff.mpr hinj h
  cases m
  cases n
  cases hstr
  rfl

/-- The items of `module%u_%s` -/
def qualifiedItems (k : BitVec 32) (name : Ident) : List Item :=
  ordinaryItems "module".toList (List.all_iff_forall_prop.mp (by decide)) ++
    [.specifier (unsigned .omitted k)] ++
    ordinaryItems ['_'] (by simp) ++ [.specifier (string name.str)]

theorem ftprintCharArray_qualified (home : Nat) (name : Ident) :
    ftprintCharArray "module%u_%s" [.int (BitVec.ofNat 32 home), .str (some name.str)] =
      some (qualified (home % 2 ^ 32) name) := by
  rw [@ftprintCharArray_items _ (qualifiedItems (BitVec.ofNat 32 home) name)]
  · rw [qualifiedItems]
    simp only [List.flatMap_append, ordinaryItems_put, List.flatMap_singleton, string_text,
      name.cstr_eq]
    rw [unsigned_text_word, BitVec.toNat_ofNat, qualified, List.append_assoc (_ ++ _)]
    rfl
  · simp only [qualifiedItems, List.flatMap_append, ordinaryItems_text, List.flatMap_singleton]
    rfl
  · simp only [qualifiedItems, List.flatMap_append, ordinaryItems_args, List.flatMap_singleton]
    rfl
  · intro s hs
    simp only [qualifiedItems, List.mem_append, List.mem_singleton, ordinaryItems_kept, false_or,
      or_false, Item.specifier.injEq] at hs
    rcases hs with rfl | rfl
    · exact unsigned_kept _
    · exact string_kept _

theorem ftprintCharArray_name (name : Ident) :
    ftprintCharArray "%s" [.str (some name.str)] = some (name.str.map UInt8.toNat) := by
  rw [@ftprintCharArray_items "%s" [.specifier (string name.str)] [.str (some name.str)] rfl rfl]
  · rw [List.flatMap_singleton, string_text, name.cstr_eq]
  · intro s hs
    obtain rfl := Item.specifier.inj (List.mem_singleton.mp hs)
    exact string_kept _

/-- A symbol is not foreign. -/
def GlobalSym.IsNative (sym : GlobalSym) : Prop := ∀ nameArg, sym.kind ≠ .foreign nameArg

theorem symbolMangledName_eq {sym : GlobalSym} (h : sym.IsNative) :
    symbolMangledName sym = some (if sym.name = mainProcIdent then
      mainProcIdent.str.map UInt8.toNat else qualified (sym.home % 2 ^ 32) sym.name) := by
  have hsep : 47 ∉ qualified (sym.home % 2 ^ 32) sym.name := by
    have hprefix : 47 ∉ codes "module" := by decide
    rw [qualified, List.mem_append, List.mem_append, List.mem_cons]
    rintro ((hm | hm) | hm | hm)
    · exact hprefix hm
    · have := decText_digit 47 hm
      omega
    · cases hm
    · exact sym.name.notMem hm
  rw [symbolMangledName]
  split
  case h_1 he => exact absurd he (h _)
  case h_2 =>
    split
    case isTrue hmain =>
      rw [ftprintCharArray_name, Option.bind_eq_bind, Option.bind_some, hmain]
      exact congrArg some (replacePathSep_eq mainProcIdent.notMem)
    case isFalse =>
      rw [ftprintCharArray_qualified, Option.bind_eq_bind, Option.bind_some]
      exact congrArg some (replacePathSep_eq hsep)

theorem qualified_inj {j k : Nat} {m n : Ident} :
    qualified j m = qualified k n ↔ j = k ∧ m = n := by
  have hsep : ∀ k, 95 ∉ decText k := fun k h => by
    have := decText_digit 95 h
    omega
  rw [qualified, qualified, List.append_assoc, List.append_assoc, List.append_cancel_left_eq,
    append_cons_inj (hsep j) (hsep k), decText_inj, Ident.map_inj]

theorem main_ne_qualified {k : Nat} {name : Ident} :
    mainProcIdent.str.map UInt8.toNat ≠ qualified k name := by
  intro h
  have hmain : (mainProcIdent.str.map UInt8.toNat)[1]? = some 97 := rfl
  have hmodule : (qualified k name)[1]? = some 111 := rfl
  rw [h, hmodule] at hmain
  cases hmain

/-- Two names are the same where both are `main`, or where neither is and the symbols have one name
in modules whose numbers are told apart by their lower halves only. -/
theorem symbolMangledName_inj {s t : GlobalSym} (hs : s.IsNative) (ht : t.IsNative) :
    symbolMangledName s = symbolMangledName t ↔ s.name = t.name ∧
      (s.name ≠ mainProcIdent → s.home % 2 ^ 32 = t.home % 2 ^ 32) := by
  rw [symbolMangledName_eq hs, symbolMangledName_eq ht, Option.some.injEq]
  by_cases hsm : s.name = mainProcIdent
  · rw [if_pos hsm]
    by_cases htm : t.name = mainProcIdent
    · rw [if_pos htm]
      exact iff_of_true rfl ⟨hsm.trans htm.symm, fun h => absurd hsm h⟩
    · rw [if_neg htm]
      exact iff_of_false main_ne_qualified fun h => htm (h.1.symm.trans hsm)
  · rw [if_neg hsm]
    by_cases htm : t.name = mainProcIdent
    · rw [if_pos htm]
      exact iff_of_false (fun h => main_ne_qualified h.symm) fun h => hsm (h.1.trans htm)
    · rw [if_neg htm, qualified_inj]
      exact ⟨fun h => ⟨h.2, fun _ => h.1⟩, fun h => ⟨h.2 hsm, h.1⟩⟩

/-! ## Labels -/

/-- The first character of a mangled name. -/
theorem symbolMangledName_head {sym : GlobalSym} (h : sym.IsNative) :
    ∃ text, symbolMangledName sym = some (109 :: text) := by
  rw [symbolMangledName_eq h]
  split
  · exact ⟨_, rfl⟩
  · exact ⟨_, rfl⟩

/-- The items of `L.%llu.%u` -/
def labelItems (procId : BitVec 64) (bblockIdx : BitVec 32) : List Item :=
  ordinaryItems ['L', '.'] (by simp) ++ [.specifier (unsigned .ll procId)] ++
    ordinaryItems ['.'] (by simp) ++ [.specifier (unsigned .omitted bblockIdx)]

theorem nasmGetLabel_eq (procId : BitVec 64) (bblockIdx : BitVec 32) :
    nasmGetLabel procId bblockIdx =
      some ([76, 46] ++ decText procId.toNat ++ [46] ++ decText bblockIdx.toNat) := by
  rw [nasmGetLabel, @ftprintCharArray_items _ (labelItems procId bblockIdx)]
  · rw [labelItems]
    simp only [List.flatMap_append, ordinaryItems_put, List.flatMap_singleton]
    rw [unsigned_text_word, unsigned_text_long]
    rfl
  · simp only [labelItems, List.flatMap_append, ordinaryItems_text, List.flatMap_singleton]
    rfl
  · simp only [labelItems, List.flatMap_append, ordinaryItems_args, List.flatMap_singleton]
    rfl
  · intro s hs
    simp only [labelItems, List.mem_append, List.mem_singleton, ordinaryItems_kept, false_or,
      or_false, Item.specifier.injEq] at hs
    rcases hs with rfl | rfl
    · exact @unsigned_kept .ll procId
    · exact @unsigned_kept .omitted bblockIdx

/-- The items of `%s_%llu` -/
def literalItems (pre : List UInt8) (index : BitVec 64) : List Item :=
  [.specifier (string pre)] ++ ordinaryItems ['_'] (by simp) ++
    [.specifier (unsigned .ll index)]

theorem ftprintCharArray_literal (pre : List UInt8) (index : BitVec 64) :
    ftprintCharArray "%s_%llu" [.str (some pre), .long index] =
      some ((cstr pre).map UInt8.toNat ++ [95] ++ decText index.toNat) := by
  rw [@ftprintCharArray_items _ (literalItems pre index)]
  · rw [literalItems]
    simp only [List.flatMap_append, ordinaryItems_put, List.flatMap_singleton, string_text]
    rw [unsigned_text_long]
    rfl
  · simp only [literalItems, List.flatMap_append, ordinaryItems_text, List.flatMap_singleton]
    rfl
  · simp only [literalItems, List.flatMap_append, ordinaryItems_args, List.flatMap_singleton]
    rfl
  · intro s hs
    simp only [literalItems, List.mem_append, List.mem_singleton, ordinaryItems_kept, or_false,
      Item.specifier.injEq] at hs
    rcases hs with rfl | rfl
    · exact string_kept _
    · exact @unsigned_kept .ll index

/-- No label and no literal has the name of an emitted symbol. -/
theorem symbolMangledName_ne_label {sym : GlobalSym} (h : sym.IsNative) (procId : BitVec 64)
    (bblockIdx : BitVec 32) : symbolMangledName sym ≠ nasmGetLabel procId bblockIdx := by
  obtain ⟨text, htext⟩ := symbolMangledName_head h
  rw [htext, nasmGetLabel_eq]
  intro he
  have := (List.cons.inj (Option.some.inj he)).1
  omega

theorem symbolMangledName_ne_literal {sym : GlobalSym} (h : sym.IsNative) (index : BitVec 64) :
    symbolMangledName sym ≠ nasmFloatLitMangledName index ∧
      symbolMangledName sym ≠ nasmStrLitName index := by
  obtain ⟨text, htext⟩ := symbolMangledName_head h
  have hfloat : ∃ rest, (cstr X64_NASM_FLOAT_LIT_PRE).map UInt8.toNat = 95 :: rest := ⟨_, rfl⟩
  have hstr : ∃ rest, (cstr X64_NASM_STR_LIT_PRE).map UInt8.toNat = 95 :: rest := ⟨_, rfl⟩
  obtain ⟨frest, hfloat⟩ := hfloat
  obtain ⟨srest, hstr⟩ := hstr
  rw [htext, nasmFloatLitMangledName, nasmStrLitName, ftprintCharArray_literal,
    ftprintCharArray_literal, hfloat, hstr]
  constructor
  all_goals
    intro he
    have := (List.cons.inj (Option.some.inj he)).1
    omega

/-! ## Programs -/

namespace Names

/-- A name is declared once in its module, and a symbol that is resolved is declared and in one of
the lists. -/
structure Inv (b : Names) : Prop where
  decls : ∀ s ∈ b.decls, ∀ t ∈ b.decls, s.home = t.home → s.name = t.name → s = t
  declared : ∀ s ∈ b.resolved, s ∈ b.decls
  nodup : b.resolved.Nodup
  vars : ∀ s ∈ b.vars, s.kind = .var
  procs : ∀ s ∈ b.procs, ∃ isIncomplete, s.kind = .proc isIncomplete

theorem Inv.installModuleDecl {b b' : Names} {sym : GlobalSym} (h : b.Inv)
    (hb : b.installModuleDecl sym = some b') : b'.Inv := by
  unfold Names.installModuleDecl at hb
  split at hb
  case isFalse => cases hb
  case isTrue hfree =>
    cases hb
    refine ⟨?_, fun s hs => List.mem_append_left _ (h.declared s hs), h.nodup, h.vars, h.procs⟩
    intro s hs t ht hhome hname
    rcases List.mem_append.mp hs with hsd | hsn <;> rcases List.mem_append.mp ht with htd | htn
    · exact h.decls s hsd t htd hhome hname
    · obtain rfl := List.mem_singleton.mp htn
      exact absurd ⟨hhome, hname⟩ (hfree.2 s hsd)
    · obtain rfl := List.mem_singleton.mp hsn
      exact absurd ⟨hhome.symm, hname.symm⟩ (hfree.2 t htd)
    · rw [List.mem_singleton.mp hsn, List.mem_singleton.mp htn]

/-- A symbol more in one of the lists. -/
theorem nodup_insert {vars procs foreigns : List GlobalSym} {sym : GlobalSym}
    (h : (vars ++ procs ++ foreigns).Nodup) (hnew : sym ∉ vars ++ procs ++ foreigns) :
    ((vars ++ [sym]) ++ procs ++ foreigns).Nodup ∧ (vars ++ (procs ++ [sym]) ++ foreigns).Nodup ∧
      (vars ++ procs ++ (foreigns ++ [sym])).Nodup := by
  have hall : (sym :: (vars ++ procs ++ foreigns)).Nodup := List.nodup_cons.mpr ⟨hnew, h⟩
  refine ⟨hall.perm ?_, hall.perm ?_, hall.perm ?_⟩
  · simp only [List.append_assoc, List.singleton_append]
    exact List.perm_middle.symm
  · rw [← List.append_assoc, List.append_assoc (vars ++ procs), List.singleton_append]
    exact List.perm_middle.symm
  · rw [← List.append_assoc]
    exact (List.perm_append_singleton _ _).symm

theorem Inv.resolveSymbol {b b' : Names} {sym : GlobalSym} (h : b.Inv)
    (hb : b.resolveSymbol sym = some b') : b'.Inv := by
  unfold Names.resolveSymbol at hb
  split at hb
  case isFalse => cases hb
  case isTrue hnew =>
    obtain ⟨hdecl, hnew⟩ := hnew
    obtain ⟨hvars, hprocs, hforeigns⟩ := nodup_insert h.nodup hnew
    have hmem : ∀ {s : GlobalSym} {xs : List GlobalSym}, s ∈ xs ++ [sym] → s ∈ xs ∨ s = sym :=
      fun hs => (List.mem_append.mp hs).imp_right List.mem_singleton.mp
    have hdeclared : ∀ s, s ∈ b.resolved ∨ s = sym → s ∈ b.decls := fun s hs =>
      hs.elim (h.declared s) fun he => he ▸ hdecl
    split at hb
    case h_1 hkind =>
      cases hb
      refine ⟨h.decls, fun s hs => hdeclared s ?_, hvars, fun s hs => ?_, h.procs⟩
      · simp only [resolved, List.mem_append, List.mem_singleton] at hs ⊢
        tauto
      · exact (hmem hs).elim (h.vars s) fun he => he ▸ hkind
    case h_2 hkind =>
      cases hb
      refine ⟨h.decls, fun s hs => hdeclared s ?_, hprocs, h.vars, fun s hs => ?_⟩
      · simp only [resolved, List.mem_append, List.mem_singleton] at hs ⊢
        tauto
      · exact (hmem hs).elim (h.procs s) fun he => ⟨_, he ▸ hkind⟩
    case h_3 =>
      split at hb
      · cases hb
        refine ⟨h.decls, fun s hs => hdeclared s ?_, hforeigns, h.vars, h.procs⟩
        simp only [resolved, List.mem_append, List.mem_singleton] at hs ⊢
        tauto
      · cases hb

theorem Reached.inv {b : Names} (h : Reached b) : b.Inv := by
  induction h with
  | start =>
    exact ⟨fun _ hs => absurd hs List.not_mem_nil, fun _ hs => absurd hs List.not_mem_nil,
      List.nodup_nil, fun _ hs => absurd hs List.not_mem_nil,
      fun _ hs => absurd hs List.not_mem_nil⟩
  | addModule _ absPath hb ih =>
    unfold Names.addModule at hb
    split at hb
    · cases hb
    · cases hb
      exact ⟨ih.decls, ih.declared, ih.nodup, ih.vars, ih.procs⟩
  | installModuleDecl _ sym hb ih => exact ih.installModuleDecl hb
  | resolveSymbol _ sym hb ih => exact ih.resolveSymbol hb

section

variable {b : Names}

theorem Inv.emitted_nodup (h : b.Inv) : b.emitted.Nodup := by
  have hsub : b.emitted.Sublist b.resolved := by
    refine (List.Sublist.append_left List.filter_sublist b.vars).trans ?_
    exact List.sublist_append_left _ b.foreignProcs
  exact h.nodup.sublist hsub

theorem Inv.of_emitted (h : b.Inv) {s : GlobalSym} (hs : s ∈ b.emitted) :
    s ∈ b.decls ∧ s.IsNative := by
  rcases List.mem_append.mp hs with hs | hs
  · refine ⟨h.declared s (List.mem_append_left _ (List.mem_append_left _ hs)), fun arg he => ?_⟩
    cases (h.vars s hs).symm.trans he
  · have hs := (List.mem_filter.mp hs).1
    obtain ⟨isIncomplete, hkind⟩ := h.procs s hs
    refine ⟨h.declared s (List.mem_append_left _ (List.mem_append_right _ hs)), fun arg he => ?_⟩
    cases hkind.symm.trans he

end

/-- The names in the output are unique. -/
structure Unique (b : Names) : Prop where
  emitted : (b.emitted.map symbolMangledName).Nodup
  foreign : ∀ s ∈ b.emitted, ∀ f ∈ b.foreignProcs,
    symbolMangledName s ≠ some (f.foreignName.map UInt8.toNat)
  label : ∀ s ∈ b.emitted, ∀ procId bblockIdx, symbolMangledName s ≠ nasmGetLabel procId bblockIdx
  literal : ∀ s ∈ b.emitted, ∀ index, symbolMangledName s ≠ nasmFloatLitMangledName index ∧
    symbolMangledName s ≠ nasmStrLitName index

/-- One emitted symbol at most is called `main`, modules that emit one name have numbers with
different lower halves, and no foreign procedure is called `main` beside one that is emitted, or
`module` with the number and the name of an emitted symbol. -/
structure Clear (b : Names) : Prop where
  main : ∀ s ∈ b.emitted, ∀ t ∈ b.emitted, s.name = mainProcIdent → t.name = mainProcIdent → s = t
  modules : ∀ s ∈ b.emitted, ∀ t ∈ b.emitted, s.name = t.name → s.name ≠ mainProcIdent →
    s.home % 2 ^ 32 = t.home % 2 ^ 32 → s.home = t.home
  foreignMain : ∀ f ∈ b.foreignProcs, ∀ s ∈ b.emitted, s.name = mainProcIdent →
    f.foreignName ≠ mainProcIdent.str
  foreignModule : ∀ f ∈ b.foreignProcs, ∀ s ∈ b.emitted, s.name ≠ mainProcIdent →
    f.foreignName.map UInt8.toNat ≠ qualified (s.home % 2 ^ 32) s.name

theorem Inv.emitted_unique_iff {b : Names} (h : b.Inv) :
    (b.emitted.map symbolMangledName).Nodup ↔
      (∀ s ∈ b.emitted, ∀ t ∈ b.emitted, s.name = mainProcIdent → t.name = mainProcIdent → s = t) ∧
      (∀ s ∈ b.emitted, ∀ t ∈ b.emitted, s.name = t.name → s.name ≠ mainProcIdent →
        s.home % 2 ^ 32 = t.home % 2 ^ 32 → s.home = t.home) := by
  rw [List.nodup_map_iff_inj_on h.emitted_nodup]
  constructor
  · intro hinj
    refine ⟨fun s hs t ht hsm htm => hinj s hs t ht ?_, fun s hs t ht hname hm hhome => ?_⟩
    · rw [symbolMangledName_inj (h.of_emitted hs).2 (h.of_emitted ht).2]
      exact ⟨hsm.trans htm.symm, fun hne => absurd hsm hne⟩
    · refine congrArg GlobalSym.home (hinj s hs t ht ?_)
      rw [symbolMangledName_inj (h.of_emitted hs).2 (h.of_emitted ht).2]
      exact ⟨hname, fun _ => hhome⟩
  · rintro ⟨hmain, hmodules⟩ s hs t ht he
    obtain ⟨hsd, hsn⟩ := h.of_emitted hs
    obtain ⟨htd, htn⟩ := h.of_emitted ht
    obtain ⟨hname, hhome⟩ := (symbolMangledName_inj hsn htn).mp he
    by_cases hm : s.name = mainProcIdent
    · exact hmain s hs t ht hm (hname.symm.trans hm)
    · exact h.decls s hsd t htd (hmodules s hs t ht hname hm (hhome hm)) hname

/-- The names in the output are unique exactly when they are clear. -/
theorem Inv.unique_iff {b : Names} (h : b.Inv) : b.Unique ↔ b.Clear := by
  have hinj : Function.Injective UInt8.toNat := fun _ _ => UInt8.toNat_inj.mp
  constructor
  · intro hu
    obtain ⟨hmain, hmodules⟩ := h.emitted_unique_iff.mp hu.emitted
    refine ⟨hmain, hmodules, fun f hf s hs hm he => ?_, fun f hf s hs hm he => ?_⟩
    · refine hu.foreign s hs f hf ?_
      rw [symbolMangledName_eq (h.of_emitted hs).2, if_pos hm, he]
    · refine hu.foreign s hs f hf ?_
      rw [symbolMangledName_eq (h.of_emitted hs).2, if_neg hm, he]
  · intro hc
    refine ⟨h.emitted_unique_iff.mpr ⟨hc.main, hc.modules⟩, fun s hs f hf he => ?_,
      fun s hs => symbolMangledName_ne_label (h.of_emitted hs).2,
      fun s hs => symbolMangledName_ne_literal (h.of_emitted hs).2⟩
    rw [symbolMangledName_eq (h.of_emitted hs).2, Option.some.injEq] at he
    split at he
    case isTrue hm =>
      exact hc.foreignMain f hf s hs hm (List.map_injective_iff.mpr hinj he).symm
    case isFalse hm => exact hc.foreignModule f hf s hs hm he.symm

/-- The names of a program are unique exactly when they are clear. -/
theorem names_unique_iff {b : Names} (h : Reached b) : b.Unique ↔ b.Clear := h.inv.unique_iff

/-- The procedure `main` of a program. -/
def mainProc : GlobalSym := ⟨.proc false, mainProcIdent, 0⟩

/-- A program with that procedure. -/
def oneModule : Names where
  modMap := [[47, 97]]
  decls := [mainProc]
  procs := [mainProc]

theorem reached_oneModule : Reached oneModule := by
  have hmodule : Reached { modMap := [[47, 97]] } := .addModule .start [47, 97] rfl
  have hdecl : Reached { modMap := [[47, 97]], decls := [mainProc] } :=
    .installModuleDecl hmodule mainProc rfl
  exact .resolveSymbol hdecl mainProc rfl

theorem names_unique_one_module : oneModule.Unique := by
  refine (names_unique_iff reached_oneModule).mpr ⟨?_, ?_, ?_, ?_⟩
  · rintro s hs t ht - -
    rw [List.mem_singleton.mp hs, List.mem_singleton.mp ht]
  · rintro s hs t ht - - -
    rw [List.mem_singleton.mp hs, List.mem_singleton.mp ht]
  · exact fun f hf => absurd hf List.not_mem_nil
  · exact fun f hf => absurd hf List.not_mem_nil

/-- A variable `main` in another module. -/
def mainVar : GlobalSym := ⟨.var, mainProcIdent, 1⟩

/-- The program with both. -/
def twoMains : Names where
  modMap := [[47, 97], [47, 98]]
  decls := [mainProc, mainVar]
  procs := [mainProc]
  vars := [mainVar]

theorem reached_twoMains : Reached twoMains := by
  have hmodules : Reached { modMap := [[47, 97], [47, 98]] } :=
    .addModule (.addModule .start [47, 97] rfl) [47, 98] rfl
  have hdecls : Reached { modMap := [[47, 97], [47, 98]], decls := [mainProc, mainVar] } :=
    .installModuleDecl (.installModuleDecl hmodules mainProc rfl) mainVar rfl
  have hproc : Reached { modMap := [[47, 97], [47, 98]], decls := [mainProc, mainVar],
                         procs := [mainProc] } := .resolveSymbol hdecls mainProc rfl
  exact .resolveSymbol hproc mainVar rfl

theorem two_mains_have_one_name : Reached twoMains ∧
    symbolMangledName mainProc = symbolMangledName mainVar ∧ ¬ twoMains.Unique := by
  have hproc : mainProc.IsNative := by
    intro nameArg he
    cases he
  have hvar : mainVar.IsNative := by
    intro nameArg he
    cases he
  have hname : symbolMangledName mainProc = symbolMangledName mainVar :=
    (symbolMangledName_inj hproc hvar).mpr ⟨rfl, fun hne => absurd rfl hne⟩
  refine ⟨reached_twoMains, hname, fun hu => ?_⟩
  have hmain := (reached_twoMains.inv.unique_iff.mp hu).main mainProc (by decide) mainVar
    (by decide) rfl rfl
  cases hmain

end Names

end Nibble.Ast
