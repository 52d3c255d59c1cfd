import Mathlib.Algebra.GroupWithZero.Nat
import Mathlib.Data.List.TakeWhile
import LspFramework.Lib.Chars
import LspFramework.Lib.CommandLine

/-!
# The command line of a Windows process

`escapeArg` puts quotes around an argument that has a letter for which it looks, and doubles the backslashes
before a quote.  It leaves the empty argument as it is, so that on the line nothing is there for it.

`MultiByteToWideChar` is a parameter; `convert` gives the wide form of a string, in which invalid UTF-8 is
replaced.

    split crt (buildCmdLine …) = ((executable :: args).filter (· ≠ [])).map convert      (split_buildCmdLine)
    Yields … ↔ ∀ s ∈ executable :: args, s ≠ []                                                 (yields_iff)
-/

namespace Lsp.Io.Process

open Chars CommandLine

/-! ## Algorithm -/

def isSpecial (c : UInt8) : Bool := c ∈ bytes " \t\n\x0b\\\","

/-- The loop of `escapeArg`, with the backslashes before the rest. -/
def escapeLoop (numBackslashes : UInt32) : Bytes → Bytes
  | [] => List.replicate (numBackslashes * 2).toNat (chr '\\')
  | c :: rest =>
    if c = chr '\\' then escapeLoop (numBackslashes + 1) rest
    else if c = chr '"' then
      List.replicate (numBackslashes * 2 + 1).toNat (chr '\\') ++ chr '"' :: escapeLoop 0 rest
    else List.replicate numBackslashes.toNat (chr '\\') ++ c :: escapeLoop 0 rest

def escapeArg (arg : Bytes) : Bytes :=
  if arg.any isSpecial = false then arg
  else chr '"' :: (escapeLoop 0 arg ++ [chr '"'])

def cmdLine (executable : Bytes) (args : List Bytes) : Bytes :=
  args.foldl (fun cmdLine arg => cmdLine ++ (chr ' ' :: escapeArg arg)) (escapeArg executable)

/-- `static_cast<int>` -/
def toInt (size : Nat) : Int := (BitVec.ofNat 32 size).toInt

/-- `std::wstring::resize` -/
def resize (s : List UInt16) (size : Nat) : List UInt16 := s.take size ++ List.replicate (size - s.length) 0

/-- From the string, its size and the size of the buffer: the result, and what is written. -/
abbrev MultiByteToWideChar := Bytes → Int → Int → Int × List UInt16

def buildCmdLine (multiByteToWideChar : MultiByteToWideChar) (executable : Bytes) (args : List Bytes) :
    List UInt16 :=
  let cmdLine := cmdLine executable args
  let wCmdLine := resize [] (cmdLine.length * 4)
  let (len, written) := multiByteToWideChar cmdLine (toInt cmdLine.length) (toInt wCmdLine.length)
  if len < 0 then []
  else resize (written ++ wCmdLine.drop written.length) len.toNat

/-! ## The platform -/

/-- What is used of `MultiByteToWideChar` for UTF-8: an ASCII byte ends whatever stands before it, and becomes
one unit. -/
structure Utf8ToWide (multiByteToWideChar : MultiByteToWideChar) (convert : Bytes → List UInt16) : Prop where
  converts : ∀ (s : Bytes) (cb cch : Int), s ≠ [] → cb = s.length → (convert s).length ≤ cch →
    multiByteToWideChar s cb cch = (((convert s).length : Int), convert s)
  fails : ∀ s cch, (multiByteToWideChar s 0 cch).1 = 0
  ascii : ∀ s c t, c < 0x80 → convert (s ++ c :: t) = convert s ++ c.toUInt16 :: convert t
  others : ∀ s, s ≠ [] → (∀ c ∈ s, 0x80 ≤ c) → convert s ≠ [] ∧ ∀ u ∈ convert s, 0x80 ≤ u
  length_le : ∀ s, (convert s).length ≤ s.length

/-- The letters of the C runtime. -/
def crt : Letters UInt16 where
  quote := 34
  backslash := 92
  space := 32
  blank u := u = 32 || u = 9
  quote_ne_backslash := by decide
  blank_quote := by decide
  blank_backslash := by decide
  blank_space := by decide

/-- The started program gets the executable and exactly the arguments. -/
def Yields (multiByteToWideChar : MultiByteToWideChar) (convert : Bytes → List UInt16) (executable : Bytes)
    (args : List Bytes) : Prop :=
  split crt (buildCmdLine multiByteToWideChar executable args) = (executable :: args).map convert

/-- What the counters hold: `int` the size of the buffer, and `unsigned int` twice the backslashes of a run. -/
structure Counted (executable : Bytes) (args : List Bytes) : Prop where
  line : 4 * (cmdLine executable args).length < 2 ^ 31
  strings : ∀ s ∈ executable :: args, s.length < 2 ^ 31

instance (executable : Bytes) (args : List Bytes) : Decidable (Counted executable args) :=
  decidable_of_iff (4 * (cmdLine executable args).length < 2 ^ 31 ∧ ∀ s ∈ executable :: args, s.length < 2 ^ 31)
    ⟨fun h => ⟨h.1, h.2⟩, fun h => ⟨h.line, h.strings⟩⟩

/-! ## Escaping -/

/-- `escapeLoop` without its bound on the backslashes. -/
def escapeFrom (n : Nat) : Bytes → Bytes
  | [] => List.replicate (2 * n) (chr '\\')
  | c :: rest =>
    if c = chr '\\' then escapeFrom (n + 1) rest
    else if c = chr '"' then List.replicate (2 * n + 1) (chr '\\') ++ chr '"' :: escapeFrom 0 rest
    else List.replicate n (chr '\\') ++ c :: escapeFrom 0 rest

theorem escapeLoop_eq {s : Bytes} {n : UInt32} (h : n.toNat + s.length < 2 ^ 31) :
    escapeLoop n s = escapeFrom n.toNat s := by
  have hdouble : ∀ m : UInt32, m.toNat < 2 ^ 31 → (m * 2).toNat = 2 * m.toNat := by
    intro m hm
    rw [UInt32.toNat_mul]
    show m.toNat * 2 % 2 ^ 32 = _
    omega
  induction s generalizing n with
  | nil => rw [escapeLoop, escapeFrom, hdouble n h]
  | cons c rest ih =>
    rw [List.length_cons] at h
    have hnext : (n + 1).toNat = n.toNat + 1 := by
      rw [UInt32.toNat_add]
      show (n.toNat + 1) % 2 ^ 32 = _
      omega
    have hodd : (n * 2 + 1).toNat = 2 * n.toNat + 1 := by
      rw [UInt32.toNat_add, hdouble n (by omega)]
      show (2 * n.toNat + 1) % 2 ^ 32 = _
      omega
    have hrest : escapeLoop 0 rest = escapeFrom 0 rest := ih (n := 0) (by rw [UInt32.toNat_zero]; omega)
    rw [escapeLoop, escapeFrom, hodd, hrest, ih (n := n + 1) (by omega), hnext]

/-- Escaping an argument as a single text. -/
theorem escapeArg_eq {arg : Bytes} (h : arg.length < 2 ^ 31) : escapeArg arg =
    if arg.any isSpecial = false then arg else chr '"' :: (escapeFrom 0 arg ++ [chr '"']) := by
  rw [escapeArg, escapeLoop_eq (n := 0) (by rw [UInt32.toNat_zero]; omega), UInt32.toNat_zero]

theorem cmdLine_eq (executable : Bytes) (args : List Bytes) :
    cmdLine executable args = line (chr ' ') ((executable :: args).map escapeArg) := by
  have hfold : ∀ (args : List Bytes) (acc : Bytes),
      args.foldl (fun cmdLine arg => cmdLine ++ (chr ' ' :: escapeArg arg)) acc =
        acc ++ (args.map escapeArg).flatMap (chr ' ' :: ·) := by
    intro args
    induction args with
    | nil => simp
    | cons arg args ih =>
      intro acc
      rw [List.foldl_cons, ih, List.map_cons, List.flatMap_cons, List.append_assoc]
  exact hfold args _

theorem toInt_eq {size : Nat} (h : size < 2 ^ 31) : toInt size = size := by
  rw [toInt, BitVec.toInt_eq_toNat_of_lt, BitVec.toNat_ofNat]
  · omega
  · rw [BitVec.toNat_ofNat]
    omega

theorem resize_append (s t : List UInt16) : resize (s ++ t) s.length = s := by
  simp [resize]

/-! ## Conversion -/

/-- Nothing, or an ASCII byte first. -/
def StartsAscii (s : Bytes) : Prop := ∀ c ∈ s.head?, c < 0x80

/-- A string byte by byte, the bytes that are not ASCII in whole runs. -/
theorem runs_induction {p : Bytes → Prop} (nil : p []) (ascii : ∀ c t, c < 0x80 → p t → p (c :: t))
    (run : ∀ a t, a ≠ [] → (∀ c ∈ a, 0x80 ≤ c) → StartsAscii t → p t → p (a ++ t)) (s : Bytes) : p s := by
  induction hlen : s.length using Nat.strong_induction_on generalizing s with
  | _ n ih =>
    cases s with
    | nil => exact nil
    | cons c t =>
      rw [List.length_cons] at hlen
      by_cases hc : c < 0x80
      · exact ascii c t hc (ih t.length (by omega) t rfl)
      · let high : UInt8 → Bool := fun b => 0x80 ≤ b
        have hhigh : high c = true := decide_eq_true (UInt8.not_lt.mp hc)
        have hsplit : (c :: t).takeWhile high ++ (c :: t).dropWhile high = c :: t :=
          List.takeWhile_append_dropWhile
        have hne : (c :: t).takeWhile high ≠ [] := by simp [hhigh]
        have hless : ((c :: t).dropWhile high).length < n := by
          have hle := (List.dropWhile_sublist high (l := t)).length_le
          rw [List.dropWhile_cons_of_pos hhigh]
          omega
        rw [← hsplit]
        refine run _ _ hne (fun b hb => ?_) ?_ (ih _ hless _ rfl)
        · exact of_decide_eq_true (List.mem_takeWhile_imp (p := high) hb)
        · intro b hb
          have := List.head?_dropWhile_not high (c :: t)
          rw [Option.mem_def.mp hb] at this
          simpa [high] using this

theorem startsAscii_escapeFrom {s : Bytes} {n : Nat} (hs : 0 < n ∨ StartsAscii s) : StartsAscii (escapeFrom n s) := by
  have hfirst : ∀ (k : Nat) (t : Bytes), 0 < k → StartsAscii (List.replicate k (chr '\\') ++ t) := by
    intro k t hk c hc
    obtain ⟨m, rfl⟩ := Nat.exists_eq_add_of_lt hk
    rw [Nat.zero_add, List.replicate_succ] at hc
    obtain rfl := Option.some.inj hc
    decide
  induction s generalizing n with
  | nil =>
    rcases Nat.eq_zero_or_pos n with rfl | hn
    · exact nofun
    · have := hfirst (2 * n) [] (by omega)
      rwa [List.append_nil] at this
  | cons c rest ih =>
    rw [escapeFrom]
    split
    · exact ih (.inl (Nat.succ_pos n))
    · split
      · exact hfirst _ _ (Nat.succ_pos _)
      · rcases hs with hn | hc
        · exact hfirst n _ hn
        · cases n with
          | zero => exact hc
          | succ n => exact hfirst _ _ (Nat.succ_pos n)

/-- Bytes that are no ASCII ones stay. -/
theorem escapeFrom_run {a : Bytes} (hne : a ≠ []) (ha : ∀ c ∈ a, 0x80 ≤ c) (n : Nat) (t : Bytes) :
    escapeFrom n (a ++ t) = List.replicate n (chr '\\') ++ a ++ escapeFrom 0 t := by
  induction a generalizing n with
  | nil => exact absurd rfl hne
  | cons c a ih =>
    have hc : ¬ c < 0x80 := UInt8.not_lt.mpr (ha c List.mem_cons_self)
    have hbackslash : c ≠ chr '\\' := fun heq => hc (heq ▸ by decide)
    have hquote : c ≠ chr '"' := fun heq => hc (heq ▸ by decide)
    rw [List.cons_append, escapeFrom, if_neg hbackslash, if_neg hquote]
    by_cases hnil : a = []
    · rw [hnil, List.nil_append, List.append_assoc, List.singleton_append]
    · rw [ih hnil fun d hd => ha d (List.mem_cons_of_mem _ hd)]
      simp

theorem inert_of_le {u : UInt16} (hu : 0x80 ≤ u) : Inert crt u ∧ crt.blank u = false := by
  have hne : ∀ v : UInt16, v < 0x80 → u ≠ v := by
    rintro v hv rfl
    exact absurd hu (UInt16.not_le.mpr hv)
  refine ⟨⟨hne 92 (by decide), hne 34 (by decide)⟩, ?_⟩
  show (decide (u = 32) || decide (u = 9)) = false
  rw [decide_eq_false (hne 32 (by decide)), decide_eq_false (hne 9 (by decide))]
  rfl

theorem toUInt16_ne {c d : UInt8} (hne : c ≠ d) : c.toUInt16 ≠ d.toUInt16 := by
  intro heq
  have := congrArg UInt16.toNat heq
  rw [UInt8.toNat_toUInt16, UInt8.toNat_toUInt16] at this
  exact hne (UInt8.toNat_inj.mp this)

theorem inert_toUInt16 {c : UInt8} (hbackslash : c ≠ chr '\\') (hquote : c ≠ chr '"') :
    Inert crt c.toUInt16 :=
  ⟨toUInt16_ne hbackslash, toUInt16_ne hquote⟩

/-- The strings that are not empty, each converted. -/
theorem filterMap_nonempty (convert : Bytes → List UInt16) (strings : List Bytes) :
    (strings.map fun s => if s = [] then none else some (convert s)).filterMap id =
      (strings.filter (· ≠ [])).map convert := by
  rw [List.filterMap_map]
  induction strings with
  | nil => rfl
  | cons s strings ih =>
    by_cases hnil : s = []
    · rw [List.filterMap_cons_none (by simp [hnil]), ih, List.filter_cons_of_neg (by simp [hnil])]
    · rw [List.filterMap_cons_some (b := convert s) (by simp [hnil]), ih, List.filter_cons_of_pos (by simp [hnil]),
        List.map_cons]

section Convert

variable {multiByteToWideChar : MultiByteToWideChar} {convert : Bytes → List UInt16}
  (h : Utf8ToWide multiByteToWideChar convert)
include h

theorem convert_nil : convert [] = [] := List.length_eq_zero_iff.mp (Nat.le_zero.mp (h.length_le []))

theorem convert_cons {c : UInt8} (hc : c < 0x80) (t : Bytes) : convert (c :: t) = c.toUInt16 :: convert t := by
  have := h.ascii [] c t hc
  rwa [convert_nil h] at this

theorem convert_append {t : Bytes} (ht : StartsAscii t) (s : Bytes) : convert (s ++ t) = convert s ++ convert t := by
  cases t with
  | nil => rw [convert_nil h, List.append_nil, List.append_nil]
  | cons c t =>
    have hc : c < 0x80 := ht c rfl
    rw [h.ascii s c t hc, convert_cons h hc]

theorem convert_backslashes (n : Nat) (t : Bytes) :
    convert (List.replicate n (chr '\\') ++ t) = List.replicate n crt.backslash ++ convert t := by
  induction n with
  | zero => rfl
  | succ n ih =>
    rw [List.replicate_succ, List.cons_append, convert_cons h (by decide), ih]
    rfl

theorem convert_ne_nil {s : Bytes} (hne : s ≠ []) : convert s ≠ [] := by
  induction s using runs_induction with
  | nil => exact absurd rfl hne
  | ascii c t hc _ =>
    rw [convert_cons h hc]
    exact List.cons_ne_nil _ _
  | run a t hrun ha ht _ =>
    rw [convert_append h ht]
    exact List.append_ne_nil_of_left_ne_nil (h.others a hrun ha).1 _

/-- The units below 128 are the ASCII bytes. -/
theorem mem_convert (s : Bytes) : ∀ u ∈ convert s, 0x80 ≤ u ∨ ∃ c ∈ s, c < 0x80 ∧ u = c.toUInt16 := by
  induction s using runs_induction with
  | nil =>
    rw [convert_nil h]
    exact nofun
  | ascii c t hc ih =>
    rw [convert_cons h hc]
    intro u hu
    rcases List.mem_cons.mp hu with rfl | hu
    · exact .inr ⟨c, List.mem_cons_self, hc, rfl⟩
    · exact (ih u hu).imp_right fun ⟨d, hd, hrest⟩ => ⟨d, List.mem_cons_of_mem _ hd, hrest⟩
  | run a t hne ha ht ih =>
    rw [convert_append h ht]
    intro u hu
    rcases List.mem_append.mp hu with hu | hu
    · exact .inl ((h.others a hne ha).2 u hu)
    · exact (ih u hu).imp_right fun ⟨d, hd, hrest⟩ => ⟨d, List.mem_append_right _ hd, hrest⟩

/-! ## The pieces of the line -/

theorem quoted_escapeFrom (s : Bytes) :
    ∀ n, Quoted crt (convert (escapeFrom n s)) (List.replicate n crt.backslash ++ convert s) := by
  induction s using runs_induction with
  | nil =>
    intro n
    have := convert_backslashes h (2 * n) []
    rw [convert_nil h, List.append_nil, List.append_nil] at this
    rw [escapeFrom, this, convert_nil h, List.append_nil]
    exact .close n
  | ascii c t hc ih =>
    intro n
    rw [escapeFrom, convert_cons h hc]
    split
    · next heq =>
      have hmore : List.replicate n crt.backslash ++ crt.backslash :: convert t =
          List.replicate (n + 1) crt.backslash ++ convert t := by
        rw [List.replicate_succ', List.append_assoc, List.singleton_append]
      rw [heq]
      exact hmore ▸ ih (n + 1)
    · next hbackslash =>
      split
      · next heq =>
        rw [convert_backslashes h, convert_cons h (by decide), heq]
        exact .quote n (ih 0)
      · next hquote =>
        rw [convert_backslashes h, convert_cons h hc, ← List.singleton_append,
          ← List.append_assoc, ← List.singleton_append (l := convert t), ← List.append_assoc]
        refine .inert n (List.cons_ne_nil _ _) ?_ (ih 0)
        intro u hu
        obtain rfl := List.mem_singleton.mp hu
        exact inert_toUInt16 hbackslash hquote
  | run a t hne ha ht ih =>
    intro n
    obtain ⟨hne', ha'⟩ := h.others a hne ha
    rw [escapeFrom_run hne ha, convert_append h (startsAscii_escapeFrom (.inr ht)), convert_backslashes h,
      convert_append h ht, ← List.append_assoc]
    exact .inert n hne' (fun u hu => (inert_of_le (ha' u hu)).1) (ih 0)

/-- What an argument becomes is a piece of the line; of the empty one nothing is left. -/
theorem form_escapeArg {arg : Bytes} (harg : arg.length < 2 ^ 31) :
    Form crt (convert (escapeArg arg)) (if arg = [] then none else some (convert arg)) := by
  rw [escapeArg_eq harg]
  split
  · next hplain =>
    by_cases hnil : arg = []
    · rw [if_pos hnil, hnil, convert_nil h]
      exact .none
    · rw [if_neg hnil]
      refine .plain (convert_ne_nil h hnil) ?_
      intro u hu
      rcases mem_convert h arg u hu with hhigh | ⟨c, hc, -, rfl⟩
      · exact inert_of_le hhigh
      · have hspecial : isSpecial c = false := by
          rw [List.any_eq_false] at hplain
          exact Bool.eq_false_iff.mpr (hplain c hc)
        have hne : ∀ d : UInt8, isSpecial d = true → c ≠ d := by
          rintro d hd rfl
          rw [hspecial] at hd
          cases hd
        refine ⟨inert_toUInt16 (hne _ (by decide)) (hne _ (by decide)), ?_⟩
        show (decide (c.toUInt16 = (32 : UInt8).toUInt16) || decide (c.toUInt16 = (9 : UInt8).toUInt16)) = false
        rw [decide_eq_false (toUInt16_ne (hne 32 (by decide))), decide_eq_false (toUInt16_ne (hne 9 (by decide)))]
        rfl
  · next hspecial =>
    have hnil : arg ≠ [] := by
      rintro rfl
      exact hspecial rfl
    rw [if_neg hnil, convert_cons h (by decide), h.ascii _ _ [] (by decide), convert_nil h]
    exact .quoted (quoted_escapeFrom h arg 0)

theorem convert_line (pieces : List Bytes) :
    convert (line (chr ' ') pieces) = line crt.space (pieces.map convert) := by
  cases pieces with
  | nil => exact convert_nil h
  | cons piece pieces =>
    rw [line, List.map_cons, line]
    induction pieces generalizing piece with
    | nil => simp
    | cons next pieces ih =>
      rw [List.flatMap_cons, List.cons_append, h.ascii _ _ _ (by decide), ih, List.map_cons, List.flatMap_cons,
        List.cons_append]
      rfl

theorem forms_escapeArg {strings : List Bytes} (hcount : ∀ s ∈ strings, s.length < 2 ^ 31) :
    List.Forall₂ (Form crt) ((strings.map escapeArg).map convert)
      (strings.map fun s => if s = [] then none else some (convert s)) := by
  induction strings with
  | nil => exact .nil
  | cons s strings ih =>
    obtain ⟨hs, hrest⟩ := List.forall_mem_cons.mp hcount
    exact .cons (form_escapeArg h hs) (ih hrest)

theorem split_cmdLine {executable : Bytes} {args : List Bytes}
    (hcount : ∀ s ∈ executable :: args, s.length < 2 ^ 31) :
    split crt (convert (cmdLine executable args)) = ((executable :: args).filter (· ≠ [])).map convert := by
  rw [cmdLine_eq, convert_line h, split_line (forms_escapeArg h hcount), filterMap_nonempty]

/-- The call of `MultiByteToWideChar` gets sizes that say what they are to say. -/
theorem buildCmdLine_eq {executable : Bytes} {args : List Bytes}
    (hlen : 4 * (cmdLine executable args).length < 2 ^ 31) :
    buildCmdLine multiByteToWideChar executable args = convert (cmdLine executable args) := by
  have hbuffer : (resize [] ((cmdLine executable args).length * 4)).length = (cmdLine executable args).length * 4 := by
    simp [resize]
  have hwide := h.length_le (cmdLine executable args)
  unfold buildCmdLine
  dsimp only
  rw [hbuffer, toInt_eq (by omega), toInt_eq (by omega)]
  by_cases hnil : cmdLine executable args = []
  · have hfails := h.fails [] 0
    rw [hnil, convert_nil h]
    show (if (multiByteToWideChar [] 0 0).1 < 0 then [] else resize _ (multiByteToWideChar [] 0 0).1.toNat) = []
    rw [hfails]
    simp [resize]
  · rw [h.converts _ _ _ hnil rfl (by omega)]
    dsimp only
    rw [if_neg (by omega), Int.toNat_natCast, resize_append]

/-- **The program gets the arguments that are not empty**, in order. -/
theorem split_buildCmdLine {executable : Bytes} {args : List Bytes} (hcounted : Counted executable args) :
    split crt (buildCmdLine multiByteToWideChar executable args) =
      ((executable :: args).filter (· ≠ [])).map convert := by
  rw [buildCmdLine_eq h hcounted.line, split_cmdLine h hcounted.strings]

end Convert

/-- **When the program gets exactly the arguments**: where none is empty. -/
theorem yields_iff {multiByteToWideChar : MultiByteToWideChar} {convert : Bytes → List UInt16}
    (h : Utf8ToWide multiByteToWideChar convert) (executable : Bytes) (args : List Bytes)
    (hcounted : Counted executable args) :
    Yields multiByteToWideChar convert executable args ↔ ∀ s ∈ executable :: args, s ≠ [] := by
  rw [Yields, split_buildCmdLine h hcounted]
  constructor
  · intro heq s hs
    have hlen := congrArg List.length heq
    rw [List.length_map, List.length_map, List.length_filter_eq_length_iff] at hlen
    exact of_decide_eq_true (hlen s hs)
  · intro hall
    rw [List.filter_eq_self.mpr fun s hs => decide_eq_true (hall s hs)]

/-- `MultiByteToWideChar` for strings of ASCII letters. -/
def widen : MultiByteToWideChar := fun s cb _ => if cb = 0 then (0, []) else (s.length, s.map UInt8.toUInt16)

theorem widen_utf8ToWide : Utf8ToWide widen (·.map UInt8.toUInt16) where
  converts s cb cch hne hcb _ := by
    have hcb' : cb ≠ 0 := by
      rw [hcb]
      exact_mod_cast List.length_eq_zero_iff.not.mpr hne
    rw [widen, if_neg hcb', List.length_map]
  fails s cch := rfl
  ascii s c t _ := by rw [List.map_append, List.map_cons]
  others s hne hs := by
    refine ⟨mt List.map_eq_nil_iff.mp hne, ?_⟩
    intro u hu
    obtain ⟨c, hc, rfl⟩ := List.mem_map.mp hu
    have := UInt8.le_iff_toNat_le.mp (hs c hc)
    rw [UInt16.le_iff_toNat_le, UInt8.toNat_toUInt16]
    exact this
  length_le s := by rw [List.length_map]

/-- An argument with a blank, a quote and a backslash at its end. -/
theorem yields_ascii :
    Yields widen (·.map UInt8.toUInt16) (bytes "C:\\a b.exe") [bytes "--log", bytes "say \"hi\" to c:\\"] :=
  (yields_iff widen_utf8ToWide _ _ (by decide +kernel)).mpr (by decide +kernel)

/-- **An empty argument is lost.** -/
theorem not_yields_empty :
    cmdLine (bytes "a") [[], bytes "b"] = bytes "a  b" ∧
      ¬ Yields widen (·.map UInt8.toUInt16) (bytes "a") [[], bytes "b"] := by
  refine ⟨by decide +kernel, ?_⟩
  rw [Yields, split_buildCmdLine widen_utf8ToWide (by decide +kernel)]
  decide +kernel

end Lsp.Io.Process
