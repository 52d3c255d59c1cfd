import Mathlib.Data.List.Basic

/-!
# Command lines with quotes and backslashes

A command line is one string, which the started program cuts at the unquoted blanks.  Before a quote `2 n`
backslashes stand for `n` of them and the quote begins or ends a quoted part; `2 n + 1` stand for `n` of them
and the quote itself.  All other backslashes stand for themselves.

* `split L line`: the arguments of the line, over any letters `L`.
* `Quoted L e w`: between two quotes, `e` stands for `w`.
* `Form L e w`: a piece of a line between blanks that stands for the argument `w`, or is empty and for none.

    Quoted L e w → scan (some cur) true 0 (e ++ quote :: rest) = scan (some (cur ++ w)) false 0 rest
                                                                                           (scan_quoted)
    split L (line L.space pieces) = pieces.filterMap …                                         (split_line)
-/

namespace CommandLine

structure Letters (α : Type) where
  quote : α
  backslash : α
  space : α
  blank : α → Bool
  quote_ne_backslash : quote ≠ backslash
  blank_quote : blank quote = false
  blank_backslash : blank backslash = false
  blank_space : blank space = true

section Split

variable {α : Type} [DecidableEq α] (L : Letters α)

/-- The argument read so far, with the backslashes behind it. -/
def flush (current : Option (List α)) (backslashes : Nat) : Option (List α) :=
  if backslashes = 0 then current else some (current.getD [] ++ List.replicate backslashes L.backslash)

def scan (current : Option (List α)) (quoted : Bool) (backslashes : Nat) : List α → List (List α)
  | [] => (flush L current backslashes).toList
  | c :: rest =>
    if c = L.backslash then scan current quoted (backslashes + 1) rest
    else if c = L.quote then
      let text := current.getD [] ++ List.replicate (backslashes / 2) L.backslash
      if backslashes % 2 = 1 then scan (some (text ++ [c])) quoted 0 rest
      else scan (some text) (!quoted) 0 rest
    else if L.blank c = true ∧ quoted = false then
      (flush L current backslashes).toList ++ scan none false 0 rest
    else scan (some (current.getD [] ++ List.replicate backslashes L.backslash ++ [c])) quoted 0 rest

def split (line : List α) : List (List α) := scan L none false 0 line

/-! ## Pieces of a line -/

/-- Inside quotes the letter stands for itself, wherever it stands. -/
def Inert (c : α) : Prop := c ≠ L.backslash ∧ c ≠ L.quote

inductive Quoted : List α → List α → Prop
  | close (n : Nat) : Quoted (List.replicate (2 * n) L.backslash) (List.replicate n L.backslash)
  | quote (n : Nat) {e w : List α} : Quoted e w →
      Quoted (List.replicate (2 * n + 1) L.backslash ++ L.quote :: e)
        (List.replicate n L.backslash ++ L.quote :: w)
  | inert (n : Nat) {u e w : List α} : u ≠ [] → (∀ c ∈ u, Inert L c) → Quoted e w →
      Quoted (List.replicate n L.backslash ++ u ++ e) (List.replicate n L.backslash ++ u ++ w)

inductive Form : List α → Option (List α) → Prop
  | none : Form [] none
  | plain {w : List α} : w ≠ [] → (∀ c ∈ w, Inert L c ∧ L.blank c = false) → Form w (some w)
  | quoted {e w : List α} : Quoted L e w → Form (L.quote :: (e ++ [L.quote])) (some w)

/-- The pieces with a blank before each of the later ones. -/
def line (space : α) : List (List α) → List α
  | [] => []
  | piece :: pieces => piece ++ pieces.flatMap (space :: ·)

/-! ## Lemmas -/

variable {L} {current : Option (List α)} {quoted : Bool} {m : Nat} {rest : List α}

theorem scan_backslashes (n : Nat) :
    scan L current quoted m (List.replicate n L.backslash ++ rest) = scan L current quoted (m + n) rest := by
  induction n generalizing m with
  | zero => rfl
  | succ n ih =>
    rw [List.replicate_succ, List.cons_append, scan, if_pos rfl, ih]
    congr 1
    omega

theorem scan_even (n : Nat) : scan L current quoted (2 * n) (L.quote :: rest) =
    scan L (some (current.getD [] ++ List.replicate n L.backslash)) (!quoted) 0 rest := by
  have hhalf : 2 * n / 2 = n := by omega
  have heven : ¬ 2 * n % 2 = 1 := by omega
  rw [scan, if_neg L.quote_ne_backslash, if_pos rfl, if_neg heven, hhalf]

theorem scan_odd (n : Nat) : scan L current quoted (2 * n + 1) (L.quote :: rest) =
    scan L (some (current.getD [] ++ List.replicate n L.backslash ++ [L.quote])) quoted 0 rest := by
  have hhalf : (2 * n + 1) / 2 = n := by omega
  have hodd : (2 * n + 1) % 2 = 1 := by omega
  rw [scan, if_neg L.quote_ne_backslash, if_pos rfl, if_pos hodd, hhalf]

theorem scan_letter {c : α} (hc : Inert L c) (hblank : L.blank c = false ∨ quoted = true) :
    scan L current quoted m (c :: rest) =
      scan L (some (current.getD [] ++ List.replicate m L.backslash ++ [c])) quoted 0 rest := by
  have hnot : ¬ (L.blank c = true ∧ quoted = false) := by
    rintro ⟨hyes, hfalse⟩
    rcases hblank with hno | htrue
    · rw [hno] at hyes
      cases hyes
    · rw [htrue] at hfalse
      cases hfalse
  rw [scan, if_neg hc.1, if_neg hc.2, if_neg hnot]

/-- Letters that stand for themselves. -/
theorem scan_letters {u : List α} (hne : u ≠ []) (hu : ∀ c ∈ u, Inert L c ∧ (L.blank c = false ∨ quoted = true)) :
    scan L current quoted m (u ++ rest) =
      scan L (some (current.getD [] ++ List.replicate m L.backslash ++ u)) quoted 0 rest := by
  induction u generalizing current m with
  | nil => exact absurd rfl hne
  | cons c u ih =>
    obtain ⟨hc, hblank⟩ := hu c List.mem_cons_self
    rw [List.cons_append, scan_letter hc hblank]
    by_cases hnil : u = []
    · rw [hnil, List.nil_append]
    · rw [ih hnil fun c' hc' => hu c' (List.mem_cons_of_mem _ hc')]
      simp

theorem scan_quoted {e w : List α} (h : Quoted L e w) (cur : List α) :
    scan L (some cur) true 0 (e ++ L.quote :: rest) = scan L (some (cur ++ w)) false 0 rest := by
  induction h generalizing cur with
  | close n => rw [scan_backslashes, Nat.zero_add, scan_even, Option.getD_some, Bool.not_true]
  | quote n _ ih =>
    rw [List.append_assoc, scan_backslashes, Nat.zero_add, List.cons_append, scan_odd, ih, Option.getD_some]
    simp
  | inert n hne hu _ ih =>
    rw [List.append_assoc, List.append_assoc, scan_backslashes, Nat.zero_add,
      scan_letters hne fun c hc => ⟨hu c hc, .inr rfl⟩, ih, Option.getD_some]
    simp

/-- A piece of the line gives its argument. -/
theorem scan_form {e : List α} {w : Option (List α)} (h : Form L e w) :
    scan L none false 0 (e ++ rest) = scan L w false 0 rest := by
  cases h with
  | none => rfl
  | plain hne hw => exact scan_letters hne fun c hc => ⟨(hw c hc).1, .inl (hw c hc).2⟩
  | @quoted e w h =>
    have hopen : scan L none false (2 * 0) (L.quote :: (e ++ L.quote :: rest)) =
        scan L (some []) true 0 (e ++ L.quote :: rest) := scan_even 0
    have hclose : scan L (some []) true 0 (e ++ L.quote :: rest) = scan L (some w) false 0 rest := scan_quoted h []
    rw [List.cons_append, List.append_assoc, List.singleton_append]
    exact hopen.trans hclose

theorem scan_space (w : Option (List α)) :
    scan L w false 0 (L.space :: rest) = w.toList ++ scan L none false 0 rest := by
  have hbackslash : L.space ≠ L.backslash := by
    intro heq
    have := L.blank_space
    rw [heq, L.blank_backslash] at this
    cases this
  have hquote : L.space ≠ L.quote := by
    intro heq
    have := L.blank_space
    rw [heq, L.blank_quote] at this
    cases this
  rw [scan, if_neg hbackslash, if_neg hquote, if_pos ⟨L.blank_space, rfl⟩, flush, if_pos rfl]

theorem scan_pieces {pieces : List (List α)} {ws : List (Option (List α))} (h : List.Forall₂ (Form L) pieces ws)
    (w : Option (List α)) :
    scan L w false 0 (pieces.flatMap (L.space :: ·)) = (w :: ws).filterMap id := by
  induction h generalizing w with
  | nil => cases w <;> rfl
  | cons hform _ ih =>
    rw [List.flatMap_cons, List.cons_append, scan_space, scan_form hform, ih]
    cases w <;> rfl

/-- **The line of the pieces gives their arguments in order**, and none for the empty pieces. -/
theorem split_line {pieces : List (List α)} {ws : List (Option (List α))}
    (h : List.Forall₂ (Form L) pieces ws) : split L (line L.space pieces) = ws.filterMap id := by
  cases h with
  | nil => rfl
  | cons hform hrest => rw [split, line, scan_form hform, scan_pieces hrest]

end Split

end CommandLine
