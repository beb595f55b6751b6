import Mathlib.Algebra.Group.Nat.Defs
import Mathlib.Data.List.TakeWhile
import Mathlib.Data.Nat.Init
import Mathlib.Tactic.Common

/-!
# Reading text as C does

The lines that `fgets` gives, and the directives of `sscanf` for words, for what comes before a
character and for unsigned numbers, each with what it makes of text written for it. A character is
a byte.
-/
namespace NetworkLab.Scanf

variable {α : Type*}

section Model

/-- `isspace`. -/
def isSpace (c : Char) : Bool :=
  decide (c ∈ [' ', '\t', '\n', '\x0b', '\x0c', '\r'])

/-- The characters of a string up to the one that ends it. -/
def cString (s : List Char) : List Char := s.takeWhile (· != '\x00')

/-- What `fgets` reads: a line with the character that ends it, if there is room for it. -/
def takeLine : ℕ → List Char → List Char
  | 0, _ => []
  | _ + 1, [] => []
  | room + 1, c :: s => if c = '\n' then [c] else c :: takeLine room s

/-- What calls of `fgets` read until there is nothing left, `n` of them at most. -/
def linesOf (room : ℕ) : ℕ → List Char → List (List Char)
  | 0, _ => []
  | n + 1, s =>
    let line := takeLine room s
    if line = [] then [] else line :: linesOf room n (s.drop line.length)

/-- The lines of a text in a buffer of this size. -/
def fgetsLines (size : ℕ) (s : List Char) : List (List Char) := linesOf (size - 1) s.length s

/-- `%s`: a word, and what is left. -/
def word (s : List Char) : Option (List Char × List Char) :=
  let s := s.dropWhile isSpace
  if s = [] then none
  else some (s.takeWhile fun c => !isSpace c, s.dropWhile fun c => !isSpace c)

/-- `%[^c]`: what comes before a character. -/
def upTo (stop : Char) (s : List Char) : Option (List Char × List Char) :=
  if s.takeWhile (· != stop) = [] then none
  else some (s.takeWhile (· != stop), s.dropWhile (· != stop))

/-- A character that stands for itself. -/
def literal (c : Char) : List Char → Option (List Char)
  | [] => none
  | d :: s => if d = c then some s else none

def sign : List Char → Bool × List Char
  | [] => (false, [])
  | c :: s => if c = '-' then (true, s) else if c = '+' then (false, s) else (false, c :: s)

def digitsValue (digits : List Char) : ℕ :=
  digits.foldl (fun n c => 10 * n + (c.toNat - 48)) 0

/-- `strtoul` of digits. -/
def strtoul (minus : Bool) (n : ℕ) : ℕ :=
  if 2 ^ 64 ≤ n then 2 ^ 64 - 1 else if minus then (2 ^ 64 - n) % 2 ^ 64 else n

/-- `%u`, before the number is cut to the size of its type. -/
def unsigned (s : List Char) : Option (ℕ × List Char) :=
  let signed := sign (s.dropWhile isSpace)
  let digits := signed.2.takeWhile Char.isDigit
  if digits = [] then none
  else some (strtoul signed.1 (digitsValue digits), signed.2.dropWhile Char.isDigit)

/-- A directive that stores what it reads; `none` is left once one has not matched. -/
def scan (directive : List Char → Option (α × List Char)) (old : α)
    (input : Option (List Char)) : α × Option (List Char) :=
  match input.bind directive with
  | some read => (read.1, some read.2)
  | none => (old, none)

end Model

section Lines

variable {room : ℕ} {body rest : List Char} {lines : List (List Char)}

/-- A line that fits into a buffer of this size. -/
structure IsLine (size : ℕ) (line : List Char) : Prop where
  ends : ∃ body, line = body ++ ['\n'] ∧ '\n' ∉ body
  fits : line.length < size

theorem takeLine_line (h : '\n' ∉ body) (hroom : body.length < room) :
    takeLine room (body ++ '\n' :: rest) = body ++ ['\n'] := by
  induction body generalizing room with
  | nil =>
    cases room with
    | zero => simp at hroom
    | succ room => simp [takeLine]
  | cons c body ih =>
    cases room with
    | zero => simp at hroom
    | succ room =>
      simp only [List.mem_cons, not_or] at h
      simp [takeLine, Ne.symm h.1, ih h.2 (Nat.lt_of_succ_lt_succ hroom)]

theorem linesOf_flatten (h : ∀ line ∈ lines, IsLine (room + 1) line) {n : ℕ}
    (hn : lines.length ≤ n) : linesOf room n lines.flatten = lines := by
  induction lines generalizing n with
  | nil => cases n with
    | zero => rfl
    | succ n => cases room <;> simp [linesOf, takeLine]
  | cons line lines ih =>
    obtain ⟨n, rfl⟩ : ∃ k, n = k + 1 := ⟨n - 1, by simp at hn; omega⟩
    obtain ⟨⟨body, rfl, hbody⟩, hfits⟩ := h line List.mem_cons_self
    have htake : takeLine room ((body ++ ['\n']) ++ lines.flatten) = body ++ ['\n'] := by
      rw [List.append_assoc]
      apply takeLine_line hbody
      simp at hfits
      omega
    have hrest := ih (fun line hline => h line (List.mem_cons_of_mem _ hline))
      (Nat.le_of_succ_le_succ hn)
    rw [List.flatten_cons, linesOf, htake, List.drop_left, hrest]
    simp

theorem length_le_length_flatten (h : ∀ line ∈ lines, line ≠ []) :
    lines.length ≤ lines.flatten.length := by
  induction lines with
  | nil => simp
  | cons line lines ih =>
    have hpos := List.length_pos_iff.mpr (h line List.mem_cons_self)
    have hrest := ih fun line hline => h line (List.mem_cons_of_mem _ hline)
    rw [List.flatten_cons, List.length_append, List.length_cons]
    omega

/-- Lines come back as they were written. -/
theorem fgetsLines_flatten {size : ℕ} (h : ∀ line ∈ lines, IsLine size line) :
    fgetsLines size lines.flatten = lines := by
  have hlength : lines.length ≤ lines.flatten.length := by
    apply length_le_length_flatten
    intro line hline
    obtain ⟨⟨body, rfl, -⟩, -⟩ := h line hline
    simp
  cases size with
  | zero =>
    cases lines with
    | nil => rfl
    | cons line lines => exact absurd (h line List.mem_cons_self).fits (Nat.not_lt_zero _)
  | succ room => exact linesOf_flatten h hlength

end Lines

section Directives

variable {w rest blanks : List Char} {stop : Char}

structure IsWord (w : List Char) : Prop where
  nonempty : w ≠ []
  nonspace : ∀ c ∈ w, isSpace c = false

/-- What follows does not go on with such a character. -/
def Stops (p : Char → Bool) (rest : List Char) : Prop := ∀ c ∈ rest.head?, p c = false

theorem takeWhile_append_stops {p : Char → Bool} (hw : ∀ c ∈ w, p c = true) (h : Stops p rest) :
    (w ++ rest).takeWhile p = w ∧ (w ++ rest).dropWhile p = rest := by
  rw [List.takeWhile_append_of_pos hw, List.dropWhile_append_of_pos hw]
  cases rest with
  | nil => simp
  | cons c rest => simp [h c rfl]

theorem IsWord.word_eq (h : IsWord w) (hblanks : ∀ c ∈ blanks, isSpace c = true)
    (hrest : Stops (fun c => !isSpace c) rest) : word (blanks ++ (w ++ rest)) = some (w, rest) := by
  have hdrop : (blanks ++ (w ++ rest)).dropWhile isSpace = w ++ rest := by
    cases w with
    | nil => exact absurd rfl h.nonempty
    | cons c w =>
      refine (takeWhile_append_stops hblanks ?_).2
      simpa [Stops] using h.nonspace c List.mem_cons_self
  obtain ⟨htake, hleft⟩ := takeWhile_append_stops
    (w := w) (p := fun c => !isSpace c) (fun c hc => by simp [h.nonspace c hc]) hrest
  simp [word, hdrop, htake, hleft, h.nonempty]

theorem upTo_eq (hne : w ≠ []) (hw : stop ∉ w) :
    upTo stop (w ++ stop :: rest) = some (w, stop :: rest) := by
  obtain ⟨htake, hleft⟩ : (w ++ stop :: rest).takeWhile (· != stop) = w ∧
      (w ++ stop :: rest).dropWhile (· != stop) = stop :: rest := takeWhile_append_stops
    (fun c hc => by simpa using fun heq : c = stop => hw (heq ▸ hc)) (by simp [Stops])
  simp only [upTo, htake, hleft, if_neg hne]

@[simp] theorem literal_cons (c : Char) (s : List Char) : literal c (c :: s) = some s := by
  simp [literal]

theorem digitsValue_append (s : List Char) (c : Char) :
    digitsValue (s ++ [c]) = 10 * digitsValue s + (c.toNat - 48) := by
  simp [digitsValue]

theorem toNat_digitChar {n : ℕ} (h : n < 10) : n.digitChar.toNat - 48 = n := by
  have hall : ∀ n < 10, n.digitChar.toNat - 48 = n := by decide
  exact hall n h

theorem digitsValue_toDigits (n : ℕ) : digitsValue (Nat.toDigits 10 n) = n := by
  induction n using Nat.strong_induction_on with
  | _ n ih =>
    have hone {d : ℕ} (hd : d < 10) : digitsValue [d.digitChar] = d := by
      simpa [digitsValue] using toNat_digitChar hd
    by_cases h : n < 10
    · rw [Nat.toDigits_of_lt_base h, hone h]
    · have hlast := toNat_digitChar (Nat.mod_lt n (show 0 < 10 by decide))
      rw [Nat.toDigits_of_base_le (by decide) (by omega), digitsValue_append, ih _ (by omega),
        hlast]
      omega

theorem isDigit_of_mem_toDigits {n : ℕ} {c : Char} (hc : c ∈ Nat.toDigits 10 n) :
    c.isDigit = true := Nat.isDigit_of_mem_toDigits (by decide) (by decide) hc

theorem toDigits_ne_nil (n : ℕ) : Nat.toDigits 10 n ≠ [] := by
  by_cases h : n < 10
  · simp [Nat.toDigits_of_lt_base h]
  · simp [Nat.toDigits_of_base_le (by decide) (show 10 ≤ n by omega)]

/-- A digit is neither a space nor a sign. -/
theorem sign_of_isDigit {c : Char} {s : List Char} (h : c.isDigit = true) :
    isSpace c = false ∧ sign (c :: s) = (false, c :: s) := by
  have hne (d : Char) (hd : d.isDigit = false) : c ≠ d := by
    rintro rfl
    rw [h] at hd
    cases hd
  constructor
  · simp [isSpace, hne ' ' rfl, hne '\t' rfl, hne '\n' rfl, hne '\x0b' rfl, hne '\x0c' rfl,
      hne '\r' rfl]
  · simp [sign, hne '-' rfl, hne '+' rfl]

/-- A number is read as it was written. -/
theorem unsigned_toDigits {n : ℕ} (hn : n < 2 ^ 64) (hrest : Stops Char.isDigit rest) :
    unsigned (Nat.toDigits 10 n ++ rest) = some (n, rest) := by
  obtain ⟨htake, hleft⟩ := takeWhile_append_stops
    (fun c hc => isDigit_of_mem_toDigits (n := n) hc) hrest
  have hsigned : sign ((Nat.toDigits 10 n ++ rest).dropWhile isSpace) =
      (false, Nat.toDigits 10 n ++ rest) := by
    cases hdigits : Nat.toDigits 10 n with
    | nil => exact absurd hdigits (toDigits_ne_nil n)
    | cons c s =>
      have hc := isDigit_of_mem_toDigits (n := n) (c := c) (by simp [hdigits])
      simp [(sign_of_isDigit (s := s ++ rest) hc).1, (sign_of_isDigit (s := s ++ rest) hc).2]
  simp [unsigned, hsigned, htake, hleft, digitsValue_toDigits, strtoul]
  omega

theorem scan_of_eq_some {directive : List Char → Option (α × List Char)} {s : List Char} {a : α}
    (h : directive s = some (a, rest)) (old : α) :
    scan directive old (some s) = (a, some rest) := by
  simp [scan, h]

end Directives

end NetworkLab.Scanf
