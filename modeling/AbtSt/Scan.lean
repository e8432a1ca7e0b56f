import Mathlib.Algebra.Order.Ring.Int
import Mathlib.Data.List.Basic
import Mathlib.Data.List.TakeWhile

/-! Numbers in text as the C library reads them: `strtoul` with base 0 and the
conversion `%d` of `sscanf`. Both read back what a decimal printer wrote. -/

namespace AbtSt

def isSpace (c : Char) : Bool := c.toNat == 32 || (9 ≤ c.toNat && c.toNat ≤ 13)

def skipSpace (cs : List Char) : List Char := cs.dropWhile isSpace

def digitVal (c : Char) : Nat :=
  if c.isDigit then c.toNat - 48
  else if c.isLower then c.toNat - 87
  else if c.isUpper then c.toNat - 55
  else 36

/-- The longest prefix of digits, as a number, with what follows it. -/
def scanDigits (base : Nat) (cs : List Char) : Option (Nat × List Char) :=
  match cs.takeWhile fun c => digitVal c < base with
  | [] => none
  | d :: ds => some ((d :: ds).foldl (fun v c => base * v + digitVal c) 0,
      cs.dropWhile fun c => digitVal c < base)

/-- The conversion `%d`: white space, an optional sign, decimal digits. -/
def scanInt (cs : List Char) : Option (Int × List Char) :=
  match skipSpace cs with
  | '-' :: cs => (scanDigits 10 cs).map fun r => (-(r.1 : Int), r.2)
  | '+' :: cs => (scanDigits 10 cs).map fun r => ((r.1 : Int), r.2)
  | cs => (scanDigits 10 cs).map fun r => ((r.1 : Int), r.2)

def digitsValue (base : Nat) (cs : List Char) : Nat := ((scanDigits base cs).map (·.1)).getD 0

/-- The value of an unsigned literal of C: hexadecimal, octal or decimal. -/
def literalValue : List Char → Nat
  | '0' :: x :: cs =>
    if (x = 'x' ∨ x = 'X') ∧ (scanDigits 16 cs).isSome then digitsValue 16 cs
    else digitsValue 8 ('0' :: x :: cs)
  | '0' :: cs => digitsValue 8 ('0' :: cs)
  | cs => digitsValue 10 cs

/-- `strtoul(cs, NULL, 0)`, with saturation at `ULONG_MAX`. -/
def strtoul (cs : List Char) : Nat :=
  let ulongMax := 2 ^ 64 - 1
  match skipSpace cs with
  | '-' :: cs =>
    if literalValue cs ≤ ulongMax then (2 ^ 64 - literalValue cs) % 2 ^ 64 else ulongMax
  | '+' :: cs => min (literalValue cs) ulongMax
  | cs => min (literalValue cs) ulongMax

theorem digitVal_of_isDigit {c : Char} (h : c.isDigit = true) : digitVal c = c.toNat - 48 := by
  simp [digitVal, h]

theorem digitVal_lt_ten {c : Char} (h : c.isDigit = true) : digitVal c < 10 := by
  rw [digitVal_of_isDigit h]
  simp only [Char.isDigit, Bool.and_eq_true, decide_eq_true_eq] at h
  obtain ⟨h1, h2⟩ := h
  have hle : c.toNat ≤ 57 := h2
  omega

/-- What follows a printed number does not continue it. -/
def Ends10 (cs : List Char) : Prop := ∀ c ∈ cs.head?, ¬ digitVal c < 10

theorem foldl_digitVal {ds : List Char} (h : ∀ c ∈ ds, c.isDigit = true) (v : Nat) :
    ds.foldl (fun v c => 10 * v + digitVal c) v = Nat.ofDigitChars 10 ds v := by
  induction ds generalizing v with
  | nil => rfl
  | cons d ds ih =>
    rw [List.foldl_cons, ih (fun c hc => h c (by simp [hc])), Nat.ofDigitChars_cons,
      digitVal_of_isDigit (h d (by simp))]
    rfl

theorem isDigit_of_mem_toDigits {n : Nat} {c : Char} (h : c ∈ Nat.toDigits 10 n) :
    c.isDigit = true :=
  Nat.isDigit_of_mem_toDigits (by decide) (by decide) h

theorem toDigits_head (n : Nat) : ∃ d ds, Nat.toDigits 10 n = d :: ds ∧ d.isDigit = true := by
  cases hd : Nat.toDigits 10 n with
  | nil => exact absurd hd Nat.toDigits_ne_nil
  | cons d ds => exact ⟨d, ds, rfl, isDigit_of_mem_toDigits (n := n) (by simp [hd])⟩

theorem scanDigits_toDigits (n : Nat) {rest : List Char} (h : Ends10 rest) :
    scanDigits 10 (Nat.toDigits 10 n ++ rest) = some (n, rest) := by
  have hall : ∀ c ∈ Nat.toDigits 10 n, (decide (digitVal c < 10)) = true :=
    fun c hc => decide_eq_true (digitVal_lt_ten (isDigit_of_mem_toDigits hc))
  have htake : rest.takeWhile (fun c => decide (digitVal c < 10)) = [] := by
    cases rest with
    | nil => rfl
    | cons c cs => simpa using h c (by simp)
  have hdrop : rest.dropWhile (fun c => decide (digitVal c < 10)) = rest := by
    cases rest with
    | nil => rfl
    | cons c cs =>
      have hc := h c (by simp)
      simp [hc]
  unfold scanDigits
  rw [List.takeWhile_append_of_pos hall, List.dropWhile_append_of_pos hall, htake, hdrop,
    List.append_nil]
  obtain ⟨d, ds, hd, _⟩ := toDigits_head n
  rw [hd]
  dsimp only
  rw [← hd, foldl_digitVal (fun c hc => isDigit_of_mem_toDigits hc), Nat.ofDigitChars_ten_toDigits]

theorem not_isSpace_of_isDigit {c : Char} (h : c.isDigit = true) : isSpace c = false := by
  simp only [Char.isDigit, Bool.and_eq_true, decide_eq_true_eq] at h
  have h1 : 48 ≤ c.toNat := h.1
  have h32 : c.toNat ≠ 32 := by omega
  have h13 : ¬ c.toNat ≤ 13 := by omega
  simp [isSpace, h32, h13]

theorem skipSpace_toDigits (n : Nat) (rest : List Char) :
    skipSpace (Nat.toDigits 10 n ++ rest) = Nat.toDigits 10 n ++ rest := by
  obtain ⟨d, ds, hd, hdig⟩ := toDigits_head n
  rw [hd]
  simp [skipSpace, not_isSpace_of_isDigit hdig]

theorem scanInt_toDigits (n : Nat) {rest : List Char} (h : Ends10 rest) :
    scanInt (Nat.toDigits 10 n ++ rest) = some ((n : Int), rest) := by
  have hs := scanDigits_toDigits n h
  obtain ⟨d, ds, hd, hdig⟩ := toDigits_head n
  unfold scanInt
  rw [skipSpace_toDigits]
  rw [hd] at hs ⊢
  -- a digit is not a sign, so the last branch is taken
  split
  · rename_i heq
    obtain ⟨rfl, _⟩ := List.cons.inj heq
    cases hdig
  · rename_i heq
    obtain ⟨rfl, _⟩ := List.cons.inj heq
    cases hdig
  · rw [hs]
    rfl

theorem head_toDigits_ne_zero {n : Nat} (h : 0 < n) : (Nat.toDigits 10 n).head? ≠ some '0' := by
  induction n using Nat.strongRecOn with
  | ind n ih =>
    by_cases hlt : n < 10
    · rw [Nat.toDigits_of_lt_base hlt]
      simp only [List.head?_cons, ne_eq, Option.some.injEq, Nat.digitChar_eq_zero]
      omega
    · have hrec := ih (n / 10) (by omega) (by omega)
      obtain ⟨d, ds, hd, _⟩ := toDigits_head (n / 10)
      rw [Nat.toDigits_of_base_le (by decide) (by omega)]
      rw [hd] at hrec ⊢
      simpa using hrec

theorem literalValue_toDigits (n : Nat) : literalValue (Nat.toDigits 10 n) = n := by
  by_cases h0 : n = 0
  · subst h0
    decide
  · have hhead := head_toDigits_ne_zero (Nat.pos_of_ne_zero h0)
    have hends : Ends10 [] := by simp [Ends10]
    have hs := scanDigits_toDigits n hends
    rw [List.append_nil] at hs
    unfold literalValue
    split
    · rename_i heq
      rw [heq] at hhead
      simp at hhead
    · rename_i heq
      rw [heq] at hhead
      simp at hhead
    · simp [digitsValue, hs]

theorem strtoul_toDigits {n : Nat} (h : n < 2 ^ 64) : strtoul (Nat.toDigits 10 n) = n := by
  have hskip := skipSpace_toDigits n []
  rw [List.append_nil] at hskip
  have hmin : min (literalValue (Nat.toDigits 10 n)) (2 ^ 64 - 1) = n := by
    rw [literalValue_toDigits]
    omega
  obtain ⟨d, ds, hd, hdig⟩ := toDigits_head n
  unfold strtoul
  rw [hskip]
  rw [hd] at hmin ⊢
  split
  · rename_i heq
    obtain ⟨rfl, _⟩ := List.cons.inj heq
    cases hdig
  · rename_i heq
    obtain ⟨rfl, _⟩ := List.cons.inj heq
    cases hdig
  · exact hmin

end AbtSt
