import Mathlib.Data.List.Basic
import Mathlib.Order.Basic

/-! A sorted list searched from both ends. The first scan looks for a small
entry and stops before the last one; the second looks for a large entry and
comes down as far as the first. When every small entry has a smaller key than
every large one, nothing is missed. -/

namespace AbtSt

variable {α : Type*}

/-- The pair found, large entry first. -/
def twoEnds (P Q : α → Bool) (l : List α) : Option (α × α) :=
  match (List.range (l.length - 1)).find? fun i => (l[i]?).any P with
  | none => none
  | some i =>
    match l[i]? with
    | none => none
    | some t => ((l.drop (i + 1)).reverse.find? Q).map fun s => (s, t)

theorem twoEnds_some {P Q : α → Bool} {l : List α} {s t : α} (h : twoEnds P Q l = some (s, t)) :
    ∃ l₁ l₂ l₃, l = l₁ ++ t :: (l₂ ++ s :: l₃) ∧ P t = true ∧ Q s = true ∧
      (∀ a ∈ l₁, P a = false) ∧ ∀ b ∈ l₃, Q b = false := by
  unfold twoEnds at h
  cases hf : (List.range (l.length - 1)).find? fun i => (l[i]?).any P with
  | none =>
    rw [hf] at h
    cases h
  | some i =>
    rw [hf] at h
    dsimp only at h
    cases hi : l[i]? with
    | none => simp [hi] at h
    | some e =>
      rw [hi] at h
      obtain ⟨s', hs, heq⟩ := Option.map_eq_some_iff.mp h
      rw [Prod.mk.injEq] at heq
      obtain ⟨rfl, rfl⟩ := heq
      obtain ⟨hP, -, hbefore⟩ := List.find?_range_eq_some.mp hf
      obtain ⟨hQ, l₃, l₂, hsplit, hafter⟩ := List.find?_eq_some_iff_append.mp hs
      have hlt := (List.getElem?_eq_some_iff.mp hi).1
      have hdrop : l.drop (i + 1) = l₂.reverse ++ s' :: l₃.reverse := by
        rw [← List.reverse_reverse (l.drop (i + 1)), hsplit]
        simp
      refine ⟨l.take i, l₂.reverse, l₃.reverse, ?_, by simpa [hi] using hP, hQ, ?_, ?_⟩
      · rw [← hdrop, ← (List.getElem?_eq_some_iff.mp hi).2, ← List.drop_eq_getElem_cons hlt,
          List.take_append_drop]
      · intro a ha
        obtain ⟨j, hj, rfl⟩ := List.mem_take_iff_getElem.mp ha
        have hno := hbefore j (by omega)
        simpa [List.getElem?_eq_getElem (show j < l.length by omega)] using hno
      · intro b hb
        simpa using hafter b (List.mem_reverse.mp hb)

section Sorted

variable {κ : Type*} [Preorder κ] {key : α → κ} {P Q : α → Bool} {l : List α}
  (hsorted : l.Pairwise fun a b => key a ≤ key b)

include hsorted

theorem twoEnds_least {s t : α} (h : twoEnds P Q l = some (s, t)) {a : α} (ha : a ∈ l)
    (hP : P a = true) : key t ≤ key a := by
  obtain ⟨l₁, l₂, l₃, rfl, -, -, hbefore, -⟩ := twoEnds_some h
  rcases List.mem_append.mp ha with ha | ha
  · rw [hbefore a ha] at hP
    cases hP
  · rcases List.mem_cons.mp ha with rfl | ha
    · exact le_refl _
    · exact (List.pairwise_cons.mp (List.pairwise_append.mp hsorted).2.1).1 a ha

theorem twoEnds_greatest {s t : α} (h : twoEnds P Q l = some (s, t)) {b : α} (hb : b ∈ l)
    (hQ : Q b = true) : key b ≤ key s := by
  obtain ⟨l₁, l₂, l₃, rfl, -, -, -, hafter⟩ := twoEnds_some h
  rw [← List.cons_append, ← List.append_assoc] at hb hsorted
  rcases List.mem_append.mp hb with hb | hb
  · exact (List.pairwise_append.mp hsorted).2.2 b hb s List.mem_cons_self
  · rcases List.mem_cons.mp hb with rfl | hb
    · exact le_refl _
    · rw [hafter b hb] at hQ
      cases hQ

/-- The scans meet only when one of the two kinds is missing. -/
theorem twoEnds_isSome_iff (hPQ : ∀ a ∈ l, ∀ b ∈ l, P a = true → Q b = true → key a < key b) :
    (∃ pair, twoEnds P Q l = some pair) ↔ (∃ a ∈ l, P a = true) ∧ ∃ b ∈ l, Q b = true := by
  constructor
  · rintro ⟨⟨s, t⟩, h⟩
    obtain ⟨l₁, l₂, l₃, rfl, hP, hQ, -⟩ := twoEnds_some h
    exact ⟨⟨t, by simp, hP⟩, s, by simp, hQ⟩
  · rintro ⟨⟨a, ha, hP⟩, b, hb, hQ⟩
    obtain ⟨i, hi, rfl⟩ := List.getElem_of_mem ha
    obtain ⟨j, hj, rfl⟩ := List.getElem_of_mem hb
    have hij : i < j := by
      by_contra hle
      rcases Nat.lt_or_ge j i with hlt | hge
      · exact absurd (hPQ _ ha _ hb hP hQ)
          (not_lt_of_ge (List.pairwise_iff_getElem.mp hsorted j i hj hi hlt))
      · obtain rfl : i = j := by omega
        exact lt_irrefl _ (hPQ _ ha _ hb hP hQ)
    have hany : ((l[i]?).any P) = true := by simpa [hi] using hP
    unfold twoEnds
    cases hf : (List.range (l.length - 1)).find? fun i => (l[i]?).any P with
    | none =>
      have hno := List.find?_range_eq_none.mp hf i (by omega)
      rw [hany] at hno
      cases hno
    | some k =>
      obtain ⟨-, hk, hbefore⟩ := List.find?_range_eq_some.mp hf
      have hk := List.mem_range.mp hk
      have hki : k ≤ i := by
        by_contra hlt
        have hno := hbefore i (by omega)
        rw [hany] at hno
        cases hno
      dsimp only
      rw [List.getElem?_eq_getElem (show k < l.length by omega)]
      have hmem : l[j] ∈ (l.drop (k + 1)).reverse := by
        rw [List.mem_reverse, List.mem_drop_iff_getElem]
        exact ⟨j - (k + 1), by omega, by congr 1; omega⟩
      obtain ⟨s, hs⟩ := Option.isSome_iff_exists.mp (List.find?_isSome.mpr ⟨_, hmem, hQ⟩)
      exact ⟨(s, l[k]), by rw [hs]; rfl⟩

end Sorted

end AbtSt
