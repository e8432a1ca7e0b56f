import Mathlib.Data.List.Perm.Basic

/-! One lap over a queue. The head is popped; an entry that stays goes back to the
tail and is counted, another one leaves. The lap is over when the count reaches
the length that the queue had before the pop. -/

namespace AbtSt

variable {α : Type} (stays : α → Bool)

/-- Between two pops of a lap over `ls`, with `served` entries counted. -/
inductive Lap (ls : List α) : List α → Nat → List α → Prop
  | mk (popped todo : List α) : ls = popped ++ todo →
      Lap ls (todo ++ popped.filter stays) (popped.filter stays).length popped

/-- The entry `x` is popped, for the first time or, after the last entry of the
queue has left, for the second time. -/
inductive Held (ls : List α) (x : α) : List α → Nat → List α → Prop
  | first (popped todo : List α) : ls = popped ++ x :: todo →
      Held ls x (todo ++ popped.filter stays) (popped.filter stays).length popped
  | again (rest : List α) : ls.filter stays = x :: rest →
      Held ls x rest (ls.filter stays).length ls

/-- The lap is over: what was popped covers `ls`, and what stays is in the queue. -/
structure LapOver (ls queue popped : List α) : Prop where
  popped : popped = ls ∨ ∃ x ∈ ls, stays x = true ∧ popped = ls ++ [x]
  queue : queue.Perm (ls.filter stays)

variable {stays} {ls queue popped : List α} {served : Nat} {x : α}

theorem Lap.start (ls : List α) : Lap stays ls ls 0 [] := by
  have h : Lap stays ls _ _ [] := .mk [] ls rfl
  simpa using h

theorem Lap.length_le (h : Lap stays ls queue served popped) : popped.length ≤ ls.length := by
  cases h with
  | mk _ todo hls => simp [hls]

theorem Lap.pop (h : Lap stays ls (x :: queue) served popped) : Held stays ls x queue served popped := by
  generalize hq : x :: queue = q at h
  cases h with
  | mk _ todo hls =>
    cases todo with
    | nil =>
      rw [List.append_nil] at hls
      subst hls
      exact .again queue hq.symm
    | cons y todo =>
      obtain ⟨rfl, rfl⟩ := List.cons.inj hq
      exact .first popped todo hls

theorem Lap.empty (h : Lap stays ls [] served popped) : LapOver stays ls [] popped := by
  generalize hq : [] = q at h
  cases h with
  | mk _ todo hls =>
    obtain ⟨rfl, hnil⟩ := List.append_eq_nil_iff.mp hq.symm
    rw [List.append_nil] at hls
    subst hls
    exact ⟨Or.inl rfl, by simp [hnil]⟩

theorem Held.mem (h : Held stays ls x queue served popped) : x ∈ ls := by
  cases h with
  | first _ todo hls => simp [hls]
  | again _ hls => exact List.mem_of_mem_filter (hls ▸ List.mem_cons_self)

theorem Held.leave (h : Held stays ls x queue served popped) (hx : stays x = false) :
    Lap stays ls queue served (popped ++ [x]) := by
  cases h with
  | first _ todo hls =>
    have hfilter : (popped ++ [x]).filter stays = popped.filter stays := by simp [hx]
    rw [← hfilter]
    exact .mk _ todo (by simp [hls])
  | again _ hls =>
    have hmem : x ∈ ls.filter stays := hls ▸ List.mem_cons_self
    simp [hx] at hmem

/-- An entry that stays goes to the tail. The lap is over exactly if no other
entry is ahead of those that have been counted. -/
theorem Held.keep (h : Held stays ls x queue served popped) (hx : stays x = true) :
    (queue.length + 1 ≤ served + 1 → LapOver stays ls (queue ++ [x]) (popped ++ [x])) ∧
    (¬ queue.length + 1 ≤ served + 1 →
      Lap stays ls (queue ++ [x]) (served + 1) (popped ++ [x])) := by
  cases h with
  | first _ todo hls =>
    have hfilter : (popped ++ [x]).filter stays = popped.filter stays ++ [x] := by simp [hx]
    refine ⟨?_, ?_⟩
    · intro hle
      rw [List.length_append] at hle
      obtain rfl : todo = [] := List.eq_nil_of_length_eq_zero (by omega)
      rw [List.nil_append, ← hfilter, ← hls]
      exact ⟨Or.inl rfl, List.Perm.refl _⟩
    · intro _
      have hlap : Lap stays ls _ _ _ := .mk (popped ++ [x]) todo (by simp [hls])
      rw [hfilter, List.length_append, ← List.append_assoc] at hlap
      exact hlap
  | again _ hls =>
    refine ⟨fun _ => ⟨Or.inr ⟨x, ?_, hx, rfl⟩, ?_⟩, fun hlt => ?_⟩
    · exact List.mem_of_mem_filter (hls ▸ List.mem_cons_self)
    · rw [hls]
      exact List.perm_append_singleton x queue
    · rw [hls, List.length_cons] at hlt
      omega

end AbtSt
