import Mathlib.Logic.Function.Basic

/-! A lock word taken by test-and-set. A thread that finds it set polls it until
it is clear, then tries again. -/

namespace AbtSt

/-- Where a thread is with regard to the lock. -/
inductive LockPc
  | away
  | test
  | poll
  | inside
  deriving DecidableEq

/-- What a step of a thread can do to the word and to its own place. -/
inductive LockMove : Bool → LockPc → Bool → LockPc → Prop
  | work {v : Bool} {p : LockPc} : LockMove v p v p
  | want {v : Bool} : LockMove v .away v .test
  | busy : LockMove true .test true .poll
  | clear : LockMove false .poll false .test
  | take : LockMove false .test true .inside
  | release {v : Bool} : LockMove v .inside false .away

section LockHeld

variable {τ : Type} {v v' : Bool} {pc pc' : τ → LockPc} {o : Option τ}

/-- The word is set while `o` is inside, and nobody else is. -/
structure LockHeld (v : Bool) (pc : τ → LockPc) (o : Option τ) : Prop where
  word : v = o.isSome
  inside : ∀ t, pc t = .inside ↔ o = some t

theorem LockHeld.eq (h : LockHeld v pc o) {t u : τ} (ht : pc t = .inside) (hu : pc u = .inside) : t = u :=
  Option.some.inj (((h.inside t).mp ht).symm.trans ((h.inside u).mp hu))

theorem LockHeld.set (h : LockHeld v pc o) {t : τ} (ht : pc t = .inside) : v = true := by
  rw [h.word, (h.inside t).mp ht]
  rfl

theorem LockHeld.free (h : LockHeld false pc o) (t : τ) : pc t ≠ .inside := by
  intro ht
  cases h.set ht

theorem LockHeld.keep (h : LockHeld v pc o) (hpc : ∀ t, pc' t = .inside ↔ pc t = .inside) : LockHeld v pc' o :=
  ⟨h.word, fun t => (hpc t).trans (h.inside t)⟩

theorem LockHeld.step (h : LockHeld v pc o) {t : τ} (hm : LockMove v (pc t) v' (pc' t))
    (hother : ∀ u, u ≠ t → pc' u = pc u) : ∃ o', LockHeld v' pc' o' := by
  have hsame : (pc' t = .inside ↔ pc t = .inside) → ∀ u, pc' u = .inside ↔ pc u = .inside := by
    intro ht u
    by_cases hu : u = t
    · rw [hu]
      exact ht
    · rw [hother u hu]
  generalize hp : pc t = p at hm
  generalize hp' : pc' t = p' at hm
  cases hm with
  | take =>
    refine ⟨some t, rfl, fun u => ?_⟩
    by_cases hu : u = t
    · simp [hu, hp']
    · rw [hother u hu]
      exact ⟨fun hin => absurd hin (h.free u), fun he => absurd (Option.some.inj he).symm hu⟩
  | release =>
    refine ⟨none, rfl, fun u => ?_⟩
    by_cases hu : u = t
    · simp [hu, hp']
    · rw [hother u hu]
      exact ⟨fun hin => absurd (h.eq hin hp) hu, fun he => by cases he⟩
  | _ => exact ⟨o, h.keep (hsame (by simp [hp, hp']))⟩

end LockHeld

end AbtSt
