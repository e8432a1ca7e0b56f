import AbtSt.ListHead

/-! The list operations as sequences of writes, so that one can be stopped on its
way. -/

namespace AbtSt

inductive ListWrite
  | next (a v : Nat)
  | prev (a v : Nat)

namespace ListWrite

def exec (m : ListMem) : ListWrite → ListMem
  | next a v => m.setNext a v
  | prev a v => m.setPrev a v

def addr : ListWrite → Nat
  | next a _ => a
  | prev a _ => a

def run (ws : List ListWrite) (m : ListMem) : ListMem := ws.foldl exec m

end ListWrite

/-- The instructions of `__list_add`. -/
def insertWrites (new prev next : Nat) : List ListWrite :=
  [.prev next new, .next new next, .prev new prev, .next prev new]

/-- The instructions of `list_del` after its reads. -/
def delWrites (entry prev next : Nat) : List ListWrite :=
  [.prev next prev, .next prev next, .next entry listPoison1, .prev entry listPoison2]

namespace ListWrite

theorem exec_at (w : ListWrite) {m m' : ListMem} {c : Nat} (h : m c = m' c) :
    w.exec m c = w.exec m' c := by
  have hnext : ∀ a v, m.setNext a v c = m'.setNext a v c := by
    intro a v
    by_cases hc : c = a
    · subst hc
      simp [ListMem.setNext, h]
    · simp [ListMem.setNext, hc, h]
  have hprev : ∀ a v, m.setPrev a v c = m'.setPrev a v c := by
    intro a v
    by_cases hc : c = a
    · subst hc
      simp [ListMem.setPrev, h]
    · simp [ListMem.setPrev, hc, h]
  cases w with
  | next a v => exact hnext a v
  | prev a v => exact hprev a v

theorem exec_frame (w : ListWrite) (m : ListMem) {c : Nat} (h : w.addr ≠ c) : w.exec m c = m c := by
  cases w with
  | next a v => exact Function.update_of_ne (Ne.symm h) _ _
  | prev a v => exact Function.update_of_ne (Ne.symm h) _ _

theorem run_at (ws : List ListWrite) {m m' : ListMem} {c : Nat} (h : m c = m' c) :
    run ws m c = run ws m' c := by
  induction ws generalizing m m' with
  | nil => exact h
  | cons w ws ih => exact ih (w.exec_at h)

theorem run_frame {ws : List ListWrite} (m : ListMem) {c : Nat} (h : ∀ w ∈ ws, w.addr ≠ c) :
    run ws m c = m c := by
  induction ws generalizing m with
  | nil => rfl
  | cons w ws ih =>
    have htail : run ws (w.exec m) c = w.exec m c := ih _ (fun v hv => h v (List.mem_cons_of_mem w hv))
    exact htail.trans (w.exec_frame m (h w List.mem_cons_self))

end ListWrite

/-- All but `rest` of the writes `full` are done on `m`. -/
def Partly (m m' : ListMem) (full rest : List ListWrite) : Prop :=
  ∃ done, done ++ rest = full ∧ m' = ListWrite.run done m

section Partly

variable {m m' : ListMem} {full rest : List ListWrite}

theorem Partly.write {w : ListWrite} (h : Partly m m' full (w :: rest)) :
    Partly m (w.exec m') full rest := by
  obtain ⟨before, hfull, rfl⟩ := h
  refine ⟨before ++ [w], by rw [← hfull]; simp, ?_⟩
  rw [ListWrite.run, ListWrite.run, List.foldl_append]
  rfl

theorem Partly.all (h : Partly m m' full []) : m' = ListWrite.run full m := by
  obtain ⟨before, rfl, rfl⟩ := h
  rw [List.append_nil]

theorem Partly.none (h : Partly m m' [] []) : m' = m := h.all

/-- Both memories may change, away from the writes differently from before. -/
theorem Partly.rebase {m₁ m₁' : ListMem} {live : Nat → Prop} (h : Partly m m' full rest)
    (hfull : ∀ w ∈ full, live w.addr) (hlive : ∀ c, live c → m₁ c = m c ∧ m₁' c = m' c)
    (hdead : ∀ c, ¬ live c → m₁' c = m₁ c) : Partly m₁ m₁' full rest := by
  obtain ⟨before, hsplit, rfl⟩ := h
  refine ⟨before, hsplit, ?_⟩
  funext c
  by_cases hc : live c
  · rw [(hlive c hc).2]
    exact ListWrite.run_at before (hlive c hc).1.symm
  · rw [hdead c hc]
    refine (ListWrite.run_frame m₁ (fun w hw he => hc ?_)).symm
    rw [← he]
    exact hfull w (hsplit ▸ List.mem_append_left rest hw)

theorem Partly.dead (h : Partly m m' full rest) {c : Nat} (hc : ∀ w ∈ full, w.addr ≠ c) :
    m' c = m c := by
  obtain ⟨before, rfl, rfl⟩ := h
  exact ListWrite.run_frame m (fun w hw => hc w (List.mem_append_left rest hw))

end Partly

end AbtSt
