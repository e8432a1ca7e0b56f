import AbtSt.Cores

/-! A removed core and the partitions. Its loads go to the least loaded used
stream of the node, whatever partition that stream belongs to. -/

namespace AbtSt

/-- An order of equal keys that puts `e` first wherever it may be first. -/
def favouring (e : SortParam) : Platform where
  qsort l := if e ∈ l ∧ ∀ x ∈ l, e.ios ≤ x.ios then e :: sortedPlatform.qsort (l.erase e)
    else sortedPlatform.qsort l
  qsort_perm l := by
    split_ifs with h
    · exact ((sortedPlatform.qsort_perm _).cons e).trans (List.perm_cons_erase h.1).symm
    · exact sortedPlatform.qsort_perm l
  qsort_sorted l := by
    split_ifs with h
    · refine List.pairwise_cons.mpr ⟨?_, sortedPlatform.qsort_sorted _⟩
      intro x hx
      exact h.2 x (List.mem_of_mem_erase ((sortedPlatform.qsort_perm _).mem_iff.mp hx))
    · exact sortedPlatform.qsort_sorted l
  divZero := none

theorem favouring_qsort {e : SortParam} {l : List SortParam} (he : e ∈ l)
    (hmin : ∀ x ∈ l, e.ios ≤ x.ios) :
    (favouring e).qsort l = e :: sortedPlatform.qsort (l.erase e) := if_pos ⟨he, hmin⟩

/-- A least loaded one of the used streams of node `n` other than `c`. -/
def LeastLoaded (cfg : Config) (g : Global) (n c d : Nat) : Prop :=
  d ∈ otherStreams cfg g n (some c) ∧
    ∀ e ∈ otherStreams cfg g n (some c), i32 (g.qdepth d) ≤ i32 (g.qdepth e)

section Removal

variable {cfg : Config} {g : Global} {n c : Nat}

/-- The loads of `c` go to a least loaded stream, and any of these may be the
one, depending on the order of equal keys. -/
theorem removeCore_target (hc : c < cfg.nrCores) (hint : c < 2 ^ 32)
    (hu : (g.streams c).used = true) (hn : cfg.numaOf c = some n) :
    (∀ pf, (otherStreams cfg g n (some c) = [] ∧ abtstRebProcessRemoveCore pf cfg c g = .ok g) ∨
      ∃ d, LeastLoaded cfg g n c d ∧ abtstRebProcessRemoveCore pf cfg c g =
        (abtstCombineStreams g c d >>= fun g => pure (setUnused (cfg.numaInfo n).endCore g))) ∧
    ∀ d, LeastLoaded cfg g n c d → ∃ pf, abtstRebProcessRemoveCore pf cfg c g =
      (abtstCombineStreams g c d >>= fun g => pure (setUnused (cfg.numaInfo n).endCore g)) := by
  constructor
  · intro pf
    rcases abtstRebProcessRemoveCore_used pf hc hint hu hn with hnil | ⟨e, rest, hsorted, heq⟩
    · exact Or.inl hnil
    · have hperm := pf.qsort_perm ((otherStreams cfg g n (some c)).map fun i => ⟨i32 (g.qdepth i), i⟩)
      have hpw := pf.qsort_sorted ((otherStreams cfg g n (some c)).map fun i => ⟨i32 (g.qdepth i), i⟩)
      rw [hsorted] at hperm hpw
      obtain ⟨d, hd, rfl⟩ := List.mem_map.mp (hperm.mem_iff.mp List.mem_cons_self)
      refine Or.inr ⟨d, ⟨hd, ?_⟩, heq⟩
      intro x hx
      rcases List.mem_cons.mp (hperm.mem_iff.mpr (List.mem_map_of_mem hx)) with he | hrest
      · exact Int.le_of_eq (congrArg SortParam.ios he).symm
      · exact (List.pairwise_cons.mp hpw).1 _ hrest
  · rintro d ⟨hd, hmin⟩
    have hfirst := favouring_qsort
      (List.mem_map_of_mem (f := fun i => (⟨i32 (g.qdepth i), i⟩ : SortParam)) hd) (by
        intro x hx
        obtain ⟨y, hy, rfl⟩ := List.mem_map.mp hx
        exact hmin y hy)
    refine ⟨favouring ⟨i32 (g.qdepth d), d⟩, ?_⟩
    rcases abtstRebProcessRemoveCore_used (favouring ⟨i32 (g.qdepth d), d⟩) hc hint hu hn with
      ⟨hnil, _⟩ | ⟨e, rest, hsorted, heq⟩
    · rw [hnil] at hd
      simp at hd
    · rw [hfirst] at hsorted
      obtain ⟨rfl, -⟩ := List.cons.inj hsorted
      exact heq

/-- The loads of `c` and no others have gone to `d`. -/
structure SentTo (g : Global) (c d : Nat) (t : Global) : Prop where
  mappings : t.mappings = g.mappings
  partId : ∀ x, (t.streams x).partId = (g.streams x).partId
  source : (t.streams c).loadQ = []
  target : (t.streams d).loadQ = (g.streams c).loadQ.reverse ++ (g.streams d).loadQ
  others : ∀ x, x ≠ c → x ≠ d → (t.streams x).loadQ = (g.streams x).loadQ

theorem removeCore_sentTo (e : Nat) (hcount : (g.streams c).nrLoads = (g.streams c).loadQ.length)
    {d : Nat} (hne : c ≠ d) : ∃ t : Global,
      (abtstCombineStreams g c d >>= fun g => pure (setUnused e g)) = .ok t ∧ SentTo g c d t := by
  have hunused : ∀ (s : Global) (e x : Nat), ((setUnused e s).streams x).loadQ = (s.streams x).loadQ ∧
      ((setUnused e s).streams x).partId = (s.streams x).partId := by
    intro s e x
    by_cases hx : x = e
    · subst hx
      rw [setUnused_self]
      exact ⟨rfl, rfl⟩
    · rw [setUnused_other s hx]
      exact ⟨rfl, rfl⟩
  obtain ⟨s, hcomb⟩ := abtstCombineStreams_counted d hcount
  have hshape := combine_sameShape hne hcomb
  obtain ⟨hsrc, hdst⟩ := combine_queues hne hcount hcomb
  rw [hcomb]
  refine ⟨setUnused e s, rfl, hshape.mappings,
    fun x => ((hunused s e x).2).trans (hshape.partId x), ?_, ?_, ?_⟩
  · rw [(hunused s e c).1, hsrc]
  · rw [(hunused s e d).1, hdst]
  · intro x hxc hxd
    rw [(hunused s e x).1, combine_other hne hcomb hxc hxd]

theorem SentTo.unchanged {d : Nat} {t : Global} (h : SentTo g c d t) (hnil : (g.streams c).loadQ = []) :
    ∀ x, (t.streams x).loadQ = (g.streams x).loadQ := by
  intro x
  by_cases hxc : x = c
  · rw [hxc, h.source, hnil]
  · by_cases hxd : x = d
    · rw [hxd, h.target, hnil]
      rfl
    · exact h.others x hxc hxd

theorem SentTo.partId_eq {d : Nat} {t : Global} (h : SentTo g c d t) (hconf : Confined g)
    (hconf' : Confined t) (hload : (g.streams c).loadQ ≠ []) :
    (g.streams d).partId = (g.streams c).partId := by
  obtain ⟨l, hl⟩ := List.exists_mem_of_ne_nil _ hload
  have hmoved : l ∈ (t.streams d).loadQ := by
    rw [h.target]
    exact List.mem_append_left _ (List.mem_reverse.mpr hl)
  have hpid := hconf' d l hmoved
  rw [h.partId, h.mappings] at hpid
  rw [hpid, hconf c l hl]

theorem SentTo.confined {d : Nat} {t : Global} (h : SentTo g c d t) (hconf : Confined g)
    (hsame : (g.streams d).partId = (g.streams c).partId) : Confined t := by
  intro x l hl
  rw [h.partId, h.mappings]
  by_cases hxc : x = c
  · rw [hxc, h.source] at hl
    simp at hl
  · by_cases hxd : x = d
    · rw [hxd, h.target] at hl
      rw [hxd]
      rcases List.mem_append.mp hl with hl | hl
      · rw [hsame]
        exact hconf c l (List.mem_reverse.mp hl)
      · exact hconf d l hl
    · rw [h.others x hxc hxd] at hl
      exact hconf x l hl

end Removal

/-- What a removal should keep: the loads on their partitions, unless it moves
nothing. -/
def RemovalConfined (cfg : Config) (g : Global) (c : Nat) : Prop :=
  ∀ pf, ∃ t, abtstRebProcessRemoveCore pf cfg c g = .ok t ∧
    (Confined t ∨ ∀ d, (t.streams d).loadQ = (g.streams d).loadQ)

/-- Partitions are respected exactly if there is no load to move, or every
stream that may be chosen is of the partition of the core. -/
theorem removalConfined_iff {cfg : Config} {g : Global} {n c : Nat} (hconf : Confined g)
    (hcount : (g.streams c).nrLoads = (g.streams c).loadQ.length)
    (hu : (g.streams c).used = true) (hc : c < cfg.nrCores) (hint : c < 2 ^ 32)
    (hn : cfg.numaOf c = some n) :
    RemovalConfined cfg g c ↔ (g.streams c).loadQ = [] ∨
      ∀ d, LeastLoaded cfg g n c d → (g.streams d).partId = (g.streams c).partId := by
  obtain ⟨hall, hany⟩ := removeCore_target hc hint hu hn
  have hne : ∀ d, LeastLoaded cfg g n c d → c ≠ d := by
    rintro d ⟨hd, -⟩ rfl
    exact (mem_otherStreams.mp hd).2.2 rfl
  constructor
  · intro h
    by_contra hbad
    rw [not_or] at hbad
    obtain ⟨hload, hother⟩ := hbad
    apply hother
    intro d hd
    obtain ⟨pf, heq⟩ := hany d hd
    obtain ⟨t, ht, hsent⟩ := removeCore_sentTo (cfg.numaInfo n).endCore hcount (hne d hd)
    obtain ⟨t', ht', hkept⟩ := h pf
    rw [heq, ht] at ht'
    obtain rfl := Except.ok.inj ht'
    rcases hkept with hconf' | hsame
    · exact hsent.partId_eq hconf hconf' hload
    · exact absurd ((hsame c).symm.trans hsent.source) hload
  · intro hcond pf
    rcases hall pf with ⟨-, heq⟩ | ⟨d, hd, heq⟩
    · exact ⟨g, heq, Or.inl hconf⟩
    · obtain ⟨t, ht, hsent⟩ := removeCore_sentTo (cfg.numaInfo n).endCore hcount (hne d hd)
      refine ⟨t, heq.trans ht, ?_⟩
      rcases hcond with hnil | hsame
      · exact Or.inr (hsent.unchanged hnil)
      · exact Or.inl (hsent.confined hconf (hsame d hd))

/-- Cores 1 and 2 of the only node are of partition 0, core 3 of partition 1. -/
def sharedNode : Config where
  nrCores := 4
  nrNumas := 1
  numaInfo _ := ⟨0, 3⟩
  partitions := [⟨0, [1, 2]⟩, ⟨1, [3]⟩]
  partitionMap c := if c = 0 then -1 else if c = 3 then 1 else 0

/-- One load, on core 1; core 3 has depth `d` and core 2 depth 5. -/
def sharedState (d : Nat) : Global :=
  { blank with
    nrMappings := 1
    mappings := fun _ => ⟨0, 0, 1⟩
    streams := fun c =>
      { rank := c, used := decide (1 ≤ c ∧ c ≤ 3), partId := if c = 3 then 1 else 0
        loadQ := if c = 1 then [⟨0, 0⟩] else []
        nrLoads := if c = 1 then 1 else 0
        totalQdepth := if c = 2 then 5 else if c = 3 then d else 0 } }

theorem sharedState_confined (d : Nat) : Confined (sharedState d) := by
  intro c l hl
  by_cases hc : c = 1
  · subst hc
    rfl
  · simp [sharedState, hc] at hl

theorem sharedState_removalConfined : RemovalConfined sharedNode (sharedState 50) 1 := by
  have hothers : otherStreams sharedNode (sharedState 50) 0 (some 1) = [2, 3] := by decide
  have hnode : sharedNode.numaOf 1 = some 0 := by decide
  refine (removalConfined_iff (sharedState_confined 50) rfl rfl (by decide) (by decide) hnode).mpr
    (Or.inr ?_)
  rintro d ⟨hd, hmin⟩
  rw [hothers] at hd hmin
  rcases List.mem_cons.mp hd with rfl | hd
  · rfl
  · obtain rfl := List.mem_singleton.mp hd
    exact absurd (hmin 2 (by decide)) (by decide +kernel)

/-- The idle core 3 gets the load, which is not of its partition. -/
theorem sharedState_not_removalConfined :
    Confined (sharedState 0) ∧ ¬ RemovalConfined sharedNode (sharedState 0) 1 := by
  refine ⟨sharedState_confined 0, fun h => ?_⟩
  obtain ⟨t, ht, hkept⟩ := h sortedPlatform
  have hrun : (match abtstRebProcessRemoveCore sortedPlatform sharedNode 1 (sharedState 0) with
      | .ok t => decide ((t.streams 3).loadQ = [⟨0, 0⟩] ∧ (t.streams 3).partId = 1 ∧
          (t.mappings 0).partitionId = 0)
      | .error _ => false) = true := by decide +kernel
  have hone : ((1 : Nat) : Int) = 1 := rfl
  rw [hone] at ht
  rw [ht] at hrun
  obtain ⟨hq, hp, hm⟩ := of_decide_eq_true hrun
  rcases hkept with hconf | hsame
  · have hpid := hconf 3 ⟨0, 0⟩ (by simp [hq])
    rw [hp, hm] at hpid
    exact absurd hpid (by decide)
  · have hq' := hsame 3
    rw [hq] at hq'
    exact absurd hq' (by decide)

end AbtSt
