import AbtSt.Startup
import AbtSt.Pass
import Mathlib.Data.List.Nodup

/-! Placement of loads. Each load is linked once, into the queue of one used
stream of its partition, and its target is that stream; every action of the
rebalancer keeps this. -/

namespace AbtSt

/-- The loads of `S`, and no others, are linked, each into one used stream. -/
structure Linked (cfg : Config) (g : Global) (S : LoadId → Prop) : Prop where
  rank : ∀ c < cfg.nrCores, (g.streams c).rank = c
  used_lt : ∀ c, (g.streams c).used = true → c < cfg.nrCores
  nodup : ∀ c, (g.streams c).loadQ.Nodup
  unique : ∀ c d l, l ∈ (g.streams c).loadQ → l ∈ (g.streams d).loadQ → c = d
  used : ∀ c l, l ∈ (g.streams c).loadQ → (g.streams c).used = true
  count : ∀ c, (g.streams c).nrLoads = (g.streams c).loadQ.length
  dest : ∀ c l, l ∈ (g.streams c).loadQ → (g.loads l).destRank = (g.streams c).rank
  mem_iff : ∀ l, S l ↔ ∃ c, l ∈ (g.streams c).loadQ

def Confined (g : Global) : Prop :=
  ∀ c l, l ∈ (g.streams c).loadQ → (g.streams c).partId = (g.mappings l.mapping).partitionId

theorem Linked.of_queues {cfg : Config} {g s : Global} {S : LoadId → Prop} (h : Linked cfg g S)
    (hs : SameQueues g s) : Linked cfg s S := by
  refine ⟨?_, ?_, ?_, ?_, ?_, ?_, ?_, ?_⟩
  · intro c hc
    rw [hs.rank, h.rank c hc]
  · intro c
    rw [hs.used]
    exact h.used_lt c
  · intro c
    rw [hs.loadQ]
    exact h.nodup c
  · intro c d l
    rw [hs.loadQ, hs.loadQ]
    exact h.unique c d l
  · intro c l
    rw [hs.loadQ, hs.used]
    exact h.used c l
  · intro c
    rw [hs.nrLoads, hs.loadQ]
    exact h.count c
  · intro c l
    rw [hs.loadQ, hs.destRank, hs.rank]
    exact h.dest c l
  · intro l
    simp only [hs.loadQ]
    exact h.mem_iff l

theorem Linked.emptied {cfg : Config} {g : Global} {S : LoadId → Prop} (h : Linked cfg g S)
    {c : Nat} (he : Emptied g c) : (g.streams c).loadQ = [] := by
  rcases he with hz | hq
  · exact List.eq_nil_of_length_eq_zero (by rw [← h.count c, hz])
  · exact hq

section Moved

variable {cfg : Config} {g : Global} {S : LoadId → Prop} {src dst : Nat} {ms : List LoadId}
  (a b : Nat)

theorem mem_moved_loadQ (h : Linked cfg g S) (hne : src ≠ dst)
    (hms : ms.Sublist (g.streams src).loadQ) (c : Nat) (l : LoadId) :
    l ∈ ((g.moved src dst ms a b).streams c).loadQ ↔
      (l ∈ ms ∧ c = dst) ∨ (l ∉ ms ∧ l ∈ (g.streams c).loadQ) := by
  by_cases hs : c = src
  · subst hs
    rw [moved_src g ms a b hne]
    simp only [(h.nodup c).mem_sdiff_iff, hne, and_false, false_or]
    exact and_comm
  · by_cases hd : c = dst
    · subst hd
      rw [moved_dst g ms a b]
      simp only [List.mem_append, List.mem_reverse, and_true]
      constructor
      · rintro (hl | hl)
        · exact Or.inl hl
        · exact Or.inr ⟨fun hm => hne (h.unique _ _ l (hms.subset hm) hl), hl⟩
      · rintro (hl | hl)
        · exact Or.inl hl
        · exact Or.inr hl.2
    · rw [moved_other g ms a b hs hd]
      simp only [hd, and_false, false_or]
      constructor
      · exact fun hl => ⟨fun hm => hs (h.unique _ _ l hl (hms.subset hm)), hl⟩
      · exact fun hl => hl.2

theorem moved_destRank (l : LoadId) : ((g.moved src dst ms a b).loads l).destRank =
    if l ∈ ms then (g.streams dst).rank else (g.loads l).destRank := by
  unfold Global.moved
  by_cases h : l ∈ ms <;> simp [h]

theorem Linked.moved (h : Linked cfg g S) (hne : src ≠ dst) (hu : (g.streams dst).used = true)
    (hms : ms.Sublist (g.streams src).loadQ) : Linked cfg (g.moved src dst ms a b) S := by
  have hshape := moved_sameShape g ms a b hne
  have hmem := mem_moved_loadQ a b h hne hms
  have hdis : ∀ l ∈ ms, l ∉ (g.streams dst).loadQ :=
    fun l hm hl => hne (h.unique _ _ l (hms.subset hm) hl)
  refine ⟨?_, ?_, ?_, ?_, ?_, ?_, ?_, ?_⟩
  · intro c hc
    rw [hshape.rank, h.rank c hc]
  · intro c
    rw [hshape.used]
    exact h.used_lt c
  · intro c
    by_cases hs : c = src
    · subst hs
      rw [moved_src g ms a b hne]
      exact (h.nodup c).diff
    · by_cases hd : c = dst
      · subst hd
        rw [moved_dst g ms a b]
        apply List.Nodup.append (List.nodup_reverse.mpr ((h.nodup src).sublist hms)) (h.nodup c)
        intro l hl
        exact hdis l (List.mem_reverse.mp hl)
      · rw [moved_other g ms a b hs hd]
        exact h.nodup c
  · intro c d l hc hd
    rcases (hmem c l).mp hc with ⟨hm, rfl⟩ | ⟨hm, hc⟩
    · rcases (hmem d l).mp hd with ⟨_, rfl⟩ | ⟨hm', _⟩
      · rfl
      · exact absurd hm hm'
    · rcases (hmem d l).mp hd with ⟨hm', _⟩ | ⟨_, hd⟩
      · exact absurd hm' hm
      · exact h.unique c d l hc hd
  · intro c l hc
    rw [hshape.used]
    rcases (hmem c l).mp hc with ⟨_, rfl⟩ | ⟨_, hc⟩
    · exact hu
    · exact h.used c l hc
  · intro c
    have hlen : ms.length + ((g.streams src).loadQ.diff ms).length = (g.streams src).loadQ.length := by
      rw [← List.length_append]
      exact (sublist_append_diff hms).length_eq
    by_cases hs : c = src
    · subst hs
      rw [moved_src g ms a b hne]
      have := h.count c
      dsimp only
      omega
    · by_cases hd : c = dst
      · subst hd
        rw [moved_dst g ms a b]
        have := h.count c
        simp only [List.length_append, List.length_reverse]
        omega
      · rw [moved_other g ms a b hs hd]
        exact h.count c
  · intro c l hc
    rw [hshape.rank, moved_destRank]
    rcases (hmem c l).mp hc with ⟨hm, rfl⟩ | ⟨hm, hc⟩
    · rw [if_pos hm]
    · rw [if_neg hm]
      exact h.dest c l hc
  · intro l
    rw [h.mem_iff l]
    constructor
    · rintro ⟨c, hc⟩
      by_cases hm : l ∈ ms
      · exact ⟨dst, (hmem dst l).mpr (Or.inl ⟨hm, rfl⟩)⟩
      · exact ⟨c, (hmem c l).mpr (Or.inr ⟨hm, hc⟩)⟩
    · rintro ⟨c, hc⟩
      rcases (hmem c l).mp hc with ⟨hm, _⟩ | ⟨_, hc⟩
      · exact ⟨src, hms.subset hm⟩
      · exact ⟨c, hc⟩

theorem Confined.moved (hc : Confined g) (h : Linked cfg g S) (he : Ends g src dst)
    (hms : ms.Sublist (g.streams src).loadQ) : Confined (g.moved src dst ms a b) := by
  intro c l hl
  have hshape := moved_sameShape g ms a b he.ne
  rw [hshape.partId, hshape.mappings]
  rcases (mem_moved_loadQ a b h he.ne hms c l).mp hl with ⟨hm, rfl⟩ | ⟨_, hl⟩
  · rw [← he.partId]
    exact hc src l (hms.subset hm)
  · exact hc c l hl

end Moved

theorem RebStep.linked {cfg : Config} {a : Act} {s t : Global} {S : LoadId → Prop}
    (h : RebStep cfg a s t) (hs : Linked cfg s S) : Linked cfg t S := by
  rcases h.queues with ⟨hq, _⟩ | ⟨_, _, _, _, _, he, _, hms, rfl⟩ | ⟨c, p, _, _, _, rfl⟩
  · exact hs.of_queues hq
  · exact hs.moved _ _ he.ne he.used_dst hms
  · exact hs.of_queues (setPartitionId_queues c p s)

theorem RebStep.confined {cfg : Config} {a : Act} {s t : Global} {S : LoadId → Prop}
    (h : RebStep cfg a s t) (hs : Linked cfg s S) (hc : Confined s) : Confined t := by
  rcases h.queues with ⟨hq, hp⟩ | ⟨_, _, _, _, _, he, _, hms, rfl⟩ | ⟨d, p, _, _, he, rfl⟩
  · intro c l hl
    rw [hq.loadQ] at hl
    rw [hp, hq.mappings]
    exact hc c l hl
  · exact hc.moved _ _ hs he hms
  · intro c l hl
    have hq := setPartitionId_queues d p s
    rw [hq.loadQ] at hl
    by_cases hcd : c = d
    · subst hcd
      rw [hs.emptied he] at hl
      simp at hl
    · have hsame : ((setPartitionId d p s).streams c).partId = (s.streams c).partId := by
        simp [setPartitionId, Global.setStream, hcd]
      rw [hsame]
      exact hc c l hl

end AbtSt
