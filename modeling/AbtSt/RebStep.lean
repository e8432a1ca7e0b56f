import AbtSt.Fresh

/-! What one action of the rebalancer can do. Statistics are read only while
they are fresh; a migration joins two used streams of one partition; a core
changes its partition only when it is empty and not the last one; a node other
than node 0 goes to sleep only when it is empty. -/

namespace AbtSt

def PartsInRange (cfg : Config) (g : Global) : Prop :=
  ∀ c, (g.streams c).used = true → (g.streams c).partId < cfg.nrPartitions

inductive RebStep (cfg : Config) : Act → Global → Global → Prop
  | readStats {g : Global} : Fresh cfg g → RebStep cfg .readStats g g
  | updateStreamsStat (g : Global) :
      RebStep cfg .updateStreamsStat g (abtstUpdateStreamsStat cfg g)
  | updatePartitionStats (g : Global) :
      RebStep cfg .updatePartitionStats g (abtstUpdatePartitionStats cfg g)
  | updateNumaStat (g : Global) (n : Nat) (s : NumaStat) :
      RebStep cfg (.updateNumaStat n) g (g.setNumaStat n s)
  | updatePowerStat (g : Global) (n pct : Nat) :
      RebStep cfg (.updatePowerStat n) g (abtstSetNumaPsPct g n pct)
  | combine {g s : Global} {src dst : Nat} : Ends g src dst →
      SameNuma cfg src dst ∨ CrossNuma cfg g src dst →
      abtstCombineStreams g src dst = .ok s → RebStep cfg (.combine src dst) g s
  | rebalance {g s : Global} {src dst avg : Nat} : Ends g src dst → SameNuma cfg src dst →
      abtstRebalanceStreams g ⟨i32 (g.qdepth dst), dst⟩ ⟨i32 (g.qdepth src), src⟩ avg = .ok (some s) →
      RebStep cfg (.rebalance src dst) g s
  | setPartition {g : Global} {c d n p : Nat} : Ends g c d → n < cfg.nrNumas →
      c ∈ cfg.coresOf n → d ∈ cfg.coresOf n → p < cfg.nrPartitions → Emptied g c →
      RebStep cfg (.setPartition c p) g (setPartitionId c p g)
  | sleep {g : Global} {n : Nat} : n ≠ 0 → n < cfg.nrNumas → g.power.psState n = false →
      (∀ c ∈ cfg.coresOf n, (g.streams c).used = true → Emptied g c) →
      RebStep cfg (.setPsState n true) g (abtstSetNumaPsState n true g)
  | wake {g : Global} {n : Nat} : n < cfg.nrNumas → g.power.psState n = true →
      RebStep cfg (.setPsState n false) g (abtstSetNumaPsState n false g)
  | resetStreamsStat (g : Global) :
      RebStep cfg .resetStreamsStat g (abtstResetStreamsStat cfg g)

structure SameQueues (g s : Global) : Prop where
  rank : ∀ c, (s.streams c).rank = (g.streams c).rank
  used : ∀ c, (s.streams c).used = (g.streams c).used
  loadQ : ∀ c, (s.streams c).loadQ = (g.streams c).loadQ
  nrLoads : ∀ c, (s.streams c).nrLoads = (g.streams c).nrLoads
  destRank : ∀ l, (s.loads l).destRank = (g.loads l).destRank
  nrMappings : s.nrMappings = g.nrMappings
  mappings : s.mappings = g.mappings

theorem SameQueues.of_eq {g s : Global} (hs : s.streams = g.streams) (hl : s.loads = g.loads)
    (hn : s.nrMappings = g.nrMappings) (hm : s.mappings = g.mappings) :
    SameQueues g s ∧ ∀ c, (s.streams c).partId = (g.streams c).partId := by
  refine ⟨⟨?_, ?_, ?_, ?_, ?_, hn, hm⟩, ?_⟩ <;> intro x
  all_goals first
    | rw [hs]
    | rw [hl]

theorem updateStreamsStat_queues (cfg : Config) (g : Global) :
    SameQueues g (abtstUpdateStreamsStat cfg g) ∧
      ∀ c, ((abtstUpdateStreamsStat cfg g).streams c).partId = (g.streams c).partId := by
  refine ⟨⟨?_, ?_, ?_, ?_, fun _ => rfl, rfl, rfl⟩, ?_⟩ <;> intro c <;>
    unfold abtstUpdateStreamsStat <;> dsimp only <;> split_ifs <;> rfl

theorem resetStreamsStat_queues (cfg : Config) (g : Global) :
    SameQueues g (abtstResetStreamsStat cfg g) ∧
      ∀ c, ((abtstResetStreamsStat cfg g).streams c).partId = (g.streams c).partId := by
  refine ⟨⟨?_, ?_, ?_, ?_, fun _ => rfl, rfl, rfl⟩, ?_⟩ <;> intro c <;>
    unfold abtstResetStreamsStat <;> dsimp only <;> split_ifs <;> rfl

theorem setPartitionId_queues (c p : Nat) (g : Global) : SameQueues g (setPartitionId c p g) := by
  refine ⟨?_, ?_, ?_, ?_, fun _ => rfl, rfl, rfl⟩ <;> intro d <;> by_cases h : d = c
  all_goals first
    | (subst h; simp [setPartitionId, Global.setStream])
    | simp [setPartitionId, Global.setStream, h]

/-- An action leaves the queues, migrates a sublist of a queue, or re-labels an
emptied core. -/
theorem RebStep.queues {cfg : Config} {a : Act} {s t : Global} (h : RebStep cfg a s t) :
    (SameQueues s t ∧ ∀ c, (t.streams c).partId = (s.streams c).partId) ∨
    (∃ src dst ms qsrc qdst, Ends s src dst ∧ (SameNuma cfg src dst ∨ CrossNuma cfg s src dst) ∧
      ms.Sublist (s.streams src).loadQ ∧ t = s.moved src dst ms qsrc qdst) ∨
    (∃ c p, a = .setPartition c p ∧ p < cfg.nrPartitions ∧ Emptied s c ∧ t = setPartitionId c p s) := by
  cases h with
  | updateStreamsStat => exact Or.inl (updateStreamsStat_queues cfg s)
  | updatePartitionStats =>
    obtain ⟨_, _, hf⟩ := abtstUpdatePartitionStats_frame cfg s
    rw [hf]
    exact Or.inl (SameQueues.of_eq rfl rfl rfl rfl)
  | combine he hr hc =>
    rcases abtstCombineStreams_ok he.ne hc with ⟨_, rfl⟩ | ⟨_, _, rfl⟩
    · exact Or.inl (SameQueues.of_eq rfl rfl rfl rfl)
    · exact Or.inr (Or.inl ⟨_, _, _, _, _, he, hr, List.Sublist.refl _, rfl⟩)
  | rebalance he hr hc =>
    obtain ⟨_, _, _, _, _, rfl⟩ := abtstRebalanceStreams_some he.ne hc
    exact Or.inr (Or.inl ⟨_, _, _, _, _, he, Or.inl hr, pickLoads_sublist s _ _ _, rfl⟩)
  | setPartition _ _ _ _ hp he => exact Or.inr (Or.inr ⟨_, _, rfl, hp, he, rfl⟩)
  | resetStreamsStat => exact Or.inl (resetStreamsStat_queues cfg s)
  | _ => exact Or.inl (SameQueues.of_eq rfl rfl rfl rfl)

theorem RebStep.partsInRange {cfg : Config} {a : Act} {s t : Global} (h : RebStep cfg a s t)
    (hs : PartsInRange cfg s) : PartsInRange cfg t := by
  intro c hc
  rcases h.queues with ⟨hq, hp⟩ | ⟨_, _, ms, a, b, he, _, _, rfl⟩ | ⟨d, p, _, hp, _, rfl⟩
  · rw [hp]
    exact hs c (by rw [← hq.used]; exact hc)
  · have hshape := moved_sameShape s ms a b he.ne
    rw [hshape.partId]
    exact hs c (by rw [← hshape.used]; exact hc)
  · by_cases hcd : c = d
    · subst hcd
      simpa [setPartitionId, Global.setStream] using hp
    · simp only [setPartitionId, Global.setStream, Function.update_of_ne hcd] at hc ⊢
      exact hs c hc

theorem RebStep.rebalance_eq {cfg : Config} {a : Act} {s t : Global} (h : RebStep cfg a s t) :
    t.rebalance = s.rebalance := by
  cases h with
  | updatePartitionStats =>
    obtain ⟨_, _, hf⟩ := abtstUpdatePartitionStats_frame cfg s
    rw [hf]
  | combine he _ hc => exact (combine_sameShape he.ne hc).rebalance
  | rebalance he _ hr =>
    obtain ⟨_, _, _, _, _, rfl⟩ := abtstRebalanceStreams_some he.ne hr
    rfl
  | _ => rfl

end AbtSt
