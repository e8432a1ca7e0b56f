import AbtSt.Runs

/-! Power saving. The counter is the number of sleeping nodes, node 0 is awake,
and the streams of a sleeping node have no loads until it wakes up. -/

namespace AbtSt

def sleeping (cfg : Config) (g : Global) : Nat := (List.range cfg.nrNumas).countP g.power.psState

structure Saving (cfg : Config) (g : Global) : Prop where
  count : g.power.nrPsNumas = sleeping cfg g
  node0 : g.power.psState 0 = false
  empty : ∀ n < cfg.nrNumas, g.power.psState n = true → ∀ c ∈ cfg.coresOf n, (g.streams c).loadQ = []

theorem countP_update {l : List Nat} (hnd : l.Nodup) {n : Nat} (hn : n ∈ l) (f : Nat → Bool) :
    l.countP (Function.update f n true) = l.countP (Function.update f n false) + 1 := by
  have hperm := List.perm_cons_erase hn
  have hrest : (l.erase n).countP (Function.update f n true) =
      (l.erase n).countP (Function.update f n false) := by
    refine List.countP_congr (fun m hm => ?_)
    have hne : m ≠ n := fun h => hnd.not_mem_erase (h ▸ hm)
    simp [hne]
  rw [hperm.countP_eq, hperm.countP_eq]
  simp [hrest]

theorem setPsState_sleeping {cfg : Config} {g : Global} {n : Nat} (hn : n < cfg.nrNumas)
    {state : Bool} (h : g.power.psState n = !state) (hc : g.power.nrPsNumas = sleeping cfg g) :
    (abtstSetNumaPsState n state g).power.nrPsNumas = sleeping cfg (abtstSetNumaPsState n state g) := by
  have hcount := countP_update List.nodup_range (List.mem_range.mpr hn) g.power.psState
  have hself : Function.update g.power.psState n (!state) = g.power.psState := by
    rw [← h, Function.update_eq_self]
  unfold sleeping at hc ⊢
  simp only [abtstSetNumaPsState]
  cases state with
  | true =>
    rw [Bool.not_true] at hself
    rw [hself] at hcount
    simp only [if_true]
    omega
  | false =>
    rw [Bool.not_false] at hself
    rw [hself] at hcount
    simp only [Bool.false_eq_true, if_false]
    omega

theorem Saving.of_queues {cfg : Config} {g s : Global} (h : Saving cfg g)
    (hq : ∀ c, (s.streams c).loadQ = (g.streams c).loadQ)
    (hp : s.power.psState = g.power.psState) (hn : s.power.nrPsNumas = g.power.nrPsNumas) :
    Saving cfg s := by
  refine ⟨?_, ?_, ?_⟩
  · unfold sleeping
    rw [hn, hp]
    exact h.count
  · rw [hp]
    exact h.node0
  · intro n hlt hs c hc
    rw [hq]
    rw [hp] at hs
    exact h.empty n hlt hs c hc

theorem Saving.moved {cfg : Config} (hv : cfg.Valid) {g : Global} {S : LoadId → Prop}
    {src dst : Nat} {ms : List LoadId} (a b : Nat) (h : Saving cfg g) (hl : Linked cfg g S)
    (he : Ends g src dst) (hr : SameNuma cfg src dst ∨ CrossNuma cfg g src dst)
    (hms : ms.Sublist (g.streams src).loadQ) : Saving cfg (g.moved src dst ms a b) := by
  refine ⟨h.count, h.node0, ?_⟩
  intro n hn hs c hc
  have hempty := h.empty n hn hs
  refine List.eq_nil_iff_forall_not_mem.mpr (fun l hmem => ?_)
  rcases (mem_moved_loadQ a b hl he.ne hms c l).mp hmem with ⟨hm, rfl⟩ | ⟨_, hq⟩
  · rcases hr with ⟨m, hm', hsm, hdm⟩ | ⟨_, _, _, m, hm', _, _, hdm, hawake⟩
    · have heq := hv.numa_unique hm' hn hdm hc
      subst heq
      rw [hempty src hsm] at hms
      rw [List.sublist_nil.mp hms] at hm
      simp at hm
    · have heq := hv.numa_unique hm' hn hdm hc
      subst heq
      exact absurd hs (by simpa [Global.moved] using hawake)
  · rw [hempty c hc] at hq
    simp at hq

theorem RebStep.saving {cfg : Config} (hv : cfg.Valid) {a : Act} {s t : Global}
    {S : LoadId → Prop} (h : RebStep cfg a s t) (hl : Linked cfg s S) (hs : Saving cfg s) :
    Saving cfg t := by
  cases h with
  | updateStreamsStat => exact hs.of_queues (updateStreamsStat_queues cfg s).1.loadQ rfl rfl
  | updatePartitionStats =>
    obtain ⟨_, _, hf⟩ := abtstUpdatePartitionStats_frame cfg s
    rw [hf]
    exact hs.of_queues (fun _ => rfl) rfl rfl
  | combine he hr hc =>
    rcases abtstCombineStreams_ok he.ne hc with ⟨_, rfl⟩ | ⟨_, _, rfl⟩
    · exact hs
    · exact hs.moved hv _ _ hl he hr (List.Sublist.refl _)
  | rebalance he hr hc =>
    obtain ⟨_, _, _, _, _, rfl⟩ := abtstRebalanceStreams_some he.ne hc
    exact hs.moved hv _ _ hl he (Or.inl hr) (pickLoads_sublist s _ _ _)
  | setPartition => exact hs.of_queues (setPartitionId_queues _ _ s).loadQ rfl rfl
  | @sleep _ n hne hn hps hempty =>
    refine ⟨setPsState_sleeping hn (by simpa using hps) hs.count, ?_, ?_⟩
    · simpa [abtstSetNumaPsState, hne.symm] using hs.node0
    · intro m hm hsm c hc
      by_cases hmn : m = n
      · subst hmn
        refine List.eq_nil_iff_forall_not_mem.mpr (fun l hmem => ?_)
        have hnil := hl.emptied (hempty c hc (hl.used c l hmem))
        rw [show ((abtstSetNumaPsState m true s).streams c).loadQ = (s.streams c).loadQ from rfl,
          hnil] at hmem
        simp at hmem
      · exact hs.empty m hm (by simpa [abtstSetNumaPsState, hmn] using hsm) c hc
  | @wake _ n hn hps =>
    refine ⟨setPsState_sleeping hn (by simpa using hps) hs.count, ?_, ?_⟩
    · by_cases h0 : n = 0
      · subst h0
        rw [hs.node0] at hps
        cases hps
      · simpa [abtstSetNumaPsState, Ne.symm h0] using hs.node0
    · intro m hm hsm c hc
      by_cases hmn : m = n
      · subst hmn
        simp [abtstSetNumaPsState] at hsm
      · exact hs.empty m hm (by simpa [abtstSetNumaPsState, hmn] using hsm) c hc
  | resetStreamsStat => exact hs.of_queues (resetStreamsStat_queues cfg s).1.loadQ rfl rfl
  | _ => exact hs.of_queues (fun _ => rfl) rfl rfl

theorem AllAwake.saving {cfg : Config} (h0 : 1 ≤ cfg.nrNumas) {g : Global} (h : AllAwake cfg g) :
    Saving cfg g := by
  have hnone : (List.range cfg.nrNumas).countP g.power.psState = 0 := by
    refine List.countP_eq_zero.mpr (fun n hn => ?_)
    simp [h.2 n (List.mem_range.mp hn)]
  refine ⟨?_, h.2 0 h0, ?_⟩
  · rw [h.1, sleeping, hnone]
    rfl
  · intro n hn hs
    rw [h.2 n hn] at hs
    cases hs

theorem Visited.saving {cfg : Config} (hv : cfg.Valid) (h0 : 1 ≤ cfg.nrNumas) {g : Global}
    (h : Visited cfg g) : Saving cfg g := by
  refine (h.invariant hv (I := fun g => Placed cfg g ∧ Saving cfg g) (fun _ hi => hi.1.parts)
    (fun _ hi => ⟨⟨hi.laid.linked, hi.laid.confined, hi.parts⟩, hi.awake.saving h0⟩)
    (fun _ _ hb hi => ⟨hi.1.between hb, hi.2.of_queues hb.queues.loadQ hb.psState hb.nrPsNumas⟩)
    (fun _ _ _ hs hi => ⟨hi.1.step hs, hs.saving hv hi.1.linked hi.2⟩)).2

/-- Power saving over whole runs: the counter is right, node 0 never sleeps, so
some node is always active, and a sleeping node has no loads. -/
theorem power_saving_invariant {cfg : Config} (hv : cfg.Valid) (h0 : 1 ≤ cfg.nrNumas) {g : Global}
    (h : Visited cfg g) :
    g.power.nrPsNumas = ((List.range cfg.nrNumas).countP g.power.psState : Nat) ∧
    g.power.psState 0 = false ∧ g.power.nrPsNumas < cfg.nrNumas ∧
    ∀ n < cfg.nrNumas, g.power.psState n = true → ∀ c ∈ cfg.coresOf n, (g.streams c).loadQ = [] := by
  have hs := h.saving hv h0
  refine ⟨hs.count, hs.node0, ?_, hs.empty⟩
  have hlt : (List.range cfg.nrNumas).countP g.power.psState < cfg.nrNumas := by
    have hle := List.countP_le_length (p := g.power.psState) (l := List.range cfg.nrNumas)
    rw [List.length_range] at hle
    refine Nat.lt_of_le_of_ne hle (fun heq => ?_)
    have hall := List.countP_eq_length.mp (heq.trans (List.length_range (n := cfg.nrNumas)).symm)
    have := hall 0 (List.mem_range.mpr h0)
    rw [hs.node0] at this
    cases this
  have hc := hs.count
  unfold sleeping at hc
  omega

/-- Every scheduler slept for a whole second. -/
def nap (g : Global) : Global :=
  { g with
    streams := fun c => { g.streams c with sleepNsec := 10 ^ 9 }
    power := { g.power with psEnabled := true }
    rebalance := ⟨3, 1⟩ }

theorem nap_between (g : Global) : Between g (nap g) :=
  ⟨⟨fun _ => rfl, fun _ => rfl, fun _ => rfl, fun _ => rfl, fun _ => rfl, rfl, rfl⟩, fun _ => rfl,
    fun _ => rfl, rfl, rfl⟩

/-- The pass has moved the loads of node 1 to node 0 and put node 1 to sleep. -/
theorem power_saving_invariant_asleep : ∃ g s, Reachable sharedConfig g ∧ Reachable sharedConfig s ∧
    (g.streams 5).loadQ ≠ [] ∧ s.power.psState 1 = true ∧ s.power.psState 0 = false ∧
    s.power.nrPsNumas < 2 ∧ ∀ c ∈ sharedConfig.coresOf 1, (s.streams c).loadQ = [] := by
  have hrun : (startWith sharedConfig [0, 1]).any (fun g => decide ((g.streams 5).loadQ ≠ [] ∧
      (rebPass sortedPlatform sharedConfig).fault (nap g) = none ∧
      ((rebPass sortedPlatform sharedConfig).run (nap g)).st.power.psState 1 = true)) = true := by
    decide +kernel
  obtain ⟨g, hg, hrun⟩ := (Option.any_eq_true _ _).mp hrun
  obtain ⟨hloads, hok, hasleep⟩ := of_decide_eq_true hrun
  have hr : Reachable sharedConfig (nap g) := .between (.mapped (startWith_mapped hg)) (nap_between g)
  have hs : Reachable sharedConfig ((rebPass sortedPlatform sharedConfig).run (nap g)).st := .pass hr hok
  obtain ⟨_, hnode0, hlt, hempty⟩ := power_saving_invariant sharedConfig_valid (by decide) (.reachable hs)
  exact ⟨nap g, _, hr, hs, hloads, hasleep, hnode0, hlt, hempty 1 (by decide) hasleep⟩

end AbtSt
