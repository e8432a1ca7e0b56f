import AbtSt.Runs
import Mathlib.Algebra.Order.BigOperators.Group.List
import Mathlib.Algebra.Order.Ring.Nat

/-! Depths during a pass. While the packets under way stay below `2^31`, the
depth of every used stream is the size of its queue from the first action of a
pass to the last, and the statistics that the levels read are exact. -/

namespace AbtSt

def Global.outstanding (g : Global) (l : LoadId) : Nat := (g.loads l).pktStarted - (g.loads l).pktEnded

def Global.outstandingOf (g : Global) (ls : List LoadId) : Nat := (ls.map g.outstanding).sum

def Global.demand (g : Global) (c : Nat) : Nat := g.outstandingOf (g.streams c).loadQ

def usedStreams (cfg : Config) (g : Global) : List Nat := g.usedIn (List.range cfg.nrCores)

def Global.total (cfg : Config) (g : Global) : Nat := ((usedStreams cfg g).map g.demand).sum

theorem mem_usedStreams {cfg : Config} {g : Global} {c : Nat} :
    c ∈ usedStreams cfg g ↔ c < cfg.nrCores ∧ (g.streams c).used = true := by
  simp [usedStreams, Global.mem_usedIn]

theorem usedStreams_nodup (cfg : Config) (g : Global) : (usedStreams cfg g).Nodup :=
  List.nodup_range.filter _

theorem sum_map_le_of_subset {l l' : List Nat} (hnd : l.Nodup) (h : l ⊆ l') (f : Nat → Nat) :
    (l.map f).sum ≤ (l'.map f).sum := by
  obtain ⟨k, hp, hl⟩ := hnd.subperm h
  rw [← (hp.map f).sum_eq]
  exact (hl.map f).sum_le_sum (by simp)

theorem demand_le_total {cfg : Config} {g : Global} {c : Nat} (h : c ∈ usedStreams cfg g) :
    g.demand c ≤ g.total cfg :=
  List.single_le_sum (by simp) _ (List.mem_map_of_mem h)

theorem add_le_sum_map {ls : List Nat} {f : Nat → Nat} {c d : Nat} (hc : c ∈ ls) (hd : d ∈ ls)
    (hne : c ≠ d) : f c + f d ≤ (ls.map f).sum := by
  have h : ([c, d].map f).sum ≤ (ls.map f).sum :=
    sum_map_le_of_subset (by simp [hne]) (by simp [hc, hd]) f
  simpa using h

theorem demand_add_le_total {cfg : Config} {g : Global} {c d : Nat} (hc : c ∈ usedStreams cfg g)
    (hd : d ∈ usedStreams cfg g) (hne : c ≠ d) : g.demand c + g.demand d ≤ g.total cfg :=
  add_le_sum_map hc hd hne

theorem loadSize_eq {g : Global} {l : LoadId} (h : g.outstanding l < 2 ^ 31) :
    g.loadSize l = g.outstanding l := by
  unfold Global.loadSize
  unfold Global.outstanding at h ⊢
  split_ifs with hlt
  · rw [i32_of_lt] <;> omega
  · omega

theorem sizeOf_eq {g : Global} {ls : List LoadId} (h : g.outstandingOf ls < 2 ^ 31) :
    g.sizeOf ls = g.outstandingOf ls := by
  induction ls with
  | nil => rfl
  | cons l ls ih =>
    simp only [Global.outstandingOf, List.map_cons, List.sum_cons] at h ih ⊢
    rw [Global.sizeOf_cons, loadSize_eq (by omega), ih (by omega)]
    omega

structure Exact (cfg : Config) (g : Global) : Prop where
  bounded : g.total cfg < 2 ^ 31
  depth : ∀ c ∈ usedStreams cfg g, g.qdepth c = g.demand c

theorem Exact.sizeOf {cfg : Config} {g : Global} (h : Exact cfg g) {c : Nat}
    (hc : c ∈ usedStreams cfg g) : (g.qdepth c : Int) = g.sizeOf (g.streams c).loadQ := by
  have hle := demand_le_total hc
  rw [h.depth c hc, sizeOf_eq (Nat.lt_of_le_of_lt hle h.bounded)]
  rfl

theorem Exact.sum_depth {cfg : Config} {g : Global} (h : Exact cfg g) :
    g.depthOf (usedStreams cfg g) = g.total cfg := by
  unfold Global.depthOf Global.total
  rw [List.map_congr_left h.depth]

structure SameDemand (g s : Global) : Prop where
  used : ∀ c, (s.streams c).used = (g.streams c).used
  loadQ : ∀ c, (s.streams c).loadQ = (g.streams c).loadQ
  outstanding : s.outstanding = g.outstanding

theorem SameDemand.usedStreams {g s : Global} (h : SameDemand g s) (cfg : Config) :
    usedStreams cfg s = usedStreams cfg g := by
  unfold AbtSt.usedStreams
  rw [Global.usedIn_congr h.used]

theorem SameDemand.demand {g s : Global} (h : SameDemand g s) : s.demand = g.demand := by
  funext c
  unfold Global.demand Global.outstandingOf
  rw [h.loadQ, h.outstanding]

theorem SameDemand.total {g s : Global} (h : SameDemand g s) (cfg : Config) :
    s.total cfg = g.total cfg := by
  unfold Global.total
  rw [h.usedStreams, h.demand]

theorem Exact.of_demand {cfg : Config} {g s : Global} (h : Exact cfg g) (hs : SameDemand g s)
    (hq : s.qdepth = g.qdepth) : Exact cfg s := by
  refine ⟨by rw [hs.total]; exact h.bounded, ?_⟩
  intro c hc
  rw [hs.usedStreams] at hc
  rw [hq, hs.demand]
  exact h.depth c hc

theorem updateStreamsStat_demand (cfg : Config) (g : Global) :
    SameDemand g (abtstUpdateStreamsStat cfg g) :=
  have hq := (updateStreamsStat_queues cfg g).1
  ⟨hq.used, hq.loadQ, rfl⟩

theorem updateStreamsStat_exact {cfg : Config} {g : Global} (h : g.total cfg < 2 ^ 31) :
    Exact cfg (abtstUpdateStreamsStat cfg g) := by
  have hs := updateStreamsStat_demand cfg g
  refine ⟨by rw [hs.total]; exact h, ?_⟩
  intro c hc
  rw [hs.usedStreams] at hc
  have hlt := Nat.lt_of_le_of_lt (demand_le_total hc) h
  have hd : (abtstUpdateStreamsStat cfg g).qdepth c = u32 (getStreamIos g c) := by
    unfold Global.qdepth abtstUpdateStreamsStat
    dsimp only
    rw [if_pos (mem_usedStreams.mp hc)]
    rfl
  rw [hd, hs.demand, getStreamIos_emod, sizeOf_eq hlt]
  exact u32_of_lt (Nat.lt_trans hlt (by decide))

section Moved

variable {cfg : Config} {g : Global} {src dst : Nat} {ms : List LoadId} {a b : Nat}

theorem moved_outstanding : (g.moved src dst ms a b).outstanding = g.outstanding := by
  funext l
  unfold Global.outstanding Global.moved
  by_cases h : l ∈ ms <;> simp [h]

theorem moved_demand_src (hne : src ≠ dst) (hms : ms.Sublist (g.streams src).loadQ) :
    (g.moved src dst ms a b).demand src + g.outstandingOf ms = g.demand src := by
  have hp := ((sublist_append_diff hms).map g.outstanding).sum_eq
  unfold Global.demand Global.outstandingOf
  rw [moved_outstanding, moved_src g ms a b hne, ← hp, List.map_append, List.sum_append]
  exact Nat.add_comm _ _

theorem moved_demand_dst :
    (g.moved src dst ms a b).demand dst = g.outstandingOf ms + g.demand dst := by
  unfold Global.demand Global.outstandingOf
  rw [moved_outstanding, moved_dst g ms a b, List.map_append, List.sum_append, List.map_reverse,
    List.sum_reverse]

theorem moved_demand_other {c : Nat} (hs : c ≠ src) (hd : c ≠ dst) :
    (g.moved src dst ms a b).demand c = g.demand c := by
  unfold Global.demand Global.outstandingOf
  rw [moved_outstanding, moved_other g ms a b hs hd]

theorem moved_usedStreams (hne : src ≠ dst) :
    usedStreams cfg (g.moved src dst ms a b) = usedStreams cfg g := by
  unfold usedStreams
  rw [(moved_sameShape g ms a b hne).usedIn]

theorem moved_total (hs : src ∈ usedStreams cfg g) (hd : dst ∈ usedStreams cfg g) (hne : src ≠ dst)
    (hms : ms.Sublist (g.streams src).loadQ) :
    (g.moved src dst ms a b).total cfg = g.total cfg := by
  have h := sum_map_two (usedStreams_nodup cfg g) hne hs hd (f := g.demand)
    (k := (g.moved src dst ms a b).demand) (fun c _ hcs hcd => moved_demand_other hcs hcd)
  have h1 := moved_demand_src (a := a) (b := b) hne hms
  have h2 : (g.moved src dst ms a b).demand dst = g.outstandingOf ms + g.demand dst := moved_demand_dst
  unfold Global.total
  rw [moved_usedStreams hne]
  omega

theorem Exact.moved (h : Exact cfg g) (hs : src ∈ usedStreams cfg g)
    (hd : dst ∈ usedStreams cfg g) (hne : src ≠ dst) (hms : ms.Sublist (g.streams src).loadQ)
    (ha : a + g.outstandingOf ms = g.demand src) (hb : b = g.outstandingOf ms + g.demand dst) :
    Exact cfg (g.moved src dst ms a b) := by
  refine ⟨by rw [moved_total hs hd hne hms]; exact h.bounded, ?_⟩
  intro c hc
  rw [moved_usedStreams hne] at hc
  by_cases hcs : c = src
  · subst hcs
    have h1 := moved_demand_src (a := a) (b := b) hne hms
    rw [(moved_qdepth g hne ms a b).1]
    omega
  · by_cases hcd : c = dst
    · subst hcd
      rw [(moved_qdepth g hne ms a b).2, moved_demand_dst]
      exact hb
    · rw [moved_qdepth_other ms hcs hcd, moved_demand_other hcs hcd]
      exact h.depth c hc

end Moved

theorem Exact.combine {cfg : Config} {g s : Global} {src dst : Nat} (h : Exact cfg g)
    (hs : src ∈ usedStreams cfg g) (hd : dst ∈ usedStreams cfg g) (hne : src ≠ dst)
    (hc : abtstCombineStreams g src dst = .ok s) : Exact cfg s := by
  rcases abtstCombineStreams_ok hne hc with ⟨_, rfl⟩ | ⟨_, _, rfl⟩
  · exact h
  · have hle := demand_add_le_total hs hd hne
    have hbound := h.bounded
    apply h.moved hs hd hne (List.Sublist.refl _) (Nat.zero_add _)
    rw [h.depth _ hs, h.depth _ hd]
    exact u32_of_lt (n := g.demand src + g.demand dst) (by omega)

theorem rebalance_depths_exact {ios : Int} {x u k q q' : Nat}
    (hacc : (ios - ((q' : Int) + k)) % 2 ^ 32 = 0) (hu : (u : Int) = ios % 2 ^ 32)
    (hx : x < 2 ^ 32) (hsum : (x + u) % 2 ^ 32 = (q + q') % 2 ^ 32) (hk : k ≤ q)
    (hb : q + q' < 2 ^ 31) : x + k = q ∧ u = k + q' := by
  omega

theorem Exact.rebalance {cfg : Config} {g s : Global} {src dst avg : Nat} (h : Exact cfg g)
    (hs : src ∈ usedStreams cfg g) (hd : dst ∈ usedStreams cfg g) (hne : src ≠ dst)
    (hr : abtstRebalanceStreams g ⟨i32 (g.qdepth dst), dst⟩ ⟨i32 (g.qdepth src), src⟩ avg =
      .ok (some s)) : Exact cfg s := by
  obtain ⟨_, _, _, hm, _, rfl⟩ := abtstRebalanceStreams_some hne hr
  have hsub := pickLoads_sublist g ⟨i32 (g.qdepth dst), dst⟩ ⟨i32 (g.qdepth src), src⟩ avg
  have hacc := pickLoads_accounts hm
  dsimp only
  generalize pickLoads g ⟨i32 (g.qdepth dst), dst⟩ ⟨i32 (g.qdepth src), src⟩ avg = p at hsub hacc ⊢
  have hle := Nat.lt_of_le_of_lt (demand_add_le_total hs hd hne) h.bounded
  have hpart : g.outstandingOf p.mloads ≤ g.demand src := (hsub.map g.outstanding).sum_le_sum (by simp)
  have hsize : g.sizeOf p.mloads = g.outstandingOf p.mloads := sizeOf_eq (by omega)
  have hto : i32 (g.qdepth dst) = g.demand dst := by
    rw [h.depth _ hd, i32_of_lt] <;> omega
  unfold Pick.Accounts at hacc
  rw [hsize, hto] at hacc
  have hsum := rebalance_depths (g.qdepth src) (g.qdepth dst) p.ios
  rw [← h.depth _ hs, ← h.depth _ hd] at hle
  rw [← h.depth _ hs] at hpart
  rw [← h.depth _ hd] at hacc
  obtain ⟨h1, h2⟩ := rebalance_depths_exact hacc (cast_u32 p.ios) (u32_lt _) hsum hpart hle
  exact h.moved hs hd hne hsub (h1.trans (h.depth _ hs)) (h2.trans (by rw [h.depth _ hd]))

theorem Ends.mem_usedStreams {cfg : Config} (hv : cfg.Valid) {g : Global} {src dst : Nat}
    (he : Ends g src dst) (hr : SameNuma cfg src dst ∨ CrossNuma cfg g src dst) :
    src ∈ usedStreams cfg g ∧ dst ∈ usedStreams cfg g := by
  rcases hr with ⟨n, hn, hs, hd⟩ | ⟨_, m, hm, n, hn, _, hs, hd, _⟩
  · exact ⟨AbtSt.mem_usedStreams.mpr ⟨hv.core_lt hn hs, he.used_src⟩,
      AbtSt.mem_usedStreams.mpr ⟨hv.core_lt hn hd, he.used_dst⟩⟩
  · exact ⟨AbtSt.mem_usedStreams.mpr ⟨hv.core_lt hm hs, he.used_src⟩,
      AbtSt.mem_usedStreams.mpr ⟨hv.core_lt hn hd, he.used_dst⟩⟩

theorem SameDemand.of_eq {g s : Global} (hs : s.streams = g.streams) (hl : s.loads = g.loads) :
    SameDemand g s ∧ s.qdepth = g.qdepth := by
  refine ⟨⟨?_, ?_, ?_⟩, ?_⟩
  · intro c
    rw [hs]
  · intro c
    rw [hs]
  · unfold Global.outstanding
    rw [hl]
  · unfold Global.qdepth
    rw [hs]

theorem resetStreamsStat_qdepth (cfg : Config) (g : Global) :
    (abtstResetStreamsStat cfg g).qdepth = g.qdepth := by
  funext c
  unfold Global.qdepth abtstResetStreamsStat
  dsimp only
  split_ifs <;> rfl

theorem RebStep.exact {cfg : Config} (hv : cfg.Valid) {a : Act} {s t : Global}
    (h : RebStep cfg a s t) (hs : Exact cfg s) : Exact cfg t ∧ t.total cfg = s.total cfg := by
  have hsame : SameDemand s t ∧ t.qdepth = s.qdepth → Exact cfg t ∧ t.total cfg = s.total cfg :=
    fun hd => ⟨hs.of_demand hd.1 hd.2, hd.1.total cfg⟩
  cases h with
  | updateStreamsStat =>
    exact ⟨updateStreamsStat_exact hs.bounded, (updateStreamsStat_demand cfg s).total cfg⟩
  | updatePartitionStats =>
    obtain ⟨_, _, hf⟩ := abtstUpdatePartitionStats_frame cfg s
    apply hsame
    rw [hf]
    exact SameDemand.of_eq rfl rfl
  | combine he hr hc =>
    obtain ⟨hsrc, hdst⟩ := he.mem_usedStreams hv hr
    refine ⟨hs.combine hsrc hdst he.ne hc, ?_⟩
    rcases abtstCombineStreams_ok he.ne hc with ⟨_, rfl⟩ | ⟨_, _, rfl⟩
    · rfl
    · exact moved_total hsrc hdst he.ne (List.Sublist.refl _)
  | rebalance he hr hc =>
    obtain ⟨hsrc, hdst⟩ := he.mem_usedStreams hv (Or.inl hr)
    refine ⟨hs.rebalance hsrc hdst he.ne hc, ?_⟩
    obtain ⟨_, _, _, _, _, rfl⟩ := abtstRebalanceStreams_some he.ne hc
    exact moved_total hsrc hdst he.ne (pickLoads_sublist s _ _ _)
  | @setPartition _ c _ _ p =>
    have hq := setPartitionId_queues c p s
    exact hsame ⟨⟨hq.used, hq.loadQ, rfl⟩, setPartitionId_qdepth c p s⟩
  | resetStreamsStat =>
    have hq := (resetStreamsStat_queues cfg s).1
    exact hsame ⟨⟨hq.used, hq.loadQ, rfl⟩, resetStreamsStat_qdepth cfg s⟩
  | _ => exact hsame (SameDemand.of_eq rfl rfl)

theorem rebPass_exact {cfg : Config} (hv : cfg.Valid) (pf : Platform) {g : Global}
    (hp : PartsInRange cfg g) (hb : g.total cfg < 2 ^ 31) :
    (∀ e ∈ ((rebPass pf cfg).run g).log, Exact cfg e.2 ∧ e.2.total cfg = g.total cfg) ∧
    Exact cfg ((rebPass pf cfg).run g).st ∧
      ((rebPass pf cfg).run g).st.total cfg = g.total cfg := by
  obtain ⟨l, hl, hpath⟩ := rebPass_path pf hv hp
  have hstart : Exact cfg (abtstUpdateStreamsStat cfg g) ∧
      (abtstUpdateStreamsStat cfg g).total cfg = g.total cfg :=
    ⟨updateStreamsStat_exact hb, (updateStreamsStat_demand cfg g).total cfg⟩
  have hinv := hpath.invariant (I := fun s => Exact cfg s ∧ s.total cfg = g.total cfg)
    (fun a s t hst hs => ⟨(hst.exact hv hs.1).1, (hst.exact hv hs.1).2.trans hs.2⟩) hstart
  refine ⟨?_, hinv.2⟩
  intro e he
  rw [hl] at he
  rcases List.mem_cons.mp he with rfl | he
  · exact hstart
  · exact hinv.1 e he

/-- Queue-depth accounting: from `abtst_update_streams_stat` to the end of the
pass every used stream has the depth of its queue, and the depths add up to the
same total. -/
theorem qdepth_exact_during_pass {cfg : Config} (hv : cfg.Valid) (pf : Platform) (g : Global)
    (hp : PartsInRange cfg g) (hb : g.total cfg < 2 ^ 31) :
    (∀ e ∈ ((rebPass pf cfg).run g).log, ∀ c < cfg.nrCores, (e.2.streams c).used = true →
      (e.2.qdepth c : Int) = e.2.sizeOf (e.2.streams c).loadQ) ∧
    (∀ e ∈ ((rebPass pf cfg).run g).log, e.2.depthOf (usedStreams cfg e.2) =
      (abtstUpdateStreamsStat cfg g).depthOf (usedStreams cfg (abtstUpdateStreamsStat cfg g))) ∧
    ((rebPass pf cfg).run g).st.depthOf (usedStreams cfg ((rebPass pf cfg).run g).st) =
      (abtstUpdateStreamsStat cfg g).depthOf (usedStreams cfg (abtstUpdateStreamsStat cfg g)) := by
  obtain ⟨hlog, hend⟩ := rebPass_exact hv pf hp hb
  have hstart := (updateStreamsStat_exact hb).sum_depth
  rw [(updateStreamsStat_demand cfg g).total] at hstart
  refine ⟨?_, ?_, ?_⟩
  · intro e he c hc hu
    exact (hlog e he).1.sizeOf (mem_usedStreams.mpr ⟨hc, hu⟩)
  · intro e he
    rw [hstart, (hlog e he).1.sum_depth, (hlog e he).2]
  · rw [hstart, hend.1.sum_depth, hend.2]

theorem rushHour_total {g : Global} (h : rushHour = some g) :
    g.total sharedConfig < 2 ^ 31 ∧ g.demand 1 = 1010 := by
  have hall : rushHour.all (fun g => decide (g.total sharedConfig < 2 ^ 31 ∧ g.demand 1 = 1010)) = true := by
    decide +kernel
  rw [h] at hall
  simpa using hall

theorem qdepth_exact_during_pass_lent : ∃ g, RushHour g ∧ g.demand 1 = 1010 ∧
    ∀ e ∈ ((rebPass sortedPlatform sharedConfig).run g).log, ∀ c < 8, (e.2.streams c).used = true →
      (e.2.qdepth c : Int) = e.2.sizeOf (e.2.streams c).loadQ := by
  obtain ⟨g, hg, h⟩ := exists_rushHour
  obtain ⟨hb, hdemand⟩ := rushHour_total hg
  have hp := (Visited.reachable h.reachable).placed sharedConfig_valid
  exact ⟨g, h, hdemand, (qdepth_exact_during_pass sharedConfig_valid sortedPlatform g hp.parts hb).1⟩

theorem Exact.depthOf_le {cfg : Config} {g : Global} (h : Exact cfg g) {cores : List Nat}
    (hnd : cores.Nodup) (hsub : cores ⊆ usedStreams cfg g) : g.depthOf cores ≤ g.total cfg := by
  rw [← h.sum_depth]
  exact sum_map_le_of_subset hnd hsub g.qdepth

theorem Exact.depthOf_lt {cfg : Config} {g : Global} (h : Exact cfg g) {cores : List Nat}
    (hnd : cores.Nodup) (hsub : cores ⊆ usedStreams cfg g) : g.depthOf cores < 2 ^ 32 := by
  have hle := h.depthOf_le hnd hsub
  have hb := h.bounded
  omega

theorem group_subset {cfg : Config} (hv : cfg.Valid) (g : Global) {n : Nat} (hn : n < cfg.nrNumas)
    (p : Nat) : g.group (cfg.coresOf n) p ⊆ usedStreams cfg g := by
  intro c hc
  obtain ⟨hm, hu, _⟩ := Global.mem_group.mp hc
  exact mem_usedStreams.mpr ⟨hv.core_lt hn hm, hu⟩

theorem usedIn_subset {cfg : Config} (hv : cfg.Valid) (g : Global) {n : Nat} (hn : n < cfg.nrNumas) :
    g.usedIn (cfg.coresOf n) ⊆ usedStreams cfg g := by
  intro c hc
  obtain ⟨hm, hu⟩ := Global.mem_usedIn.mp hc
  exact mem_usedStreams.mpr ⟨hv.core_lt hn hm, hu⟩

theorem Global.depthOf_flatMap (g : Global) (f : Nat → List Nat) (ns : List Nat) :
    g.depthOf (ns.flatMap f) = (ns.map fun n => g.depthOf (f n)).sum := by
  induction ns with
  | nil => rfl
  | cons n ns ih => rw [List.flatMap_cons, Global.depthOf_append, ih, List.map_cons, List.sum_cons]

theorem usedIn_flatMap_nodup {cfg : Config} (hv : cfg.Valid) {g : Global} {f : Nat → List Nat}
    (hf : ∀ n, (f n).Sublist (g.usedIn (cfg.coresOf n))) :
    ((List.range cfg.nrNumas).flatMap f).Nodup := by
  refine List.nodup_flatMap.mpr ⟨fun n _ => (g.usedIn_nodup cfg n).sublist (hf n), ?_⟩
  apply List.nodup_range.pairwise_of_forall_ne
  intro m hm n hn hne c hcm hcn
  exact hv.disjoint m (List.mem_range.mp hm) n (List.mem_range.mp hn) hne
    (Global.mem_usedIn.mp ((hf m).subset hcm)).1 (Global.mem_usedIn.mp ((hf n).subset hcn)).1

theorem Exact.sum_numas_le {cfg : Config} (hv : cfg.Valid) {g : Global} (h : Exact cfg g)
    {f : Nat → List Nat} (hf : ∀ n, (f n).Sublist (g.usedIn (cfg.coresOf n))) :
    ((List.range cfg.nrNumas).map fun n => g.depthOf (f n)).sum ≤ g.total cfg := by
  have hsub : (List.range cfg.nrNumas).flatMap f ⊆ usedStreams cfg g := by
    intro c hc
    obtain ⟨n, hn, hc⟩ := List.mem_flatMap.mp hc
    exact usedIn_subset hv g (List.mem_range.mp hn) ((hf n).subset hc)
  rw [← Global.depthOf_flatMap]
  exact h.depthOf_le (usedIn_flatMap_nodup hv hf) hsub

theorem Global.group_sublist (g : Global) (cores : List Nat) (p : Nat) :
    (g.group cores p).Sublist (g.usedIn cores) := by
  apply List.monotone_filter_right
  intro c hc
  exact ((Bool.and_eq_true _ _).mp hc).1

structure Accurate (cfg : Config) (g : Global) : Prop where
  numaStats : ∀ n < cfg.nrNumas, ∀ p < cfg.nrPartitions, g.numaStats p n =
    ⟨(g.group (cfg.coresOf n) p).length, g.depthOf (g.group (cfg.coresOf n) p)⟩
  stats : ∀ p < cfg.nrPartitions, g.stats p =
    ⟨((List.range cfg.nrNumas).map fun n => (g.numaStats p n).usedCores).sum,
      ((List.range cfg.nrNumas).map fun n => (g.numaStats p n).qdepth).sum⟩
  numaStat : ∀ n < cfg.nrNumas, g.usedIn (cfg.coresOf n) ≠ [] → g.numaStat n =
    ⟨(g.usedIn (cfg.coresOf n)).length,
      g.depthOf (g.usedIn (cfg.coresOf n)) / (g.usedIn (cfg.coresOf n)).length⟩

section Fresh

variable {cfg : Config} (hv : cfg.Valid) {g : Global} (h : Fresh cfg g) (he : Exact cfg g)

include hv h he

theorem Fresh.numaStats_eq {n : Nat} (hn : n < cfg.nrNumas) (p : Nat) : g.numaStats p n =
    ⟨(g.group (cfg.coresOf n) p).length, g.depthOf (g.group (cfg.coresOf n) p)⟩ := by
  obtain ⟨hu, hq⟩ := h.parts.numaStats n hn p
  rw [Nat.mod_eq_of_lt (he.depthOf_lt (g.group_nodup cfg n p) (group_subset hv g hn p))] at hq
  cases hs : g.numaStats p n with
  | mk k q => rw [hs] at hu hq; exact congrArg₂ PartitionStat.mk hu hq

theorem Fresh.numaStat_eq {n : Nat} (hn : n < cfg.nrNumas) (hne : g.usedIn (cfg.coresOf n) ≠ []) :
    g.numaStat n = ⟨(g.usedIn (cfg.coresOf n)).length,
      g.depthOf (g.usedIn (cfg.coresOf n)) / (g.usedIn (cfg.coresOf n)).length⟩ := by
  obtain ⟨hu, hq⟩ := h.numas n (List.mem_range.mpr hn)
  have hq := hq hne
  rw [Nat.mod_eq_of_lt (he.depthOf_lt (g.usedIn_nodup cfg n) (usedIn_subset hv g hn))] at hq
  cases hs : g.numaStat n with
  | mk k q => rw [hs] at hu hq; exact congrArg₂ NumaStat.mk hu hq

theorem Fresh.accurate : Accurate cfg g := by
  refine ⟨fun n hn p _ => h.numaStats_eq hv he hn p, ?_, fun n hn => h.numaStat_eq hv he hn⟩
  intro p _
  obtain ⟨hu, hq⟩ := h.parts.stats p
  have hle := he.sum_numas_le hv (fun n => g.group_sublist (cfg.coresOf n) p)
  have hlt := Nat.lt_trans (Nat.lt_of_le_of_lt hle he.bounded) (by decide : 2 ^ 31 < 2 ^ 32)
  rw [Nat.mod_eq_of_lt hlt] at hq
  have h1 : (List.range cfg.nrNumas).map (fun n => (g.numaStats p n).usedCores) =
      (List.range cfg.nrNumas).map (fun n => (g.group (cfg.coresOf n) p).length) :=
    List.map_congr_left (fun n hn => by rw [h.numaStats_eq hv he (List.mem_range.mp hn) p])
  have h2 : (List.range cfg.nrNumas).map (fun n => (g.numaStats p n).qdepth) =
      (List.range cfg.nrNumas).map (fun n => g.depthOf (g.group (cfg.coresOf n) p)) :=
    List.map_congr_left (fun n hn => by rw [h.numaStats_eq hv he (List.mem_range.mp hn) p])
  rw [h1, h2]
  cases hs : g.stats p with
  | mk k q => rw [hs] at hu hq; exact congrArg₂ PartitionStat.mk hu hq

end Fresh

/-- Cached statistics are never stale: whenever a level reads them they are
those of the streams at that point, and no array is read past its filled part. -/
theorem stats_accurate_when_read {cfg : Config} (hv : cfg.Valid) (pf : Platform) (g : Global)
    (hp : PartsInRange cfg g) (hb : g.total cfg < 2 ^ 31) :
    (∀ t, (Act.readStats, t) ∈ ((rebPass pf cfg).run g).log → Accurate cfg t ∧
      ∀ n < cfg.nrNumas, ∀ p < cfg.nrPartitions,
        (collectStreams cfg t (some n) (some p)).length = (t.numaStats p n).usedCores) ∧
    (rebPass pf cfg).fault g ≠ some .badIndex := by
  refine ⟨?_, ?_⟩
  · intro t ht
    obtain ⟨s, _, hs⟩ := ((rebPass_follows pf hv).path hp).exists_step (I := fun _ => True)
      (fun _ _ _ _ _ => trivial) trivial _ ht
    have hfresh : Fresh cfg t := by
      cases hs with
      | readStats hf => exact hf
    refine ⟨hfresh.accurate hv ((rebPass_exact hv pf hp hb).1 _ ht).1, ?_⟩
    intro n hn p _
    exact hfresh.parts.length_collected hn p
  · intro hf
    rcases (rebPass_follows pf hv).of_fault hp hf with he | ⟨he, _⟩
    · cases he
    · cases he

theorem stats_accurate_when_read_lent : ∃ g, RushHour g ∧ g.demand 1 = 1010 ∧
    (∃ t, (Act.readStats, t) ∈ ((rebPass sortedPlatform sharedConfig).run g).log ∧
      Accurate sharedConfig t) ∧ (rebPass sortedPlatform sharedConfig).fault g ≠ some .badIndex := by
  obtain ⟨g, hg, h⟩ := exists_rushHour
  obtain ⟨hb, hdemand⟩ := rushHour_total hg
  have hp := (Visited.reachable h.reachable).placed sharedConfig_valid
  have hread : ∃ t, (Act.readStats, t) ∈ ((rebPass sortedPlatform sharedConfig).run g).log := by
    have hall : rushHour.all (fun g => ((rebPass sortedPlatform sharedConfig).run g).log.any fun e =>
        decide (e.1 = .readStats)) = true := by
      decide +kernel
    rw [hg, Option.all_some, List.any_eq_true] at hall
    obtain ⟨⟨a, t⟩, he, ha⟩ := hall
    obtain rfl : a = .readStats := of_decide_eq_true ha
    exact ⟨t, he⟩
  obtain ⟨hstats, hindex⟩ := stats_accurate_when_read sharedConfig_valid sortedPlatform g hp.parts hb
  obtain ⟨t, ht⟩ := hread
  exact ⟨g, h, hdemand, ⟨t, ht, (hstats t ht).1⟩, hindex⟩

end AbtSt
