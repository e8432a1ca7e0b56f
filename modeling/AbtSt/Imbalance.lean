import AbtSt.Regulate
import Mathlib.Data.Nat.Factorial.Basic
import Mathlib.Tactic.Ring
import Mathlib.Tactic.Linarith

/-! Level 3 over several passes. Work goes from a node with twice the average to one that is
below it, and never far enough to turn the two around. A weighted sum of squares falls with
every such move, so that there are finitely many. -/

namespace AbtSt

/-- Work `m` moved from a node with `u` cores to one with `v` cores. -/
theorem squares_drop {K u v a b m avg : Nat} (hK : 0 < K) (hu : u ∣ K) (hv : v ∣ K) (hb : b < avg * v)
    (hbm : b + m < (avg + 1) * v) (ha : 2 * avg * u ≤ a) (hm : 2 * m ≤ a) (hpos : 0 < m) :
    K / u * (a - m) ^ 2 + K / v * (b + m) ^ 2 < K / u * a ^ 2 + K / v * b ^ 2 := by
  obtain ⟨w, hw⟩ := hu
  obtain ⟨x, hx⟩ := hv
  obtain ⟨d, rfl⟩ : ∃ d, a = d + m := ⟨a - m, by omega⟩
  have hu0 : 0 < u := Nat.pos_of_ne_zero (fun h => by simp [h] at hw; omega)
  have hv0 : 0 < v := Nat.pos_of_ne_zero (fun h => by simp [h] at hx; omega)
  have hx0 : 0 < x := Nat.pos_of_ne_zero (fun h => by simp [h] at hx; omega)
  have havg : 1 ≤ avg := Nat.pos_of_ne_zero (fun h => by simp [h] at hb)
  have hdiv : K / u = w ∧ K / v = x :=
    ⟨by rw [hw, Nat.mul_div_cancel_left _ hu0], by rw [hx, Nat.mul_div_cancel_left _ hv0]⟩
  rw [hdiv.1, hdiv.2, Nat.add_sub_cancel]
  -- per unit of work the source falls by more than the target rises
  have hfall : 3 * avg * K ≤ w * (2 * d + m) := by
    calc 3 * avg * K = w * (3 * (avg * u)) := by rw [hw]; ring
      _ ≤ w * (2 * d + m) := Nat.mul_le_mul_left w (by linarith)
  have hrise : x * (2 * b + m) + x ≤ (2 * avg + 1) * K := by
    calc x * (2 * b + m) + x = x * (2 * b + m + 1) := by ring
      _ ≤ x * ((2 * avg + 1) * v) := Nat.mul_le_mul_left x (by linarith)
      _ = (2 * avg + 1) * K := by rw [hx]; ring
  have hK' : K ≤ avg * K := Nat.le_mul_of_pos_left K havg
  have hless : x * (2 * b + m) < w * (2 * d + m) := by linarith
  have hwork := Nat.mul_lt_mul_of_pos_left hless hpos
  linarith

theorem below_after {b v avg m : Nat} (hv : 0 < v) (hb : b / v < avg) (hm : m ≤ (avg - b / v) * v) :
    b + m < (avg + 1) * v := by
  have hlt : b < (b / v + 1) * v := by
    rw [Nat.mul_comm]
    exact Nat.lt_mul_div_succ b hv
  calc b + m < (b / v + 1) * v + (avg - b / v) * v := Nat.add_lt_add_of_lt_of_le hlt hm
    _ = (avg + 1) * v := by rw [← Nat.add_mul]; congr 1; omega

def nodeDemand (cfg : Config) (g : Global) (n : Nat) : Nat :=
  ((g.usedIn (cfg.coresOf n)).map g.demand).sum

/-- The squares of the work of the nodes, over their cores; the factorial makes them whole
numbers. -/
def imbalance (cfg : Config) (g : Global) : Nat :=
  ((List.range cfg.nrNumas).map fun n =>
    cfg.nrCores.factorial / (g.usedIn (cfg.coresOf n)).length * nodeDemand cfg g n ^ 2).sum

/-- A migration stays within a node. -/
def Act.Local (cfg : Config) : Act → Prop
  | .combine src dst => SameNuma cfg src dst
  | _ => True

section Demand

variable {cfg : Config} {g s t : Global} {n : Nat}

theorem SameDemand.nodeDemand (h : SameDemand s t) (n : Nat) : nodeDemand cfg t n = nodeDemand cfg s n := by
  unfold AbtSt.nodeDemand
  rw [Global.usedIn_congr h.used, h.demand]

theorem moved_nodeDemand (hv : cfg.Valid) {src dst a b : Nat} {ms : List LoadId} (he : Ends g src dst)
    (hr : SameNuma cfg src dst) (hms : ms.Sublist (g.streams src).loadQ) (hn : n < cfg.nrNumas) :
    nodeDemand cfg (g.moved src dst ms a b) n = nodeDemand cfg g n := by
  obtain ⟨k, hk, hsrc, hdst⟩ := hr
  unfold nodeDemand
  rw [(moved_sameShape g ms a b he.ne).usedIn]
  by_cases hkn : k = n
  · subst hkn
    have h := sum_map_two (g.usedIn_nodup cfg k) he.ne (Global.mem_usedIn.mpr ⟨hsrc, he.used_src⟩)
      (Global.mem_usedIn.mpr ⟨hdst, he.used_dst⟩) (f := g.demand)
      (k := (g.moved src dst ms a b).demand) (fun c _ hcs hcd => moved_demand_other hcs hcd)
    have h1 := moved_demand_src (a := a) (b := b) he.ne hms
    have h2 : (g.moved src dst ms a b).demand dst = g.outstandingOf ms + g.demand dst := moved_demand_dst
    omega
  · have hout : ∀ c ∈ cfg.coresOf k, c ∉ g.usedIn (cfg.coresOf n) := fun c hc hm =>
      hkn (hv.numa_unique hk hn hc (Global.mem_usedIn.mp hm).1)
    refine congrArg List.sum (List.map_congr_left fun c hc => moved_demand_other ?_ ?_)
    · exact fun h => hout src hsrc (h ▸ hc)
    · exact fun h => hout dst hdst (h ▸ hc)

theorem RebStep.counts {a : Act} (h : RebStep cfg a s t) (ha : a.Counts) :
    SameDemand s t ∧ t.power.psEnabled = s.power.psEnabled := by
  have hsame : t.streams = s.streams → t.loads = s.loads → SameDemand s t := fun hs hl =>
    (SameDemand.of_eq hs hl).1
  cases h with
  | updateStreamsStat => exact ⟨updateStreamsStat_demand cfg s, rfl⟩
  | updatePartitionStats =>
    obtain ⟨_, _, hf⟩ := abtstUpdatePartitionStats_frame cfg s
    rw [hf] at hsame ⊢
    exact ⟨hsame rfl rfl, rfl⟩
  | resetStreamsStat =>
    have hq := (resetStreamsStat_queues cfg s).1
    exact ⟨⟨hq.used, hq.loadQ, rfl⟩, rfl⟩
  | readStats | updateNumaStat | updatePowerStat => exact ⟨hsame rfl rfl, rfl⟩
  | _ => exact absurd ha id

theorem RebStep.nodeDemand (hv : cfg.Valid) {a : Act} (h : RebStep cfg a s t) (ha : a.Local cfg) :
    (∀ c, (t.streams c).used = (s.streams c).used) ∧
    ∀ n < cfg.nrNumas, nodeDemand cfg t n = nodeDemand cfg s n := by
  have hsame : SameDemand s t → (∀ c, (t.streams c).used = (s.streams c).used) ∧
      ∀ n < cfg.nrNumas, AbtSt.nodeDemand cfg t n = AbtSt.nodeDemand cfg s n := fun hd =>
    ⟨hd.used, fun n _ => hd.nodeDemand n⟩
  have hcounts : a.Counts → (∀ c, (t.streams c).used = (s.streams c).used) ∧
      ∀ n < cfg.nrNumas, AbtSt.nodeDemand cfg t n = AbtSt.nodeDemand cfg s n := fun hc =>
    hsame (h.counts hc).1
  cases h with
  | combine he hr hc =>
    rcases abtstCombineStreams_ok he.ne hc with ⟨_, rfl⟩ | ⟨_, _, rfl⟩
    · exact ⟨fun _ => rfl, fun _ _ => rfl⟩
    · exact ⟨(moved_sameShape s _ _ _ he.ne).used,
        fun n hn => moved_nodeDemand hv he ha (List.Sublist.refl _) hn⟩
  | rebalance he hr hc =>
    obtain ⟨_, _, _, _, _, rfl⟩ := abtstRebalanceStreams_some he.ne hc
    exact ⟨(moved_sameShape s _ _ _ he.ne).used,
      fun n hn => moved_nodeDemand hv he hr (pickLoads_sublist s _ _ _) hn⟩
  | @setPartition _ c _ _ p =>
    have hq := setPartitionId_queues c p s
    exact hsame ⟨hq.used, hq.loadQ, rfl⟩
  | sleep | wake => exact hsame ⟨fun _ => rfl, fun _ => rfl, rfl⟩
  | _ => exact hcounts trivial

/-- Nodes are crossed at level 3 only. -/
theorem RebStep.local {a : Act} (h : RebStep cfg a s t) (hlevel : s.rebalance.rebalanceLevel ≤ 2) :
    a.Local cfg := by
  cases h with
  | combine _ hr _ =>
    refine hr.resolve_right fun hcross => ?_
    have := hcross.1
    omega
  | _ => trivial

theorem imbalance_congr (hu : ∀ c, (t.streams c).used = (s.streams c).used)
    (hd : ∀ n < cfg.nrNumas, nodeDemand cfg t n = nodeDemand cfg s n) : imbalance cfg t = imbalance cfg s := by
  unfold imbalance
  refine congrArg List.sum (List.map_congr_left fun n hn => ?_)
  rw [Global.usedIn_congr hu, hd n (List.mem_range.mp hn)]

theorem Exact.nodeDemand (hv : cfg.Valid) (h : Exact cfg s) (hn : n < cfg.nrNumas) :
    s.depthOf (s.usedIn (cfg.coresOf n)) = nodeDemand cfg s n := by
  refine congrArg List.sum (List.map_congr_left fun c hc => h.depth c ?_)
  exact usedIn_subset hv s hn hc

end Demand

section Local

variable (pf : Platform) (cfg : Config)

theorem rebInNuma_local (n : Nat) : Within (Act.Local cfg) (rebInNuma pf cfg n) := by
  refine .readStats_bind trivial (fun g => .lift_bind (fun parts => .lift_bind (fun r => ?_)))
  cases r with
  | none => exact .pure ()
  | some pids =>
    dsimp only
    cases hs : sortStreams pf cfg g (some n) (some pids.1) with
    | none => exact .pure ()
    | some params =>
      have hc := sortStreams_some hs
      refine Follows.lift_bind (fun _ _ _ _ => trivial) (fun r hr => ?_)
      obtain ⟨_, hsrc, hdst⟩ := chooseStreams_ok hc hr
      have hnuma : SameNuma cfg r.1 r.2 :=
        ⟨n, hc.numa, (Global.mem_group.mp hsrc).1, (Global.mem_group.mp hdst).1⟩
      refine Within.bind (.perform hnuma _) (fun _ => .bind (.act trivial _) fun _ => ?_)
      exact .act trivial _

theorem abtstRebInNumas_local : Within (Act.Local cfg) (abtstRebInNumas pf cfg) := by
  unfold abtstRebInNumas
  split_ifs
  · exact .pure ()
  · refine .forM _ (fun i => .readStats_bind trivial (fun g => ?_))
    split_ifs
    · exact .pure ()
    · exact rebInNuma_local pf cfg i

end Local

/-- Every state of the run of `m` from `s` has the work of `s` in every node. -/
def KeepsWork (cfg : Config) (m : Reb Unit) (s : Global) : Prop :=
  ∀ n < cfg.nrNumas, (∀ e ∈ (m.run s).log, nodeDemand cfg e.2 n = nodeDemand cfg s n) ∧
    nodeDemand cfg (m.run s).st n = nodeDemand cfg s n

section KeepsWork

variable {cfg : Config} {s : Global} {m : Reb Unit}

theorem KeepsWork.of_path (hv : cfg.Valid)
    (h : Path (fun a s t => RebStep cfg a s t ∧ a.Local cfg) s (m.run s).log (m.run s).st) :
    KeepsWork cfg m s := by
  intro n hn
  exact h.invariant (I := fun t => nodeDemand cfg t n = nodeDemand cfg s n)
    (fun _ _ _ hst hs => ((hst.1.nodeDemand hv hst.2).2 n hn).trans hs) rfl

theorem KeepsWork.of_local (hv : cfg.Valid) {P : Global → Prop} {Q : Unit → Global → Prop}
    {E : Fault → Global → Prop} (h : Follows (RebStep cfg) P m Q E) (hw : Within (Act.Local cfg) m)
    (hs : P s) : KeepsWork cfg m s :=
  .of_path hv ((h.path hs).and (hw.path trivial))

theorem rebPass_keepsWork (pf : Platform) (hv : cfg.Valid) (hlevel : s.rebalance.rebalanceLevel ≤ 2) :
    KeepsWork cfg (rebPass pf cfg) s := by
  refine .of_path hv (((rebPass_follows_any pf hv).path trivial).refine (I := fun t =>
    t.rebalance.rebalanceLevel ≤ 2) hlevel (fun a s t _ hst hs => ?_))
  exact ⟨by rw [hst.rebalance_eq]; exact hs, hst, hst.local hs⟩

end KeepsWork

/-- Level 3 moved work `m` from node `src` to node `dst`. -/
structure Transfer (cfg : Config) (g : Global) (avg src dst m : Nat) (t : Global) : Prop where
  chosen : Chosen cfg g avg src dst
  used : ∀ c, (t.streams c).used = (g.streams c).used
  left : t.depthOf (g.usedIn (cfg.coresOf src)) + m = g.depthOf (g.usedIn (cfg.coresOf src))
  gained : t.depthOf (g.usedIn (cfg.coresOf dst)) = g.depthOf (g.usedIn (cfg.coresOf dst)) + m
  others : ∀ n < cfg.nrNumas, n ≠ src → n ≠ dst →
    t.depthOf (g.usedIn (cfg.coresOf n)) = g.depthOf (g.usedIn (cfg.coresOf n))
  room : m ≤ (avg - (g.numaStat dst).avgQdepth) * (g.numaStat dst).usedCores
  half : 2 * m ≤ g.depthOf (g.usedIn (cfg.coresOf src))

/-- Work moved from one node to another, if at all, and then the nodes are less unequal. -/
structure Evened (cfg : Config) (g t : Global) : Prop where
  used : ∀ c, (t.streams c).used = (g.streams c).used
  less : (∀ n < cfg.nrNumas, nodeDemand cfg t n = nodeDemand cfg g n) ∨ imbalance cfg t < imbalance cfg g

section Evened

variable {pf : Platform} {cfg : Config} {g s t : Global} {avg src dst m : Nat}

theorem Evened.refl (cfg : Config) (g : Global) : Evened cfg g g := ⟨fun _ => rfl, Or.inl fun _ _ => rfl⟩

theorem Evened.same (h : Evened cfg g s) (hu : ∀ c, (t.streams c).used = (s.streams c).used)
    (hd : ∀ n < cfg.nrNumas, nodeDemand cfg t n = nodeDemand cfg s n) : Evened cfg g t := by
  refine ⟨fun c => (hu c).trans (h.used c), ?_⟩
  rw [imbalance_congr hu hd]
  exact h.less.imp_left fun hsame n hn => (hd n hn).trans (hsame n hn)

theorem Evened.from_same (h : Evened cfg s t) (hs : SameDemand g s) : Evened cfg g t := by
  refine ⟨fun c => (h.used c).trans (hs.used c), ?_⟩
  rw [← imbalance_congr hs.used (fun n _ => hs.nodeDemand n)]
  exact h.less.imp_left fun hsame n hn => (hsame n hn).trans (hs.nodeDemand n)

theorem Shifted.transfer (hv : cfg.Valid) (hc : Chosen cfg g avg src dst) {p c : Nat}
    (hm : c ∈ g.group (cfg.coresOf dst) p) (hs : Shifted g (g.group (cfg.coresOf src) p) c m t)
    (hroom : m ≤ (avg - (g.numaStat dst).avgQdepth) * (g.numaStat dst).usedCores)
    (hhalf : 2 * m ≤ g.depthOf (g.group (cfg.coresOf src) p)) : Transfer cfg g avg src dst m t := by
  have hmem := Global.mem_group.mp hm
  have hnot := hc.not_mem_src hv hmem.1
  have hpart : g.depthOf (g.group (cfg.coresOf src) p) ≤ g.depthOf (g.usedIn (cfg.coresOf src)) :=
    ((g.group_sublist (cfg.coresOf src) p).map g.qdepth).sum_le_sum (by simp)
  refine ⟨hc, hs.used, ?_, ?_, fun n hn hns hnd => ?_, hroom, hhalf.trans hpart⟩
  · exact hs.left _ (g.usedIn_nodup cfg src) (g.group_sublist (cfg.coresOf src) p).subset
      (fun hx => hnot (Global.mem_usedIn.mp hx).1)
  · refine hs.gained _ (g.usedIn_nodup cfg dst) (Global.mem_usedIn.mpr ⟨hmem.1, hmem.2.1⟩) ?_
    intro x hx hx'
    exact hc.not_mem_src hv (Global.mem_usedIn.mp hx).1 (Global.mem_group.mp hx').1
  · refine congrArg List.sum (List.map_congr_left fun x hx => ?_)
    have hxn := (Global.mem_usedIn.mp hx).1
    have hother := hs.other x
      (fun hx' => hns (hv.numa_unique hn hc.src_lt hxn (Global.mem_group.mp hx').1))
      (fun hx' => hnd (hv.numa_unique hn hc.dst_lt hxn (hx' ▸ hmem.1)))
    unfold Global.qdepth
    rw [hother]

theorem rebBetweenNumas_transfers (hv : cfg.Valid) (h : Fresh cfg g) (he : Exact cfg g)
    (hc : Chosen cfg g avg src dst) :
    Follows AnyAct (fun s => s = g) (rebBetweenNumas pf cfg src dst avg)
      (fun _ t => t = g ∨ ∃ m, Transfer cfg g avg src dst m t) (fun _ _ => True) := by
  refine rebBetweenNumas_cases trivial (Or.inl rfl) ?_
  intro p paramsFrom paramsTo e hp hcf hct hfirst
  obtain ⟨hdeficit, hhalf, hlt, hsmall⟩ := budget_eq hv h he hc hp
  have hm := (hct.entry_mem hfirst).1
  obtain ⟨hnot, hbound⟩ := hc.both_lt hv he hm
  have hmigrate := migrateStreams_shifts (fun e' he' => (hcf.mem he').1)
    (g.group_nodup cfg src p) hnot hbound
    (min ((avg - (g.numaStat dst).avgQdepth) * (g.numaStat dst).usedCores)
      ((g.depthOf (g.group (cfg.coresOf src) p) - g.depthOf (g.group (cfg.coresOf dst) p)) / 2))
    (by omega) (hcf.reverse_lt h) 0 (by omega)
  rw [hdeficit, hhalf]
  refine .bind ((hmigrate.faults (fun _ _ _ => trivial)).pre ?_) (fun _ => ?_)
  · rintro t rfl
    exact ⟨0, by simp, .refl _ _ _⟩
  · refine (restat_keeps.faults (fun _ _ _ => trivial)).post ?_
    rintro _ t ⟨_, m, hle, hs⟩
    exact Or.inr ⟨m, hs.transfer hv hc hm (by omega) (by omega)⟩

theorem rebBetweenNumasTop_transfers (hv : cfg.Valid) (h : Fresh cfg g) (he : Exact cfg g) :
    Follows AnyAct (fun s => s = g) (abtstRebBetweenNumas pf cfg)
      (fun _ t => t = g ∨ ∃ avg src dst m, Transfer cfg g avg src dst m t) (fun _ _ => True) := by
  refine readStats_bind (fun s hs => ⟨trivial, ?_⟩)
  subst hs
  dsimp only
  split_ifs
  · exact .pure (fun _ hs => Or.inl hs)
  · cases hc : chooseNumas s (abtstGetAverageQdepth cfg s) (sortNumas pf cfg s true true) with
    | none => exact .pure (fun _ hs => Or.inl hs)
    | some pair =>
      refine (rebBetweenNumas_transfers hv h he (chooseNumas_chosen hv h he hc)).post (fun _ t ht => ?_)
      exact ht.imp_right fun ⟨m, hm⟩ => ⟨_, _, _, m, hm⟩

/-- The moved work is work of the loads, as the depths are exact on both sides. -/
theorem Transfer.demand (hv : cfg.Valid) (he : Exact cfg g) (ht : Exact cfg t)
    (h : Transfer cfg g avg src dst m t) :
    nodeDemand cfg t src + m = nodeDemand cfg g src ∧ nodeDemand cfg t dst = nodeDemand cfg g dst + m ∧
      ∀ n < cfg.nrNumas, n ≠ src → n ≠ dst → nodeDemand cfg t n = nodeDemand cfg g n := by
  have hdepth : ∀ n < cfg.nrNumas, t.depthOf (g.usedIn (cfg.coresOf n)) = nodeDemand cfg t n := by
    intro n hn
    rw [← ht.nodeDemand hv hn, Global.usedIn_congr h.used]
  have hleft := h.left
  have hgained := h.gained
  rw [hdepth _ h.chosen.src_lt, he.nodeDemand hv h.chosen.src_lt] at hleft
  rw [hdepth _ h.chosen.dst_lt, he.nodeDemand hv h.chosen.dst_lt] at hgained
  refine ⟨hleft, hgained, fun n hn hns hnd => ?_⟩
  rw [← hdepth n hn, h.others n hn hns hnd, he.nodeDemand hv hn]

theorem Transfer.imbalance_lt (hv : cfg.Valid) (hf : Fresh cfg g) (he : Exact cfg g) (ht : Exact cfg t)
    (h : Transfer cfg g avg src dst m t) (hm : 0 < m) : imbalance cfg t < imbalance cfg g := by
  obtain ⟨hleft, hgained, hsame⟩ := h.demand hv he ht
  obtain ⟨hc, hu, _, _, _, hroom, hhalf⟩ := h
  have hsrc := he.nodeDemand hv hc.src_lt
  have hdst := he.nodeDemand hv hc.dst_lt
  have hbelow := hc.below
  have habove := hc.above
  rw [hsrc] at hhalf
  rw [hf.numaStat_eq hv he hc.dst_lt hc.used_dst, hdst] at hroom hbelow
  rw [hf.numaStat_eq hv he hc.src_lt hc.used_src, hsrc] at habove
  have hlen : ∀ n < cfg.nrNumas, g.usedIn (cfg.coresOf n) ≠ [] →
      (g.usedIn (cfg.coresOf n)).length ∣ cfg.nrCores.factorial := fun n hn hne =>
    Nat.dvd_factorial (List.length_pos_of_ne_nil hne) (length_usedIn_le_nrCores hv g hn)
  have hposd := List.length_pos_of_ne_nil hc.used_dst
  have hposs := List.length_pos_of_ne_nil hc.used_src
  have hdrop := squares_drop (Nat.factorial_pos cfg.nrCores) (hlen src hc.src_lt hc.used_src)
    (hlen dst hc.dst_lt hc.used_dst) ((Nat.div_lt_iff_lt_mul hposd).mp hbelow)
    (below_after hposd hbelow hroom) ((Nat.le_div_iff_mul_le hposs).mp habove) hhalf hm
  rw [show nodeDemand cfg g src - m = nodeDemand cfg t src by omega, ← hgained] at hdrop
  -- the terms of the other nodes stay
  have hsum := sum_map_two List.nodup_range hc.ne (List.mem_range.mpr hc.src_lt)
    (List.mem_range.mpr hc.dst_lt)
    (f := fun n => cfg.nrCores.factorial / (g.usedIn (cfg.coresOf n)).length * nodeDemand cfg g n ^ 2)
    (k := fun n => cfg.nrCores.factorial / (g.usedIn (cfg.coresOf n)).length * nodeDemand cfg t n ^ 2)
    (fun n hn hns hnd => by simp only [hsame n (List.mem_range.mp hn) hns hnd])
  unfold imbalance
  rw [Global.usedIn_congr hu]
  omega

theorem Transfer.evened (hv : cfg.Valid) (hf : Fresh cfg g) (he : Exact cfg g) (ht : Exact cfg t)
    (h : Transfer cfg g avg src dst m t) : Evened cfg g t := by
  refine ⟨h.used, ?_⟩
  rcases Nat.eq_zero_or_pos m with rfl | hm
  · obtain ⟨hleft, hgained, hsame⟩ := h.demand hv he ht
    refine Or.inl fun n hn => ?_
    by_cases hns : n = src
    · rw [hns]
      exact hleft
    · by_cases hnd : n = dst
      · rw [hnd]
        exact hgained
      · exact hsame n hn hns hnd
  · exact Or.inr (h.imbalance_lt hv hf he ht hm)

theorem RebStep.evened (hv : cfg.Valid) {a : Act} (hst : RebStep cfg a s t) (ha : a.Local cfg)
    (h : Evened cfg g s) : Evened cfg g t := by
  obtain ⟨hu, hd⟩ := hst.nodeDemand hv ha
  exact h.same hu hd

theorem rebPass_evens (pf : Platform) (hv : cfg.Valid) (hb : g.total cfg < 2 ^ 31)
    (hoff : g.power.psEnabled = false) :
    Follows (RebStep cfg) (fun s => s = g) (rebPass pf cfg) (fun _ => Evened cfg g) (fun _ _ => True) := by
  have hcounts : ∀ a s t, RebStep cfg a s t → a.Counts → SameDemand g s ∧ s.power.psEnabled = false →
      SameDemand g t ∧ t.power.psEnabled = false := by
    intro a s t hst ha hs
    obtain ⟨hd, hps⟩ := hst.counts ha
    exact ⟨⟨fun c => (hd.used c).trans (hs.1.used c), fun c => (hd.loadQ c).trans (hs.1.loadQ c),
      hd.outstanding.trans hs.1.outstanding⟩, hps.trans hs.2⟩
  have hlocal : ∀ a s t, RebStep cfg a s t → a.Local cfg → Evened cfg g s → Evened cfg g t :=
    fun _ _ _ hst ha hs => hst.evened hv ha hs
  have hstart := (updateStat_follows pf : Follows (RebStep cfg) (fun s => s = g) _ _ _).within hcounts
    (abtstRebUpdateStat_counts pf cfg)
  refine .bind (hstart.pre fun s hs => ?_) (fun _ => .read_bind fun s hs => ?_)
  · subst hs
    exact ⟨rfl, ⟨fun _ => rfl, fun _ => rfl, rfl⟩, hoff⟩
  obtain ⟨⟨hf, hstreams, hreb⟩, hsame, hps⟩ := hs
  have hupdate := updateStreamsStat_demand cfg g
  have hexact : Exact cfg s := by
    refine (updateStreamsStat_exact hb).of_demand ⟨fun c => by rw [hstreams], fun c => by rw [hstreams], ?_⟩ ?_
    · rw [hsame.outstanding, hupdate.outstanding]
    · unfold Global.qdepth
      rw [hstreams]
  have hkeep := (Evened.refl cfg s).from_same hsame
  dsimp only
  refine .bind (Q := fun _ t => Fresh cfg t ∧ Evened cfg g t) (.onlyIf (fun hlevel => ?_)
    (fun _ t ht => ht ▸ ⟨hf, hkeep⟩)) (fun _ => ?_)
  · refine .bind (rebPowerSaving_off hf hps) (fun _ => ?_)
    have hfollows : Follows (RebStep cfg) (fun t => t = s) (abtstRebBetweenNumas pf cfg)
        (fun _ t => Fresh cfg t ∧ Exact cfg t) (GapFault cfg) :=
      ((rebBetweenNumasTop_follows hv).and_invariant (fun _ _ _ hst ht => (hst.exact hv ht).1)).pre
        (fun t ht => ht ▸ ⟨⟨hf, hlevel⟩, hexact⟩)
    refine (((hfollows.and (rebBetweenNumasTop_transfers hv hf hexact)).relax (fun _ _ _ h => h.1)).faults
      (fun _ _ _ => trivial)).post (fun _ t ht => ⟨ht.1.1, ?_⟩)
    rcases ht.2 with rfl | ⟨avg, src, dst, m, htransfer⟩
    · exact hkeep
    · exact (htransfer.evened hv hf hexact ht.1.2).from_same hsame
  · exact lowerLevels_keep hv pf _ hlocal (abtstRebInNumas_local pf cfg)
      (abtstRebInPartitions_within pf cfg trivial (fun _ _ => trivial)) trivial

end Evened

/-- Runs in which the loads keep their sizes and power saving is off, with the number of
passes in which work moved between nodes. -/
inductive SizedRun (cfg : Config) (g : Global) : Nat → Global → Prop
  | start : SizedRun cfg g 0 g
  | between {k : Nat} {s t : Global} : SizedRun cfg g k s → Between s t → t.outstanding = s.outstanding →
      SizedRun cfg g k t
  | pass {k : Nat} {s : Global} {pf : Platform} : SizedRun cfg g k s → s.power.psEnabled = false →
      (rebPass pf cfg).fault s = none →
      SizedRun cfg g (if ∃ n < cfg.nrNumas, nodeDemand cfg ((rebPass pf cfg).run s).st n ≠ nodeDemand cfg s n
        then k + 1 else k) ((rebPass pf cfg).run s).st

section Run

variable {cfg : Config} {g s : Global} {k : Nat}

theorem SizedRun.placed (hv : cfg.Valid) (hp : PartsInRange cfg g) (hb : g.total cfg < 2 ^ 31)
    (h : SizedRun cfg g k s) : PartsInRange cfg s ∧ s.total cfg < 2 ^ 31 := by
  induction h with
  | start => exact ⟨hp, hb⟩
  | between _ hbt ho ih =>
    have hsame : SameDemand _ _ := ⟨hbt.queues.used, hbt.queues.loadQ, ho⟩
    refine ⟨fun c hc => ?_, by rw [hsame.total]; exact ih.2⟩
    rw [hbt.queues.used] at hc
    rw [hbt.partId]
    exact ih.1 c hc
  | @pass _ s pf _ _ _ ih =>
    have hpath := (rebPass_follows_any pf hv).path (s := s) trivial
    refine ⟨(hpath.invariant (fun _ _ _ hst hs => hst.partsInRange hs) ih.1).2, ?_⟩
    rw [(rebPass_exact hv pf ih.1 ih.2).2.2]
    exact ih.2

theorem SizedRun.imbalance_le (hv : cfg.Valid) (hp : PartsInRange cfg g) (hb : g.total cfg < 2 ^ 31)
    (h : SizedRun cfg g k s) : k + imbalance cfg s ≤ imbalance cfg g := by
  induction h with
  | start => omega
  | between _ hbt ho ih =>
    have hsame : SameDemand _ _ := ⟨hbt.queues.used, hbt.queues.loadQ, ho⟩
    rw [imbalance_congr hbt.queues.used (fun n _ => hsame.nodeDemand n)]
    exact ih
  | @pass k s pf hrun hoff hok ih =>
    obtain ⟨_, hevened⟩ := (rebPass_evens pf hv (hrun.placed hv hp hb).2 hoff).of_ok rfl hok
    split_ifs with hmoved
    · obtain ⟨n, hn, hne⟩ := hmoved
      have hless := hevened.less.resolve_left fun hall => hne (hall n hn)
      omega
    · have hall : ∀ n < cfg.nrNumas, nodeDemand cfg ((rebPass pf cfg).run s).st n = nodeDemand cfg s n := by
        intro n hn
        by_contra hne
        exact hmoved ⟨n, hn, hne⟩
      rw [imbalance_congr hevened.used hall]
      exact ih

end Run

/-- Level 3 settles. While the loads keep their sizes and power saving is off, each pass
that moves work between nodes lowers the imbalance, so that their number in any run is at
most what the imbalance was. The levels below never change the work of a node, in passes of
their own or in the rest of a pass at level 3, which follows with fresh statistics. -/
theorem level3_settles {cfg : Config} (hv : cfg.Valid) {g : Global} (hp : PartsInRange cfg g)
    (hb : g.total cfg < 2 ^ 31) {k : Nat} {s : Global} (h : SizedRun cfg g k s) :
    k + imbalance cfg s ≤ imbalance cfg g ∧
    (∀ pf t, t.rebalance.rebalanceLevel ≤ 2 → KeepsWork cfg (rebPass pf cfg) t) ∧
    ∀ pf t, Fresh cfg t → KeepsWork cfg (abtstRebInNumas pf cfg) t ∧
      KeepsWork cfg (abtstRebInPartitions pf cfg) t := by
  refine ⟨h.imbalance_le hv hp hb, fun pf _ hlevel => rebPass_keepsWork pf hv hlevel, ?_⟩
  intro pf t ht
  exact ⟨.of_local hv (rebInNumas_follows hv) (abtstRebInNumas_local pf cfg) ht,
    .of_local hv (rebInPartitions_follows hv)
      (abtstRebInPartitions_within pf cfg trivial (fun _ _ => trivial)) ht⟩

/-- The first pass moves 20 packets. -/
theorem level3_settles_busyNode : ∃ s, SizedRun splitConfig busyNode 1 s ∧
    1 + imbalance splitConfig s ≤ imbalance splitConfig busyNode := by
  have hok : (rebPass sortedPlatform splitConfig).fault busyNode = none := by decide +kernel
  have hrun := SizedRun.pass .start rfl hok
  have hmoved : ∃ n < splitConfig.nrNumas, nodeDemand splitConfig
      ((rebPass sortedPlatform splitConfig).run busyNode).st n ≠ nodeDemand splitConfig busyNode n := by
    decide +kernel
  rw [if_pos hmoved] at hrun
  have hparts : PartsInRange splitConfig busyNode := fun c _ => (by decide : 0 < 1)
  exact ⟨_, hrun, (level3_settles splitConfig_valid hparts (by decide +kernel) hrun).1⟩

end AbtSt
