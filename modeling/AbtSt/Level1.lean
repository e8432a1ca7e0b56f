import AbtSt.Depth
import Mathlib.Tactic.Ring

/-! Level 1 over many passes. A rebalance that moves less than the difference
of the two depths lowers a potential of the group, so a run of such rebalances
never returns to an assignment and ends. The loads that fit and the smallest
load always stay below the difference; loads that are away from their initial
stream are moved whatever their size, and then the same load can go to and fro. -/

namespace AbtSt

def Act.isRebalance : Act → Bool
  | .rebalance _ _ => true
  | _ => false

def Rebalanced (log : List (Act × Global)) : Prop := (log.any fun e => e.1.isRebalance) = true

instance (log : List (Act × Global)) : Decidable (Rebalanced log) :=
  inferInstanceAs (Decidable (_ = true))

structure Extremes (pf : Platform) (cfg : Config) (n p : Nat) (g : Global) (first last : SortParam) :
    Prop where
  sorted : ∃ params, sortStreams pf cfg g (some n) (some p) = some params ∧
    entry params 0 = .ok first ∧ entry params (u32 ((g.numaStats p n).usedCores - 1)) = .ok last

theorem rebInPartition_turn (pf : Platform) (cfg : Config) (n p : Nat) (g : Global) :
    (¬ Rebalanced ((rebInPartition pf cfg n p).run g).log ∧
      ((rebInPartition pf cfg n p).run g).st = g) ∨
    ∃ first last avg g', Extremes pf cfg n p g first last ∧
      ¬ i32 (last.ios - first.ios) < minIosToStartReb ∧
      abtstRebalanceStreams g first last avg = .ok (some g') ∧
      ((rebInPartition pf cfg n p).run g).st = g' := by
  unfold Prog.run rebInPartition readStats
  simp only [bind_assoc, Prog.exec_act_bind, Prog.exec_read_bind, id_eq, List.nil_append]
  have hnone : ¬ Rebalanced [(Act.readStats, g)] ∧ g = g := ⟨by simp [Rebalanced, Act.isRebalance], rfl⟩
  cases hs : sortStreams pf cfg g (some n) (some p) with
  | none => exact Or.inl hnone
  | some params =>
    dsimp only
    cases hl : entry params (u32 ((g.numaStats p n).usedCores - 1)) with
    | error e =>
      rw [Prog.exec_lift_error_bind]
      exact Or.inl hnone
    | ok last =>
      rw [Prog.exec_lift_ok_bind]
      cases hf : entry params 0 with
      | error e =>
        rw [Prog.exec_lift_error_bind]
        exact Or.inl hnone
      | ok first =>
        rw [Prog.exec_lift_ok_bind]
        by_cases hmin : i32 (last.ios - first.ios) < minIosToStartReb
        · rw [if_pos hmin, Prog.exec_pure]
          exact Or.inl hnone
        · rw [if_neg hmin]
          by_cases hz : (g.streams first.stream).sleepNsec = 0
          · rw [if_pos hz, Prog.exec_pure]
            exact Or.inl hnone
          · rw [if_neg hz]
            cases ha : pf.div (g.numaStats p n).qdepth (g.numaStats p n).usedCores with
            | error e =>
              rw [Prog.exec_lift_error_bind]
              exact Or.inl hnone
            | ok avg =>
              rw [Prog.exec_lift_ok_bind]
              cases hr : abtstRebalanceStreams g first last avg with
              | error e =>
                rw [Prog.exec_lift_error_bind]
                exact Or.inl hnone
              | ok r =>
                rw [Prog.exec_lift_ok_bind]
                cases r with
                | none => exact Or.inl hnone
                | some g' =>
                  exact Or.inr ⟨first, last, avg, g', ⟨params, hs, hf, hl⟩, hmin, hr, rfl⟩

section Scan

variable {g : Global} {p1 p2 : SortParam} {avg : Nat}

structure Sized (g : Global) (p1 p2 : SortParam) : Prop where
  first : 0 ≤ p1.ios
  last : p2.ios = g.outstandingOf (g.streams p2.stream).loadQ
  bound : p1.ios + p2.ios < 2 ^ 31

theorem Sized.sublist (h : Sized g p1 p2) {ms : List LoadId}
    (hms : ms.Sublist (g.streams p2.stream).loadQ) :
    g.sizeOf ms = g.outstandingOf ms ∧ (g.outstandingOf ms : Int) ≤ p2.ios := by
  have hle : g.outstandingOf ms ≤ g.outstandingOf (g.streams p2.stream).loadQ :=
    (hms.map g.outstanding).sum_le_sum (by simp)
  have hl := h.last
  have hb := h.bound
  have hf := h.first
  exact ⟨sizeOf_eq (by omega), by omega⟩

theorem u32_of_nonneg {x : Int} (h : 0 ≤ x) (h' : x < 2 ^ 32) : (u32 x : Int) = x := by
  rw [cast_u32]
  omega

theorem fitting_le (h : Sized g p1 p2) (hne : (fitting g p1 p2 avg).mloads ≠ []) :
    p1.ios + g.sizeOf (fitting g p1 p2 avg).mloads ≤ avg := by
  have hstart : (([] : List LoadId) ++ (g.streams p2.stream).loadQ).Sublist
      (g.streams p2.stream).loadQ := List.Sublist.refl _
  have hinv := scanFitting_induct g avg (g.streams p1.stream).nrLoads
    (I := fun rest q => (q.mloads ++ rest).Sublist (g.streams p2.stream).loadQ ∧
      q.ios = p1.ios + g.sizeOf q.mloads ∧ (q.mloads ≠ [] → q.ios ≤ avg))
    (fun l rest q _ hq => ⟨((List.sublist_cons_self l rest).append_left q.mloads).trans hq.1, hq.2⟩)
    (fun l rest q _ hq => by
      obtain ⟨hsub, hios, hle⟩ := hq
      rcases visit_cases g avg q l with ⟨hm, hi, _⟩ | ⟨hm, hi, _, _, hfit⟩
      · rw [hm, hi]
        exact ⟨((List.sublist_cons_self l rest).append_left q.mloads).trans hsub, hios, hle⟩
      · have hsub' : (q.mloads ++ [l]).Sublist (g.streams p2.stream).loadQ := by
          refine List.Sublist.trans ?_ hsub
          exact (List.singleton_sublist.mpr (by simp)).append_left q.mloads
        obtain ⟨hs, hb⟩ := h.sublist hsub'
        have hsize : g.sizeOf (q.mloads ++ [l]) = g.sizeOf q.mloads + g.loadSize l := by simp
        have h0 := h.first
        have hbound := h.bound
        have hexact : i32 (q.ios + g.loadSize l) = p1.ios + g.sizeOf (q.mloads ++ [l]) := by
          rw [i32_of_lt] <;> omega
        rw [hm, hi, List.append_assoc]
        refine ⟨hsub, hexact, fun _ => ?_⟩
        have hu := u32_of_nonneg (x := i32 (q.ios + g.loadSize l)) (by omega) (by omega)
        omega)
    (fun rest q hq => ⟨((List.nil_sublist rest).append_left q.mloads).trans hq.1, hq.2⟩)
    (g.streams p2.stream).loadQ (startPick p1 p2)
    ⟨hstart, by simp [startPick], by simp [startPick]⟩
  have hle := hinv.2.2 hne
  rw [hinv.2.1] at hle
  exact hle

theorem pickLoads_gap (h : Sized g p1 p2) (hratio : 3 * p1.ios ≤ 2 * p2.ios)
    (havg : avg < u32 p2.ios) (hne : (pickLoads g p1 p2 avg).mloads ≠ [])
    (hforeign : g.foreign p2.stream ≠ [] → p1.ios + g.sizeOf (g.foreign p2.stream) < p2.ios) :
    p1.ios + g.sizeOf (pickLoads g p1 p2 avg).mloads < p2.ios := by
  have h0 := h.first
  have hbound := h.bound
  have hlast := h.last
  rcases pickLoads_cases g p1 p2 avg hne with ⟨hf, he⟩ | ⟨_, he⟩ | ⟨_, _, l, hl, _, hlt, he, _⟩
  · rw [he]
    exact hforeign hf
  · rw [he] at hne ⊢
    have hle := fitting_le h hne
    have hu := u32_of_nonneg (x := p2.ios) (by omega) (by omega)
    omega
  · obtain ⟨hs, hb⟩ := h.sublist (List.singleton_sublist.mpr hl)
    have hsize : g.sizeOf [l] = g.loadSize l := by simp
    rw [he, hsize]
    rw [i32_of_lt (by omega) (by omega), i32_of_lt (by omega) (by omega)] at hlt
    omega

end Scan

/-- A state in which a pass starts: the statistics of the group are refreshed, its
migrations are complete and its streams have slept. -/
structure Rested (cfg : Config) (n p : Nat) (g : Global) : Prop where
  stat : (g.numaStats p n).Tallies (g.group (cfg.coresOf n) p).length
    (g.depthOf (g.group (cfg.coresOf n) p))
  depth : ∀ c ∈ g.group (cfg.coresOf n) p, g.qdepth c = u32 (getStreamIos g c)
  arrived : ∀ c ∈ g.group (cfg.coresOf n) p, ∀ l ∈ (g.streams c).loadQ,
    (g.loads l).currRank = (g.loads l).destRank
  slept : ∀ c ∈ g.group (cfg.coresOf n) p, (g.streams c).sleepNsec ≠ 0

structure Calm (g s : Global) : Prop where
  labels : ∀ c, (s.streams c).used = (g.streams c).used ∧ (s.streams c).partId = (g.streams c).partId
  loadQ : ∀ c, (s.streams c).loadQ = (g.streams c).loadQ
  outstanding : s.outstanding = g.outstanding
  initRank : ∀ l, (s.loads l).initRank = (g.loads l).initRank

/-- A pass over a partition that makes a rebalance, up to the next pass. -/
structure LevelOne (pf : Platform) (cfg : Config) (n p : Nat) (g s : Global) : Prop where
  rested : Rested cfg n p g
  rebalanced : Rebalanced ((rebInPartition pf cfg n p).run g).log
  calm : Calm ((rebInPartition pf cfg n p).run g).st s

def SameAssignment (cfg : Config) (n p : Nat) (g s : Global) : Prop :=
  ∀ c ∈ g.group (cfg.coresOf n) p, (s.streams c).loadQ.Perm (g.streams c).loadQ

def overGroup (cfg : Config) (n p : Nat) (g : Global) (f : Nat → Nat) : Nat :=
  ((g.group (cfg.coresOf n) p).map f).sum

/-- The group has less than `2^31` packets, and the foreign loads of its busiest
stream, if there are any, are smaller than the difference between the depth of this
stream and that of the least busy one. -/
structure NoOvershoot (pf : Platform) (cfg : Config) (n p : Nat) (g : Global) : Prop where
  small : overGroup cfg n p g g.demand < 2 ^ 31
  foreign : ∀ first last, Extremes pf cfg n p g first last → g.foreign last.stream ≠ [] →
    first.ios + g.sizeOf (g.foreign last.stream) < last.ios

def loadsIn (g : Global) (c : Nat) : Nat := (g.streams c).loadQ.length

/-- First the squares of the depths, then the depth that each load meets. -/
def potential (cfg : Config) (n p : Nat) (g : Global) : Nat :=
  (overGroup cfg n p g (loadsIn g) * overGroup cfg n p g g.demand + 1) *
      overGroup cfg n p g (fun c => g.demand c ^ 2) +
    overGroup cfg n p g (fun c => loadsIn g c * g.demand c)

theorem sum_mul_le (l : List Nat) (f h : Nat → Nat) :
    (l.map fun c => f c * h c).sum ≤ (l.map f).sum * (l.map h).sum := by
  induction l with
  | nil => simp
  | cons c l ih =>
    simp only [List.map_cons, List.sum_cons, Nat.add_mul, Nat.mul_add]
    omega

/-- The arithmetic of one move of size `m`: `j` loads leave a stream with depth
`b` and `y` loads for one with depth `a` and `x` loads. -/
theorem potential_arith {K a b m x y j s1 s2 s1' s2' : Nat} (hgap : a + m < b) (hj : 0 < j)
    (hjy : j ≤ y) (h1 : s1' + (b ^ 2 + a ^ 2) = s1 + ((b - m) ^ 2 + (m + a) ^ 2))
    (h2 : s2' + (y * b + x * a) = s2 + ((y - j) * (b - m) + (j + x) * (m + a))) (hK : s2' ≤ K) :
    (K + 1) * s1' + s2' < (K + 1) * s1 + s2 := by
  obtain ⟨d, rfl⟩ : ∃ d, b = a + m + d + 1 := ⟨b - a - m - 1, by omega⟩
  obtain ⟨k, rfl⟩ : ∃ k, y = j + k := ⟨y - j, by omega⟩
  have hb : a + m + d + 1 - m = a + d + 1 := by omega
  have hy : j + k - j = k := by omega
  rw [hb] at h1 h2
  rw [hy] at h2
  have e1 : (a + m + d + 1) ^ 2 + a ^ 2 = (a + d + 1) ^ 2 + (m + a) ^ 2 + 2 * (m * (d + 1)) := by ring
  have e2 : (j + k) * (a + m + d + 1) + x * a + x * m =
      k * (a + d + 1) + (j + x) * (m + a) + j * (d + 1) + k * m := by ring
  by_cases hm : m = 0
  · subst hm
    have hdown : 0 < j * (d + 1) := Nat.mul_pos hj (Nat.succ_pos d)
    obtain rfl : s1' = s1 := by omega
    omega
  · have hdown : 0 < m * (d + 1) := Nat.mul_pos (Nat.pos_of_ne_zero hm) (Nat.succ_pos d)
    have hlt : s1' + 1 ≤ s1 := by omega
    have hmul := Nat.mul_le_mul_left (K + 1) hlt
    rw [Nat.mul_succ] at hmul
    omega

theorem Calm.demand {g s : Global} (h : Calm g s) : s.demand = g.demand := by
  funext c
  unfold Global.demand Global.outstandingOf
  rw [h.loadQ, h.outstanding]

theorem Calm.group {g s : Global} (h : Calm g s) : s.group = g.group :=
  Global.group_congr (fun c => (h.labels c).1) (fun c => (h.labels c).2)

section Moved

variable {cfg : Config} {n p : Nat} {g s : Global} {src dst a b : Nat} {ms : List LoadId}

theorem potential_moved (hs : src ∈ g.group (cfg.coresOf n) p) (hd : dst ∈ g.group (cfg.coresOf n) p)
    (hne : src ≠ dst) (hms : ms.Sublist (g.streams src).loadQ) (hpos : ms ≠ [])
    (hgap : g.demand dst + g.outstandingOf ms < g.demand src) :
    potential cfg n p (g.moved src dst ms a b) < potential cfg n p g := by
  have hgroup : (g.moved src dst ms a b).group = g.group := (moved_sameShape g ms a b hne).group
  have hnd := g.group_nodup cfg n p
  have hdsrc := moved_demand_src (a := a) (b := b) hne hms
  have hddst : (g.moved src dst ms a b).demand dst = g.outstandingOf ms + g.demand dst :=
    moved_demand_dst
  have hdemand : (g.moved src dst ms a b).demand src = g.demand src - g.outstandingOf ms := by omega
  have hlen : ms.length + ((g.streams src).loadQ.diff ms).length = (g.streams src).loadQ.length := by
    rw [← List.length_append]
    exact (sublist_append_diff hms).length_eq
  have hlsrc : loadsIn (g.moved src dst ms a b) src = loadsIn g src - ms.length := by
    unfold loadsIn
    rw [moved_src g ms a b hne]
    dsimp only
    omega
  have hldst : loadsIn (g.moved src dst ms a b) dst = ms.length + loadsIn g dst := by
    unfold loadsIn
    rw [moved_dst g ms a b]
    simp
  have hlother : ∀ c, c ≠ src → c ≠ dst → loadsIn (g.moved src dst ms a b) c = loadsIn g c := by
    intro c hcs hcd
    unfold loadsIn
    rw [moved_other g ms a b hcs hcd]
  have hdother : ∀ c, c ≠ src → c ≠ dst → (g.moved src dst ms a b).demand c = g.demand c :=
    fun c hcs hcd => moved_demand_other hcs hcd
  have hjy : ms.length ≤ loadsIn g src := hms.length_le
  have hj : 0 < ms.length := List.length_pos_iff.mpr hpos
  have hL := sum_map_two hnd hne hs hd (f := loadsIn g) (k := loadsIn (g.moved src dst ms a b))
    (fun c _ => hlother c)
  have hD := sum_map_two hnd hne hs hd (f := g.demand) (k := (g.moved src dst ms a b).demand)
    (fun c _ => hdother c)
  have h1 := sum_map_two hnd hne hs hd (f := fun c => g.demand c ^ 2)
    (k := fun c => (g.moved src dst ms a b).demand c ^ 2)
    (fun c _ hcs hcd => by rw [hdother c hcs hcd])
  have h2 := sum_map_two hnd hne hs hd (f := fun c => loadsIn g c * g.demand c)
    (k := fun c => loadsIn (g.moved src dst ms a b) c * (g.moved src dst ms a b).demand c)
    (fun c _ hcs hcd => by rw [hlother c hcs hcd, hdother c hcs hcd])
  have hK := sum_mul_le (g.group (cfg.coresOf n) p) (loadsIn (g.moved src dst ms a b))
    (g.moved src dst ms a b).demand
  have hL' : ((g.group (cfg.coresOf n) p).map (loadsIn (g.moved src dst ms a b))).sum =
      ((g.group (cfg.coresOf n) p).map (loadsIn g)).sum := by omega
  have hD' : ((g.group (cfg.coresOf n) p).map (g.moved src dst ms a b).demand).sum =
      ((g.group (cfg.coresOf n) p).map g.demand).sum := by omega
  rw [hL', hD'] at hK
  rw [hdemand, hddst] at h1
  rw [hdemand, hddst, hlsrc, hldst] at h2
  unfold potential overGroup
  rw [hgroup, hL', hD']
  exact potential_arith hgap hj hjy h1 h2 hK

end Moved

theorem Calm.potential {cfg : Config} {n p : Nat} {g s : Global} (h : Calm g s) :
    potential cfg n p s = potential cfg n p g := by
  have hloads : loadsIn s = loadsIn g := by
    funext c
    unfold loadsIn
    rw [h.loadQ]
  unfold AbtSt.potential overGroup
  rw [h.group, h.demand, hloads]

theorem Rested.ios {cfg : Config} {n p : Nat} {g : Global} (h : Rested cfg n p g)
    (hsmall : overGroup cfg n p g g.demand < 2 ^ 31) {c : Nat} (hc : c ∈ g.group (cfg.coresOf n) p) :
    i32 (g.qdepth c) = g.demand c := by
  have hle : g.demand c ≤ overGroup cfg n p g g.demand :=
    List.single_le_sum (by simp) _ (List.mem_map_of_mem hc)
  have hsize : g.sizeOf (g.streams c).loadQ = g.demand c := sizeOf_eq (Nat.lt_of_le_of_lt hle hsmall)
  rw [h.depth c hc, getStreamIos_emod, hsize, u32_of_lt (by omega), i32_of_lt (by omega) (by omega)]

theorem LevelOne.potential_lt {pf : Platform} {cfg : Config} {n p : Nat} {g s : Global}
    (h : LevelOne pf cfg n p g s) (hno : NoOvershoot pf cfg n p g) :
    potential cfg n p s < potential cfg n p g := by
  rw [h.calm.potential]
  rcases rebInPartition_turn pf cfg n p g with ⟨hnone, _⟩ | ⟨first, last, avg, g', hext, hmin, hr, hst⟩
  · exact absurd h.rebalanced hnone
  · obtain ⟨params, hsort, hf, hl⟩ := hext.sorted
    have hcol := sortStreams_some hsort
    obtain ⟨hends, _⟩ := hcol.ends hl hf (index_ne hf hl hmin)
    obtain ⟨hdst, hfios⟩ := hcol.entry_mem hf
    obtain ⟨hsrc, hlios⟩ := hcol.entry_mem hl
    have hsum : g.demand last.stream + g.demand first.stream < 2 ^ 31 :=
      Nat.lt_of_le_of_lt (add_le_sum_map hsrc hdst hends.ne) hno.small
    have hfirst : first.ios = g.demand first.stream := by rw [hfios, h.rested.ios hno.small hdst]
    have hlast : last.ios = g.demand last.stream := by rw [hlios, h.rested.ios hno.small hsrc]
    have hsized : Sized g first last := ⟨by omega, hlast, by omega⟩
    obtain ⟨_, havg, hratio, hpick, _, rfl⟩ := abtstRebalanceStreams_some hends.ne hr
    have hgap := pickLoads_gap hsized hratio havg hpick (hno.foreign first last hext)
    have hsub := pickLoads_sublist g first last avg
    rw [(hsized.sublist hsub).1, hfirst, hlast] at hgap
    rw [hst]
    exact potential_moved hsrc hdst hends.ne hsub hpick (by omega)

theorem SameAssignment.potential {cfg : Config} {n p : Nat} {g s : Global}
    (h : SameAssignment cfg n p g s) (hgroup : s.group = g.group)
    (hsize : s.outstanding = g.outstanding) : potential cfg n p s = potential cfg n p g := by
  have hdemand : ∀ c ∈ g.group (cfg.coresOf n) p, s.demand c = g.demand c := by
    intro c hc
    unfold Global.demand Global.outstandingOf
    rw [hsize]
    exact ((h c hc).map g.outstanding).sum_eq
  have hloads : ∀ c ∈ g.group (cfg.coresOf n) p, loadsIn s c = loadsIn g c :=
    fun c hc => (h c hc).length_eq
  have hsq : (g.group (cfg.coresOf n) p).map (fun c => s.demand c ^ 2) =
      (g.group (cfg.coresOf n) p).map (fun c => g.demand c ^ 2) :=
    List.map_congr_left (fun c hc => by rw [hdemand c hc])
  have hmul : (g.group (cfg.coresOf n) p).map (fun c => loadsIn s c * s.demand c) =
      (g.group (cfg.coresOf n) p).map (fun c => loadsIn g c * g.demand c) :=
    List.map_congr_left (fun c hc => by rw [hdemand c hc, hloads c hc])
  unfold AbtSt.potential overGroup
  rw [hgroup, List.map_congr_left hdemand, List.map_congr_left hloads, hsq, hmul]

theorem LevelOne.same {pf : Platform} {cfg : Config} {n p : Nat} {g s : Global}
    (h : LevelOne pf cfg n p g s) : s.group = g.group ∧ s.outstanding = g.outstanding := by
  rw [h.calm.group, h.calm.outstanding]
  rcases rebInPartition_turn pf cfg n p g with ⟨_, hst⟩ | ⟨first, last, avg, g', hext, hmin, hr, hst⟩
  · rw [hst]
    exact ⟨rfl, rfl⟩
  · obtain ⟨params, hsort, hf, hl⟩ := hext.sorted
    obtain ⟨hends, _⟩ := (sortStreams_some hsort).ends hl hf (index_ne hf hl hmin)
    obtain ⟨_, _, _, _, _, rfl⟩ := abtstRebalanceStreams_some hends.ne hr
    rw [hst]
    exact ⟨(moved_sameShape g _ _ _ hends.ne).group, moved_outstanding⟩

def trioConfig : Config where
  nrCores := 4
  nrNumas := 1
  numaInfo _ := ⟨0, 3⟩
  partitions := [⟨0, [1, 2, 3]⟩]
  partitionMap c := if c = 0 then -1 else 0

theorem trioConfig_valid : trioConfig.Valid := by
  refine ⟨by decide, by decide, by decide, by decide, by decide, ?_⟩
  intro m hm n hn hne
  simp only [trioConfig] at hm hn
  omega

/-- Pending migrations complete, every stream sleeps and the statistics are refreshed. -/
def settle (cfg : Config) (g : Global) : Global :=
  let g := { g with
    loads := fun l => { g.loads l with currRank := (g.loads l).destRank }
    streams := fun c => { g.streams c with sleepNsec := 1 } }
  let g := abtstUpdatePartitionStats cfg (abtstUpdateStreamsStat cfg g)
  { g with numaStat := fun n => ⟨(g.usedIn (cfg.coresOf n)).length,
      g.depthOf (g.usedIn (cfg.coresOf n)) / (g.usedIn (cfg.coresOf n)).length⟩ }

theorem settle_calm (cfg : Config) (g : Global) : Calm g (settle cfg g) := by
  unfold settle
  dsimp only
  generalize hg : ({ g with
    loads := fun l => { g.loads l with currRank := (g.loads l).destRank }
    streams := fun c => { g.streams c with sleepNsec := 1 } } : Global) = s
  obtain ⟨_, _, hf⟩ := abtstUpdatePartitionStats_frame cfg (abtstUpdateStreamsStat cfg s)
  obtain ⟨hq, hp⟩ := updateStreamsStat_queues cfg s
  rw [hf]
  subst hg
  exact ⟨fun c => ⟨hq.used c, hp c⟩, hq.loadQ, rfl, fun _ => rfl⟩

def trioNext (g : Global) : Global :=
  settle trioConfig ((rebInPartition sortedPlatform trioConfig 0 0).run g).st

/-- Level 1 settles while nothing overshoots: a run of passes that each make a
rebalance never returns to an assignment, and has at most as many passes as the
potential it starts with. -/
theorem level1_settles {cfg : Config} {n p k : Nat} {pf : Nat → Platform}
    {run : Nat → Global} (hrun : ∀ i < k, LevelOne (pf i) cfg n p (run i) (run (i + 1)))
    (hno : ∀ i < k, NoOvershoot (pf i) cfg n p (run i)) :
    (∀ i j, i < j → j ≤ k → ¬ SameAssignment cfg n p (run i) (run j)) ∧
    k ≤ potential cfg n p (run 0) := by
  have hdown : ∀ d i, i + d ≤ k → potential cfg n p (run (i + d)) + d ≤ potential cfg n p (run i) ∧
      (run (i + d)).group = (run i).group ∧ (run (i + d)).outstanding = (run i).outstanding := by
    intro d
    induction d with
    | zero => exact fun i _ => ⟨Nat.le_refl _, rfl, rfl⟩
    | succ d ih =>
      intro i hi
      rw [show i + (d + 1) = i + d + 1 from rfl]
      obtain ⟨h1, h2, h3⟩ := ih i (by omega)
      have hstep := hrun (i + d) (by omega)
      have hlt := hstep.potential_lt (hno (i + d) (by omega))
      obtain ⟨h4, h5⟩ := hstep.same
      exact ⟨by omega, h4.trans h2, h5.trans h3⟩
  refine ⟨?_, ?_⟩
  · intro i j hij hj hsame
    obtain ⟨h1, h2, h3⟩ := hdown (j - i) i (by omega)
    rw [show i + (j - i) = j by omega] at h1 h2 h3
    have heq := hsame.potential h2 h3
    omega
  · obtain ⟨h1, _, _⟩ := hdown k 0 (by omega)
    omega

def homeStart : Global :=
  settle trioConfig { blank with
    streams := fun c =>
      { rank := c, used := decide (1 ≤ c ∧ c ≤ 3)
        loadQ := if c = 1 then [⟨0, 0⟩, ⟨0, 1⟩] else []
        nrLoads := if c = 1 then 2 else 0 }
    loads := fun l =>
      { pktStarted := if l.index = 0 then 200 else 100, initRank := 1, currRank := 1, destRank := 1 } }

theorem homeStart_levelOne : LevelOne sortedPlatform trioConfig 0 0 homeStart (trioNext homeStart) := by
  refine ⟨⟨⟨?_, ?_⟩, ?_, ?_, ?_⟩, ?_, settle_calm _ _⟩ <;> decide +kernel

theorem homeStart_noOvershoot : NoOvershoot sortedPlatform trioConfig 0 0 homeStart := by
  refine ⟨by decide +kernel, fun first last hext hforeign => ?_⟩
  obtain ⟨params, hsort, _, hl⟩ := hext.sorted
  have hall : ∀ c ∈ homeStart.group (trioConfig.coresOf 0) 0, homeStart.foreign c = [] := by
    decide +kernel
  exact absurd (hall _ ((sortStreams_some hsort).entry_mem hl).1) hforeign

theorem level1_settles_home :
    LevelOne sortedPlatform trioConfig 0 0 homeStart (trioNext homeStart) ∧
    ¬ SameAssignment trioConfig 0 0 homeStart (trioNext homeStart) := by
  refine ⟨homeStart_levelOne, ?_⟩
  have h := @level1_settles trioConfig 0 0 1 (fun _ => sortedPlatform)
    (fun i => if i = 0 then homeStart else trioNext homeStart)
    (fun i hi => by
      obtain rfl : i = 0 := by omega
      exact homeStart_levelOne)
    (fun i hi => by
      obtain rfl : i = 0 := by omega
      exact homeStart_noOvershoot)
  exact h.1 0 1 (by decide) (by decide)

/-- A load of size 300 away from its initial stream 3, which holds a load of size 150. -/
def awayStart : Global :=
  settle trioConfig { blank with
    streams := fun c =>
      { rank := c, used := decide (1 ≤ c ∧ c ≤ 3)
        loadQ := if c = 1 then [⟨0, 0⟩] else if c = 3 then [⟨0, 1⟩] else []
        nrLoads := if c = 1 ∨ c = 3 then 1 else 0 }
    loads := fun l =>
      if l = ⟨0, 0⟩ then { pktStarted := 300, initRank := 3, currRank := 1, destRank := 1 }
      else { pktStarted := 150, initRank := 3, currRank := 3, destRank := 3 } }

theorem awayStart_levelOne : LevelOne sortedPlatform trioConfig 0 0 awayStart (trioNext awayStart) := by
  refine ⟨⟨⟨?_, ?_⟩, ?_, ?_, ?_⟩, ?_, settle_calm _ _⟩ <;> decide +kernel

theorem awayStart_levelOne_next :
    LevelOne sortedPlatform trioConfig 0 0 (trioNext awayStart) (trioNext (trioNext awayStart)) := by
  refine ⟨⟨⟨?_, ?_⟩, ?_, ?_, ?_⟩, ?_, settle_calm _ _⟩ <;> decide +kernel

/-- After two passes the large load is back where it was. -/
theorem level1_returns_to_assignment :
    LevelOne sortedPlatform trioConfig 0 0 awayStart (trioNext awayStart) ∧
    LevelOne sortedPlatform trioConfig 0 0 (trioNext awayStart) (trioNext (trioNext awayStart)) ∧
    SameAssignment trioConfig 0 0 awayStart (trioNext (trioNext awayStart)) :=
  ⟨awayStart_levelOne, awayStart_levelOne_next, by unfold SameAssignment; decide +kernel⟩

end AbtSt
