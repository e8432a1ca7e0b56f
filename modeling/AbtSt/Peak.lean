import AbtSt.Outcome

/-! The deepest stream of a group over one turn of level 1. The turn moves loads
from the deepest stream to the least deep one; it never makes a deeper stream
unless foreign loads or an overflow get past the tests. -/

namespace AbtSt

def maxQdepth (g : Global) (cores : List Nat) : Nat := (cores.map g.qdepth).foldr max 0

theorem maxQdepth_le_iff {g : Global} {cores : List Nat} {k : Nat} :
    maxQdepth g cores ≤ k ↔ ∀ c ∈ cores, g.qdepth c ≤ k := by
  unfold maxQdepth
  induction cores with
  | nil => simp
  | cons c cs ih => simp [ih]

/-- The statistics of the group are those of its streams, whose depths are the
sums of the sizes of their loads. -/
structure FreshGroup (cfg : Config) (n p : Nat) (g : Global) : Prop where
  stat : (g.numaStats p n).Tallies (g.group (cfg.coresOf n) p).length
    (g.depthOf (g.group (cfg.coresOf n) p))
  depth : ∀ c ∈ g.group (cfg.coresOf n) p, g.qdepth c = g.demand c
  bound : ∀ c ∈ g.group (cfg.coresOf n) p, g.demand c < 2 ^ 31
  count : ∀ c ∈ g.group (cfg.coresOf n) p, (g.streams c).nrLoads = (g.streams c).loadQ.length

def groupAverage (n p : Nat) (g : Global) : Nat :=
  (g.numaStats p n).qdepth / (g.numaStats p n).usedCores

/-- The turn gets as far as the tests of `abtst_rebalance_streams`, and these
pass. -/
structure Turns (pf : Platform) (cfg : Config) (n p : Nat) (g : Global) (first last : SortParam) :
    Prop where
  extremes : Extremes pf cfg n p g first last
  gap : ¬ i32 (last.ios - first.ios) < minIosToStartReb
  slept : (g.streams first.stream).sleepNsec ≠ 0
  opens : Opens first last (groupAverage n p g)

/-- The foreign loads of the deepest stream fit below its depth on top of the
least deep one; without foreign loads, some load does not take that stream to
`2^31`. -/
def Harmless (pf : Platform) (cfg : Config) (n p : Nat) (g : Global) : Prop :=
  ∀ first last, Turns pf cfg n p g first last →
    (g.foreign last.stream ≠ [] → first.ios + g.sizeOf (g.foreign last.stream) ≤ last.ios) ∧
    (g.foreign last.stream = [] → ∃ l ∈ (g.streams last.stream).loadQ,
      g.loadSize l ≠ 0 ∧ first.ios + g.loadSize l < 2 ^ 31)

section Turn

variable {pf : Platform} {cfg : Config} {n p : Nat} {g : Global} {first last : SortParam}

theorem rebInPartition_none (h : sortStreams pf cfg g (some n) (some p) = none) :
    ((rebInPartition pf cfg n p).run g).st = g := by
  unfold Prog.run rebInPartition readStats
  simp only [bind_assoc, Prog.exec_act_bind, Prog.exec_read_bind, id_eq, h]
  rfl

theorem rebInPartition_st (h : Extremes pf cfg n p g first last)
    (hused : (g.numaStats p n).usedCores ≠ 0) :
    ((rebInPartition pf cfg n p).run g).st =
      if i32 (last.ios - first.ios) < minIosToStartReb ∨ (g.streams first.stream).sleepNsec = 0 then g
      else match abtstRebalanceStreams g first last (groupAverage n p g) with
        | .ok (some t) => t
        | _ => g := by
  obtain ⟨params, hs, hf, hl⟩ := h.sorted
  unfold Prog.run rebInPartition readStats groupAverage
  simp only [bind_assoc, Prog.exec_act_bind, Prog.exec_read_bind, id_eq, hs, hf, hl,
    Prog.exec_lift_ok_bind]
  by_cases hmin : i32 (last.ios - first.ios) < minIosToStartReb
  · rw [if_pos hmin, if_pos (Or.inl hmin)]
    rfl
  · by_cases hz : (g.streams first.stream).sleepNsec = 0
    · rw [if_neg hmin, if_pos hz, if_pos (Or.inr hz)]
      rfl
    · have hno : ¬ (i32 (last.ios - first.ios) < minIosToStartReb ∨
          (g.streams first.stream).sleepNsec = 0) := by
        rintro (hh | hh)
        · exact hmin hh
        · exact hz hh
      rw [if_neg hmin, if_neg hz, if_neg hno, Platform.div_pos hused, Prog.exec_lift_ok_bind]
      cases hr : abtstRebalanceStreams g first last
          ((g.numaStats p n).qdepth / (g.numaStats p n).usedCores) with
      | error e => rfl
      | ok r =>
        cases r with
        | none => rfl
        | some t => rfl

theorem FreshGroup.used (h : FreshGroup cfg n p g) (hext : Extremes pf cfg n p g first last) :
    (g.numaStats p n).usedCores ≠ 0 := by
  obtain ⟨params, hs, _⟩ := hext.sorted
  have hc := sortStreams_some hs
  have hpos := hc.pos
  rw [hc.length_eq] at hpos
  rw [h.stat.1]
  omega

/-- The two ends of the sorted group have their current depths, and the last one
is the deepest. -/
theorem FreshGroup.ends (hv : cfg.Valid) (h : FreshGroup cfg n p g)
    (hext : Extremes pf cfg n p g first last)
    (hgap : ¬ i32 (last.ios - first.ios) < minIosToStartReb) :
    DepthInput g first last ∧ first.stream ∈ g.group (cfg.coresOf n) p ∧
      last.stream ∈ g.group (cfg.coresOf n) p ∧
      ∀ c ∈ g.group (cfg.coresOf n) p, (g.qdepth c : Int) ≤ last.ios := by
  obtain ⟨params, hs, hf, hl⟩ := hext.sorted
  have hc := sortStreams_some hs
  have hne := (hc.ends hl hf (index_ne hf hl hgap)).1.ne
  have hios : ∀ c ∈ g.group (cfg.coresOf n) p, i32 (g.qdepth c) = g.qdepth c := by
    intro c hc
    have := h.bound c hc
    rw [h.depth c hc]
    exact i32_of_lt (by omega) (by omega)
  obtain ⟨hfm, hfi⟩ := hc.entry_mem hf
  obtain ⟨hlm, hli⟩ := hc.entry_mem hl
  rw [hios _ hfm] at hfi
  rw [hios _ hlm] at hli
  have hfb := h.bound _ hfm
  have hlb := h.bound _ hlm
  rw [← h.depth _ hfm] at hfb
  rw [← h.depth _ hlm] at hlb
  refine ⟨⟨hne, h.count _ hlm, by rw [hfi, h.depth _ hfm], by rw [hli, h.depth _ hlm],
    by omega, by omega⟩, hfm, hlm, ?_⟩
  intro c hcm
  have hused : (g.numaStats p n).usedCores = params.length := by rw [h.stat.1, hc.length_eq]
  rw [hused, hc.last_index hv] at hl
  have hmem : (⟨i32 (g.qdepth c), c⟩ : SortParam) ∈ params :=
    hc.perm.mem_iff.mpr (List.mem_map.mpr ⟨c, hcm, rfl⟩)
  have hle := hc.le_last hl hmem
  rw [hios c hcm] at hle
  exact hle

/-- What a call on the two ends leaves is no deeper than before exactly if the
target is not. -/
theorem maxQdepth_moved_le {t : Global} {ms : List LoadId} (hin : DepthInput g first last)
    (hfm : first.stream ∈ g.group (cfg.coresOf n) p) (hlm : last.stream ∈ g.group (cfg.coresOf n) p)
    (hmax : ∀ c ∈ g.group (cfg.coresOf n) p, (g.qdepth c : Int) ≤ last.ios)
    (hlast : (g.qdepth last.stream : Int) = last.ios)
    (ht : t = g.moved last.stream first.stream ms (t.qdepth last.stream) (t.qdepth first.stream))
    (hsrc : (t.qdepth last.stream : Int) ≤ last.ios) :
    maxQdepth t (t.group (cfg.coresOf n) p) ≤ maxQdepth g (g.group (cfg.coresOf n) p) ↔
      (t.qdepth first.stream : Int) ≤ last.ios := by
  have hgroup : t.group = g.group := by
    rw [ht]
    exact (moved_sameShape g ms _ _ hin.ne).group
  have hother : ∀ c, c ≠ last.stream → c ≠ first.stream → t.qdepth c = g.qdepth c := by
    intro c hcl hcf
    rw [ht]
    unfold Global.qdepth
    rw [moved_other g ms _ _ hcl hcf]
  have hbefore : (maxQdepth g (g.group (cfg.coresOf n) p) : Int) = last.ios := by
    have hle : maxQdepth g (g.group (cfg.coresOf n) p) ≤ g.qdepth last.stream :=
      maxQdepth_le_iff.mpr (fun c hc => by have := hmax c hc; omega)
    have hge := maxQdepth_le_iff.mp (Nat.le_refl (maxQdepth g (g.group (cfg.coresOf n) p))) _ hlm
    omega
  rw [hgroup, maxQdepth_le_iff]
  constructor
  · intro hall
    have := hall _ hfm
    omega
  · intro hdst c hc
    by_cases hcf : c = first.stream
    · subst hcf
      omega
    · by_cases hcl : c = last.stream
      · subst hcl
        omega
      · have := hmax c hc
        rw [hother c hcl hcf]
        omega

theorem FreshGroup.extremes (hv : cfg.Valid) (h : FreshGroup cfg n p g) {params : List SortParam}
    (hs : sortStreams pf cfg g (some n) (some p) = some params) :
    ∃ first last, Extremes pf cfg n p g first last := by
  have hc := sortStreams_some hs
  have hpos := hc.pos
  have hused : (g.numaStats p n).usedCores = params.length := by rw [h.stat.1, hc.length_eq]
  refine ⟨params[0], params[params.length - 1], params, hs, entry_of_lt hpos, ?_⟩
  rw [hused, hc.last_index hv]
  exact entry_of_lt (by omega)

theorem Turns.st (h : FreshGroup cfg n p g) (ht : Turns pf cfg n p g first last) :
    ((rebInPartition pf cfg n p).run g).st =
      match abtstRebalanceStreams g first last (groupAverage n p g) with
      | .ok (some t) => t
      | _ => g := by
  rw [rebInPartition_st ht.extremes (h.used ht.extremes), if_neg]
  rintro (hh | hh)
  · exact ht.gap hh
  · exact ht.slept hh

theorem FreshGroup.still (hv : cfg.Valid) (h : FreshGroup cfg n p g)
    (hno : ∀ first last, ¬ Turns pf cfg n p g first last) :
    ((rebInPartition pf cfg n p).run g).st = g := by
  cases hs : sortStreams pf cfg g (some n) (some p) with
  | none => exact rebInPartition_none hs
  | some params =>
    obtain ⟨first, last, hext⟩ := h.extremes hv hs
    rw [rebInPartition_st hext (h.used hext)]
    split_ifs with hgo
    · rfl
    · rw [not_or] at hgo
      have hin := (h.ends hv hext hgo.1).1
      rw [hin.no_result (fun hrun => hno first last ⟨hext, hgo.1, hgo.2, hrun.1⟩)]

/-- A turn raises the peak exactly if what it picks does not fit. -/
theorem Turns.peak_iff (hv : cfg.Valid) (h : FreshGroup cfg n p g)
    (ht : Turns pf cfg n p g first last) :
    maxQdepth ((rebInPartition pf cfg n p).run g).st
        (((rebInPartition pf cfg n p).run g).st.group (cfg.coresOf n) p) ≤
      maxQdepth g (g.group (cfg.coresOf n) p) ↔
    ((pickLoads g first last (groupAverage n p g)).mloads ≠ [] →
      first.ios + g.sizeOf (pickLoads g first last (groupAverage n p g)).mloads ≤ last.ios) := by
  obtain ⟨hin, hfm, hlm, hmax⟩ := h.ends hv ht.extremes ht.gap
  have hlast : (g.qdepth last.stream : Int) = last.ios := by rw [hin.last, h.depth _ hlm]
  rw [ht.st h]
  by_cases hm : (pickLoads g first last (groupAverage n p g)).mloads = []
  · rw [hin.no_result (fun hrun => hrun.2 hm)]
    exact ⟨fun _ hne => absurd hm hne, fun _ => Nat.le_refl _⟩
  · obtain ⟨t, hr, hmoved, hdst, hsrc⟩ := hin.result ht.opens hm
    obtain ⟨hsum, _⟩ := hin.sublist (pickLoads_sublist g first last (groupAverage n p g))
    rw [hr, maxQdepth_moved_le hin hfm hlm hmax hlast hmoved (by omega), hdst]
    exact ⟨fun hle _ => hle, fun hle => hle hm⟩

theorem DepthInput.picked_le_iff (hin : DepthInput g first last) {avg : Nat}
    (ho : Opens first last avg) :
    ((pickLoads g first last avg).mloads ≠ [] →
      first.ios + g.sizeOf (pickLoads g first last avg).mloads ≤ last.ios) ↔
    (g.foreign last.stream ≠ [] → first.ios + g.sizeOf (g.foreign last.stream) ≤ last.ios) ∧
    (g.foreign last.stream = [] → ∃ l ∈ (g.streams last.stream).loadQ,
      g.loadSize l ≠ 0 ∧ first.ios + g.loadSize l < 2 ^ 31) := by
  by_cases hf : g.foreign last.stream = []
  · refine ⟨fun hpicked => ⟨fun hne => absurd hf hne, fun _ => ?_⟩, fun hh hm => ?_⟩
    · by_contra hbig
      obtain ⟨hm, hlarge⟩ := hin.overflow ho hf hbig
      have := hpicked hm
      omega
    · exact Int.le_of_lt (hin.picked_lt ho hf hm (hh.2 hf))
  · rw [pickLoads_foreign_mloads first avg hf]
    exact ⟨fun hpicked => ⟨hpicked, fun he => absurd he hf⟩, fun hh => hh.1⟩

end Turn

/-- A turn of level 1 leaves no stream of the group deeper than the deepest one
was exactly if it is harmless. -/
theorem level1_peak_iff {cfg : Config} (hv : cfg.Valid) (pf : Platform) {n p : Nat} {g : Global}
    (h : FreshGroup cfg n p g) :
    maxQdepth ((rebInPartition pf cfg n p).run g).st
        (((rebInPartition pf cfg n p).run g).st.group (cfg.coresOf n) p) ≤
      maxQdepth g (g.group (cfg.coresOf n) p) ↔ Harmless pf cfg n p g := by
  constructor
  · intro hle first last ht
    have hin := (h.ends hv ht.extremes ht.gap).1
    exact (hin.picked_le_iff ht.opens).mp ((ht.peak_iff hv h).mp hle)
  · intro hh
    by_cases hturn : ∃ first last, Turns pf cfg n p g first last
    · obtain ⟨first, last, ht⟩ := hturn
      have hin := (h.ends hv ht.extremes ht.gap).1
      exact (ht.peak_iff hv h).mpr ((hin.picked_le_iff ht.opens).mpr (hh first last ht))
    · rw [h.still hv (fun first last ht => hturn ⟨first, last, ht⟩)]

/-- The turn moves the load of size 100 away from the deepest stream. -/
theorem level1_peak_iff_home : FreshGroup trioConfig 0 0 homeStart ∧
    Harmless sortedPlatform trioConfig 0 0 homeStart ∧ maxQdepth homeStart [1, 2, 3] = 300 ∧
    maxQdepth ((rebInPartition sortedPlatform trioConfig 0 0).run homeStart).st [1, 2, 3] = 200 := by
  have hfresh : FreshGroup trioConfig 0 0 homeStart := by
    refine ⟨⟨?_, ?_⟩, ?_, ?_, ?_⟩ <;> decide +kernel
  exact ⟨hfresh, (level1_peak_iff trioConfig_valid sortedPlatform hfresh).mp (by decide +kernel),
    by decide +kernel, by decide +kernel⟩

/-- Two streams with fresh statistics. -/
def pairStart (size1 size2 curr : Nat) : Global :=
  abtstUpdatePartitionStats trioConfig
    (abtstUpdateStreamsStat trioConfig (twoLoads size1 size2 curr))

/-- The only load of the deepest stream is foreign and moves on top of the other
one, whose stream is then deeper than any was. -/
theorem foreign_load_raises_peak : FreshGroup trioConfig 0 0 (pairStart 10 200 1) ∧
    maxQdepth (pairStart 10 200 1) ((pairStart 10 200 1).group (trioConfig.coresOf 0) 0) = 200 ∧
    maxQdepth ((rebInPartition sortedPlatform trioConfig 0 0).run (pairStart 10 200 1)).st
      (((rebInPartition sortedPlatform trioConfig 0 0).run (pairStart 10 200 1)).st.group
        (trioConfig.coresOf 0) 0) = 210 := by
  refine ⟨⟨⟨?_, ?_⟩, ?_, ?_, ?_⟩, ?_, ?_⟩ <;> decide +kernel

end AbtSt
