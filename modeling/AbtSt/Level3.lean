import AbtSt.Depth

/-! Level 3. The budget of `reb_between_numas` is the smaller of the deficit of
the target node and half the surplus of one partition, so that neither node
crosses the average of the system and the partition keeps its order. -/

namespace AbtSt

theorem foldl_averages (g : Global) (ns : List Nat) {t : Nat × Nat} (ht : t.1 < 2 ^ 32) :
    ∃ q ≤ t.2 + (ns.map fun n => (g.numaStat n).avgQdepth * (g.numaStat n).usedCores).sum,
      ns.foldl (fun t i =>
        let s := g.numaStat i
        if s.usedCores = 0 then t
        else ((t.1 + s.usedCores) % 2 ^ 32, (t.2 + s.avgQdepth * s.usedCores) % 2 ^ 32)) t =
          ((t.1 + (ns.map fun n => (g.numaStat n).usedCores).sum) % 2 ^ 32, q) := by
  induction ns generalizing t with
  | nil =>
    refine ⟨t.2, by simp, ?_⟩
    rw [List.map_nil, List.sum_nil, Nat.add_zero, Nat.mod_eq_of_lt ht]
    rfl
  | cons n ns ih =>
    simp only [List.foldl_cons, List.map_cons, List.sum_cons]
    by_cases hz : (g.numaStat n).usedCores = 0
    · rw [if_pos hz, hz]
      simpa using ih ht
    · rw [if_neg hz]
      obtain ⟨q, hq, h⟩ := ih (t := ((t.1 + (g.numaStat n).usedCores) % 2 ^ 32,
        (t.2 + (g.numaStat n).avgQdepth * (g.numaStat n).usedCores) % 2 ^ 32))
        (Nat.mod_lt _ (by decide))
      have hmod := Nat.mod_le (t.2 + (g.numaStat n).avgQdepth * (g.numaStat n).usedCores) (2 ^ 32)
      refine ⟨q, by dsimp only at hq; omega, h.trans ?_⟩
      rw [Nat.mod_add_mod, Nat.add_assoc]

/-- All the used cores of the nodes, as counted by the statistics. -/
def Global.countedCores (g : Global) (cfg : Config) : Nat :=
  ((List.range cfg.nrNumas).map fun n => (g.numaStat n).usedCores).sum

theorem averageQdepth_mul_le {cfg : Config} {g : Global} (hsum : g.countedCores cfg < 2 ^ 32) :
    abtstGetAverageQdepth cfg g * g.countedCores cfg ≤
      ((List.range cfg.nrNumas).map fun n =>
        (g.numaStat n).avgQdepth * (g.numaStat n).usedCores).sum := by
  obtain ⟨q, hq, h⟩ := foldl_averages g (List.range cfg.nrNumas) (t := (0, 0)) (by decide)
  unfold Global.countedCores at hsum ⊢
  rw [Nat.zero_add] at hq h
  rw [Nat.mod_eq_of_lt hsum] at h
  unfold abtstGetAverageQdepth
  rw [h]
  dsimp only
  split_ifs with hz
  · simp
  · exact Nat.le_trans (Nat.div_mul_le_self _ _) hq

theorem averageQdepth_unused {cfg : Config} {g : Global} (hz : g.countedCores cfg = 0) :
    abtstGetAverageQdepth cfg g = 0 := by
  obtain ⟨q, -, h⟩ := foldl_averages g (List.range cfg.nrNumas) (t := (0, 0)) (by decide)
  unfold Global.countedCores at hz
  unfold abtstGetAverageQdepth
  rw [h, hz]
  rfl

/-- The nodes do not share cores, so that no core is counted twice. -/
theorem Fresh.countedCores_lt {cfg : Config} (hv : cfg.Valid) {g : Global} (h : Fresh cfg g) :
    g.countedCores cfg < 2 ^ 32 := by
  have hcount : g.countedCores cfg =
      ((List.range cfg.nrNumas).flatMap fun n => g.usedIn (cfg.coresOf n)).length := by
    rw [List.length_flatMap]
    unfold Global.countedCores
    congr 1
    exact List.map_congr_left (fun n hn => (h.numas n hn).1)
  have hsub : ((List.range cfg.nrNumas).flatMap fun n => g.usedIn (cfg.coresOf n)) ⊆
      List.range cfg.nrCores := by
    intro c hc
    obtain ⟨n, hn, hc⟩ := List.mem_flatMap.mp hc
    exact List.mem_range.mpr (hv.core_lt (List.mem_range.mp hn) (Global.mem_usedIn.mp hc).1)
  have hle := ((usedIn_flatMap_nodup hv (fun n => List.Sublist.refl _)).subperm hsub).length_le
  rw [List.length_range] at hle
  have := hv.nrCores_lt
  omega

theorem Fresh.avg_mul_le {cfg : Config} {g : Global} (h : Fresh cfg g) {n : Nat} (hn : n < cfg.nrNumas) :
    (g.numaStat n).avgQdepth * (g.numaStat n).usedCores ≤ g.depthOf (g.usedIn (cfg.coresOf n)) := by
  obtain ⟨hu, hq⟩ := h.numas n (List.mem_range.mpr hn)
  by_cases hne : g.usedIn (cfg.coresOf n) = []
  · rw [hu, hne]
    simp
  · rw [hu, hq hne]
    exact Nat.le_trans (Nat.div_mul_le_self _ _) (Nat.mod_le _ _)

/-- The average of the system, taken over the cores of one node, is no more
than all the work there is. -/
theorem averageQdepth_le_total {cfg : Config} (hv : cfg.Valid) {g : Global} (h : Fresh cfg g)
    (he : Exact cfg g) {n : Nat} (hn : n < cfg.nrNumas) :
    abtstGetAverageQdepth cfg g * (g.numaStat n).usedCores ≤ g.total cfg := by
  have hone : (g.numaStat n).usedCores ≤ g.countedCores cfg :=
    List.single_le_sum (by simp) _ (List.mem_map.mpr ⟨n, List.mem_range.mpr hn, rfl⟩)
  have hsum : ((List.range cfg.nrNumas).map fun n =>
      (g.numaStat n).avgQdepth * (g.numaStat n).usedCores).sum ≤
      ((List.range cfg.nrNumas).map fun n => g.depthOf (g.usedIn (cfg.coresOf n))).sum :=
    List.sum_le_sum (fun n hn => h.avg_mul_le (List.mem_range.mp hn))
  calc abtstGetAverageQdepth cfg g * (g.numaStat n).usedCores
      ≤ abtstGetAverageQdepth cfg g * g.countedCores cfg := Nat.mul_le_mul_left _ hone
    _ ≤ ((List.range cfg.nrNumas).map fun n =>
          (g.numaStat n).avgQdepth * (g.numaStat n).usedCores).sum :=
        averageQdepth_mul_le (h.countedCores_lt hv)
    _ ≤ ((List.range cfg.nrNumas).map fun n => g.depthOf (g.usedIn (cfg.coresOf n))).sum := hsum
    _ ≤ g.total cfg := he.sum_numas_le hv (fun n => List.Sublist.refl _)

/-- The two nodes of level 3, with the tests that chose them. -/
structure Chosen (cfg : Config) (g : Global) (avg src dst : Nat) : Prop where
  src_lt : src < cfg.nrNumas
  dst_lt : dst < cfg.nrNumas
  ne : src ≠ dst
  used_src : g.usedIn (cfg.coresOf src) ≠ []
  used_dst : g.usedIn (cfg.coresOf dst) ≠ []
  below : (g.numaStat dst).avgQdepth < avg
  above : 2 * avg ≤ (g.numaStat src).avgQdepth
  room : avg * (g.numaStat dst).usedCores < 2 ^ 31

theorem chooseNumas_chosen {cfg : Config} (hv : cfg.Valid) {pf : Platform} {g : Global}
    (h : Fresh cfg g) (he : Exact cfg g) {src dst : Nat}
    (hc : chooseNumas g (abtstGetAverageQdepth cfg g) (sortNumas pf cfg g true true) =
      some (src, dst)) : Chosen cfg g (abtstGetAverageQdepth cfg g) src dst := by
  obtain ⟨i, e, e', hi, rfl, he', rfl, ⟨hdst, hbelow⟩, hsrc, habove⟩ := chooseNumas_some hc
  have hne := stream_ne_of_nodup (sortNumas_nodup pf cfg g true true) hi he'
  have hlt := (sortNumas_mem (List.mem_of_getElem? hi)).1
  have hlt' := (sortNumas_mem (List.mem_of_mem_drop he')).1
  have hused : ∀ n < cfg.nrNumas, 0 < (g.numaStat n).usedCores → g.usedIn (cfg.coresOf n) ≠ [] := by
    intro n hn hpos
    rw [(h.numas n (List.mem_range.mpr hn)).1] at hpos
    exact List.ne_nil_of_length_pos hpos
  have hroom := Nat.lt_of_le_of_lt (averageQdepth_le_total hv h he hlt) he.bounded
  have hsmall := Nat.le_mul_of_pos_right (abtstGetAverageQdepth cfg g) hdst
  have hdouble := u32_of_lt (n := 2 * abtstGetAverageQdepth cfg g) (by omega)
  push_cast at hdouble
  rw [hdouble] at habove
  exact ⟨hlt', hlt, fun hs => hne hs.symm, hused _ hlt' hsrc, hused _ hlt hdst, hbelow, habove, hroom⟩

theorem chooseMaxDiff_some {g : Global} {src dst p : Nat} {ps : List Nat}
    (h : (chooseMaxDiff g src dst ps).1 = some p) :
    (g.numaStats p dst).qdepth < (g.numaStats p src).qdepth ∧
    (chooseMaxDiff g src dst ps).2 = i32 ((g.numaStats p src).qdepth - (g.numaStats p dst).qdepth) := by
  -- the fold keeps the difference of the partition it holds
  refine List.foldlRecOn (motive := fun t : Option Nat × Int => ∀ p, t.1 = some p →
    (g.numaStats p dst).qdepth < (g.numaStats p src).qdepth ∧
    t.2 = i32 ((g.numaStats p src).qdepth - (g.numaStats p dst).qdepth)) ps _ (by simp) ?_ p h
  intro t ht i _
  dsimp only
  split_ifs with h1 h2 h3 h4
  · exact ht
  · exact ht
  · exact ht
  · intro p hp
    obtain rfl : i = p := Option.some.inj hp
    exact ⟨Nat.lt_of_not_le h3, rfl⟩
  · exact ht

theorem div_add_le {d u avg m : Nat} (hu : 0 < u) (hm : m ≤ (avg - d / u) * u) (h : d / u ≤ avg) :
    (d + m) / u ≤ avg := by
  have hlt : d < (d / u + 1) * u := Nat.lt_mul_of_div_lt (Nat.lt_succ_self _) hu
  have hsum : (d / u + 1) * u + (avg - d / u) * u = (avg + 1) * u := by
    rw [← Nat.add_mul]
    congr 1
    omega
  apply Nat.le_of_lt_add_one
  rw [Nat.div_lt_iff_lt_mul hu]
  omega

theorem le_sub_div {d u avg m : Nat} (hu : 0 < u) (h : 2 * avg ≤ d / u) (hm : 2 * m ≤ d) :
    avg ≤ (d - m) / u := by
  have hmul : 2 * avg * u ≤ d := Nat.le_trans (Nat.mul_le_mul_right u h) (Nat.div_mul_le_self d u)
  rw [Nat.mul_assoc] at hmul
  rw [Nat.le_div_iff_mul_le hu]
  omega

/-- From `g` to `s` the streams of `srcs` gave up a depth of `m` to the stream
`dst`, and nothing else happened to the streams. -/
structure Shifted (g : Global) (srcs : List Nat) (dst m : Nat) (s : Global) : Prop where
  used : ∀ c, (s.streams c).used = (g.streams c).used
  partId : ∀ c, (s.streams c).partId = (g.streams c).partId
  other : ∀ c, c ∉ srcs → c ≠ dst → s.streams c = g.streams c
  left : ∀ cores : List Nat, cores.Nodup → srcs ⊆ cores → dst ∉ cores →
    s.depthOf cores + m = g.depthOf cores
  gained : ∀ cores : List Nat, cores.Nodup → dst ∈ cores → cores.Disjoint srcs →
    s.depthOf cores = g.depthOf cores + m
  fits : Overfull s → Overfull g

namespace Shifted

variable {g s : Global} {srcs : List Nat} {dst m : Nat}

theorem refl (g : Global) (srcs : List Nat) (dst : Nat) : Shifted g srcs dst 0 g :=
  ⟨fun _ => rfl, fun _ => rfl, fun _ _ _ => rfl, fun _ _ _ _ => rfl, fun _ _ _ _ => rfl, id⟩

theorem of_streams (h : Shifted g srcs dst m s) {t : Global} (ht : t.streams = s.streams) :
    Shifted g srcs dst m t := by
  obtain ⟨h1, h2, h3, h4, h5, h6⟩ := h
  rw [← Global.depthOf_eq ht] at h4 h5
  unfold Overfull at h6
  rw [← ht] at h1 h2 h3 h6
  exact ⟨h1, h2, h3, h4, h5, h6⟩

theorem group (h : Shifted g srcs dst m s) : s.group = g.group :=
  Global.group_congr h.used h.partId

theorem usedIn (h : Shifted g srcs dst m s) : s.usedIn = g.usedIn :=
  Global.usedIn_congr h.used

theorem qdepth_le (h : Shifted g srcs dst m s) (hnd : srcs.Nodup) (hd : dst ∉ srcs) {c : Nat}
    (hc : c ∈ srcs) : s.qdepth c + s.qdepth dst ≤ g.depthOf srcs + g.qdepth dst := by
  have h1 := h.left srcs hnd (List.Subset.refl _) hd
  have h2 := h.gained [dst] (by simp) (by simp) (by simpa using hd)
  have h3 : s.qdepth c ≤ s.depthOf srcs := List.single_le_sum (by simp) _ (List.mem_map_of_mem hc)
  simp only [Global.depthOf, List.map_cons, List.map_nil, List.sum_cons, List.sum_nil] at h1 h2 h3 ⊢
  omega

theorem moved (h : Shifted g srcs dst m s) (hd : dst ∉ srcs) {c : Nat}
    (hc : c ∈ srcs) : Shifted g srcs dst (m + s.qdepth c)
      (s.moved c dst (s.streams c).loadQ 0 (s.qdepth c + s.qdepth dst)) := by
  have hne : c ≠ dst := fun he => hd (he ▸ hc)
  have hshape := moved_sameShape s (s.streams c).loadQ 0 (s.qdepth c + s.qdepth dst) hne
  refine ⟨fun x => (hshape.used x).trans (h.used x), fun x => (hshape.partId x).trans (h.partId x),
    ?_, ?_, ?_, ?_⟩
  · intro x hx hxd
    have hxc : x ≠ c := fun he => hx (he ▸ hc)
    rw [moved_other s _ _ _ hxc hxd, h.other x hx hxd]
  · intro cores hn hsub hdc
    have h1 := depthOf_moved_src (g := s) (a := 0) (b := s.qdepth c + s.qdepth dst)
      (s.streams c).loadQ hne hn (hsub hc) hdc
    have h2 := h.left cores hn hsub hdc
    omega
  · intro cores hn hdc hdis
    have h1 := depthOf_moved_dst (g := s) (a := 0) (b := s.qdepth c + s.qdepth dst)
      (s.streams c).loadQ hne hn (fun hcc => hdis hcc hc) hdc
    have h2 := h.gained cores hn hdc hdis
    omega
  · exact fun ho => h.fits (moved_fits hne ho)

theorem combine (h : Shifted g srcs dst m s) (hnd : srcs.Nodup) (hd : dst ∉ srcs) {c : Nat}
    (hc : c ∈ srcs) (hb : g.depthOf srcs + g.qdepth dst < 2 ^ 32) {t : Global}
    (ht : abtstCombineStreams s c dst = .ok t) :
    ∃ k ≤ m + s.qdepth c, Shifted g srcs dst k t := by
  have hne : c ≠ dst := fun he => hd (he ▸ hc)
  have hlt := Nat.lt_of_le_of_lt (h.qdepth_le hnd hd hc) hb
  rcases abtstCombineStreams_ok hne ht with ⟨_, rfl⟩ | ⟨_, _, rfl⟩
  · exact ⟨m, Nat.le_add_right _ _, h⟩
  · have hu : u32 (s.qdepth c + s.qdepth dst) = s.qdepth c + s.qdepth dst := by
      exact_mod_cast u32_of_lt hlt
    rw [hu]
    exact ⟨_, Nat.le_refl _, h.moved hd hc⟩

end Shifted

/-- Any action may be logged: what level 3 does to the streams is read off its
last state. -/
def AnyAct (_ : Act) (_ _ : Global) : Prop := True

theorem migrateStreams_shifts {g : Global} {srcs : List Nat} {dst : Nat} {params : List SortParam}
    (hp : ∀ e ∈ params, e.stream ∈ srcs) (hnd : srcs.Nodup) (hd : dst ∉ srcs)
    (hb : g.depthOf srcs + g.qdepth dst < 2 ^ 31) (budget : Nat) (hbudget : budget < 2 ^ 31)
    {is : List Nat} (his : ∀ i ∈ is, i < params.length) (count : Int)
    (hcount : count ≤ budget) :
    Follows AnyAct (fun s => ∃ m : Nat, (m : Int) ≤ count ∧ Shifted g srcs dst m s)
      (migrateStreams dst budget params is count)
      (fun _ s => ∃ m ≤ budget, Shifted g srcs dst m s) (fun e _ => e = .overrun ∧ Overfull g) := by
  induction is generalizing count with
  | nil =>
    refine .pure ?_
    rintro s ⟨m, hm, hs⟩
    exact ⟨m, by omega, hs⟩
  | cons i is ih =>
    have ih' := ih (fun j hj => his j (by simp [hj]))
    rw [migrateStreams, entry_of_lt (his i (by simp))]
    refine .lift_bind (fun _ h => by cases h) (fun e hi => ?_)
    have hmem := hp e (Except.ok.inj hi ▸ List.getElem_mem _)
    refine .read_bind (fun s hs => ?_)
    split_ifs with hz hover
    · exact (ih' count hcount).pre (fun t ht => ht ▸ hs)
    · exact (ih' count hcount).pre (fun t ht => ht ▸ hs)
    · -- the sum is below `2^32`, so the test saw it as it is
      obtain ⟨m, hm, hs⟩ := hs
      have hle := hs.qdepth_le hnd hd hmem
      have hsum : count + s.qdepth e.stream ≤ budget := by
        have := cast_u32 (count + s.qdepth e.stream)
        omega
      have hexact : i32 (count + s.qdepth e.stream) = count + s.qdepth e.stream :=
        i32_of_lt (by omega) (by omega)
      rw [hexact]
      refine .bind (.perform ?_ ?_) (fun _ => ih' _ hsum)
      · rintro t u rfl hu
        obtain ⟨k, hk, hu⟩ := hs.combine hnd hd hmem (by omega) hu
        exact ⟨trivial, k, by omega, hu⟩
      · rintro t e rfl he
        obtain ⟨rfl, hfull⟩ := abtstCombineStreams_error he
        exact ⟨rfl, hs.fits hfull⟩

/-- What level 3 leaves behind when it moved work from the node `src` to the
node `dst` with the average `avg`. -/
structure Levelled (cfg : Config) (g : Global) (avg src dst : Nat) (t : Global) : Prop where
  fresh : Fresh cfg t
  target : (t.numaStat dst).avgQdepth ≤ avg
  source : avg ≤ (t.numaStat src).avgQdepth
  partition : ∀ p, (chooseMaxDiff g src dst (List.range cfg.nrPartitions)).1 = some p →
    t.depthOf (t.group (cfg.coresOf dst) p) ≤ t.depthOf (t.group (cfg.coresOf src) p)
  others : ∀ c, c ∉ cfg.coresOf src → c ∉ cfg.coresOf dst → t.streams c = g.streams c

section Level3

variable {pf : Platform} {cfg : Config} {g t : Global} {avg src dst : Nat}

theorem Chosen.not_mem_src (hv : cfg.Valid) (hc : Chosen cfg g avg src dst) {c : Nat}
    (hm : c ∈ cfg.coresOf dst) : c ∉ cfg.coresOf src :=
  fun hs => hc.ne (hv.numa_unique hc.src_lt hc.dst_lt hs hm)

theorem Chosen.both_lt (hv : cfg.Valid) (hc : Chosen cfg g avg src dst) (he : Exact cfg g) {p c : Nat}
    (hm : c ∈ g.group (cfg.coresOf dst) p) : c ∉ g.group (cfg.coresOf src) p ∧
      g.depthOf (g.group (cfg.coresOf src) p) + g.qdepth c < 2 ^ 31 := by
  have hnot : c ∉ g.group (cfg.coresOf src) p := fun hx =>
    hc.not_mem_src hv (Global.mem_group.mp hm).1 (Global.mem_group.mp hx).1
  have hle := he.depthOf_le (List.nodup_cons.mpr ⟨hnot, g.group_nodup cfg src p⟩)
    (List.cons_subset.mpr ⟨group_subset hv g hc.dst_lt p hm, group_subset hv g hc.src_lt p⟩)
  have hlt := he.bounded
  rw [Global.depthOf_cons] at hle
  exact ⟨hnot, by omega⟩

theorem Levelled.unmoved (hv : cfg.Valid) (h : Fresh cfg g) (he : Exact cfg g)
    (hc : Chosen cfg g avg src dst) : Levelled cfg g avg src dst g := by
  refine ⟨h, Nat.le_of_lt hc.below, ?_, ?_, fun _ _ _ => rfl⟩
  · have := hc.above
    omega
  · intro p hp
    have hlt := (chooseMaxDiff_some hp).1
    rw [h.numaStats_eq hv he hc.dst_lt, h.numaStats_eq hv he hc.src_lt] at hlt
    exact Nat.le_of_lt hlt

/-- Moving no more than the target node lacks, and no more than half of what the
partition has too much, levels the nodes. -/
theorem Shifted.levelled (hv : cfg.Valid) (h : Fresh cfg g) (he : Exact cfg g)
    (hc : Chosen cfg g avg src dst) {p c m : Nat}
    (hp : (chooseMaxDiff g src dst (List.range cfg.nrPartitions)).1 = some p)
    (hm : c ∈ g.group (cfg.coresOf dst) p) (hs : Shifted g (g.group (cfg.coresOf src) p) c m t)
    (hroom : m ≤ (avg - (g.numaStat dst).avgQdepth) * (g.numaStat dst).usedCores)
    (hhalf : g.depthOf (g.group (cfg.coresOf dst) p) + 2 * m ≤ g.depthOf (g.group (cfg.coresOf src) p))
    (ht : Fresh cfg t) : Levelled cfg g avg src dst t := by
  have hmem := Global.mem_group.mp hm
  have hnot := hc.not_mem_src hv hmem.1
  have hdis : ∀ cores ⊆ cfg.coresOf dst, cores.Disjoint (g.group (cfg.coresOf src) p) := by
    intro cores hsub x hx hx'
    exact hc.not_mem_src hv (hsub hx) (Global.mem_group.mp hx').1
  refine ⟨ht, ?_, ?_, ?_, ?_⟩
  · have hgain := hs.gained _ (g.usedIn_nodup cfg dst) (Global.mem_usedIn.mpr ⟨hmem.1, hmem.2.1⟩)
      (hdis _ (fun x hx => (Global.mem_usedIn.mp hx).1))
    have havg := (ht.numas dst (List.mem_range.mpr hc.dst_lt)).2
    rw [hs.usedIn] at havg
    have hbelow := hc.below
    rw [h.numaStat_eq hv he hc.dst_lt hc.used_dst] at hroom hbelow
    rw [havg hc.used_dst, hgain]
    calc (g.depthOf (g.usedIn (cfg.coresOf dst)) + m) % 2 ^ 32 / (g.usedIn (cfg.coresOf dst)).length
        ≤ (g.depthOf (g.usedIn (cfg.coresOf dst)) + m) / (g.usedIn (cfg.coresOf dst)).length :=
          Nat.div_le_div_right (Nat.mod_le _ _)
      _ ≤ avg := div_add_le (List.length_pos_of_ne_nil hc.used_dst) hroom (Nat.le_of_lt hbelow)
  · have hleft := hs.left _ (g.usedIn_nodup cfg src) (g.group_sublist (cfg.coresOf src) p).subset
      (fun hx => hnot (Global.mem_usedIn.mp hx).1)
    have hlt := he.depthOf_lt (g.usedIn_nodup cfg src) (usedIn_subset hv g hc.src_lt)
    have hpart : g.depthOf (g.group (cfg.coresOf src) p) ≤ g.depthOf (g.usedIn (cfg.coresOf src)) :=
      ((g.group_sublist (cfg.coresOf src) p).map g.qdepth).sum_le_sum (by simp)
    have havg := (ht.numas src (List.mem_range.mpr hc.src_lt)).2
    rw [hs.usedIn] at havg
    have habove := hc.above
    rw [h.numaStat_eq hv he hc.src_lt hc.used_src] at habove
    have heq : t.depthOf (g.usedIn (cfg.coresOf src)) % 2 ^ 32 =
        g.depthOf (g.usedIn (cfg.coresOf src)) - m := by omega
    rw [havg hc.used_src, heq]
    exact le_sub_div (List.length_pos_of_ne_nil hc.used_src) habove (by omega)
  · intro q hq
    obtain rfl : p = q := Option.some.inj (hp.symm.trans hq)
    have hleft := hs.left _ (g.group_nodup cfg src p) (List.Subset.refl _)
      (fun hx => hnot (Global.mem_group.mp hx).1)
    have hgain := hs.gained _ (g.group_nodup cfg dst p) hm
      (hdis _ (fun x hx => (Global.mem_group.mp hx).1))
    rw [hs.group]
    omega
  · intro x hxs hxd
    apply hs.other
    · exact fun hx => hxs (Global.mem_group.mp hx).1
    · exact fun hx => hxd (hx ▸ hmem.1)

theorem budget_eq (hv : cfg.Valid) (h : Fresh cfg g) (he : Exact cfg g)
    (hc : Chosen cfg g avg src dst) {p : Nat}
    (hp : (chooseMaxDiff g src dst (List.range cfg.nrPartitions)).1 = some p) :
    u32 (((avg : Int) - (g.numaStat dst).avgQdepth) * (g.numaStat dst).usedCores) =
      (avg - (g.numaStat dst).avgQdepth) * (g.numaStat dst).usedCores ∧
    u32 ((chooseMaxDiff g src dst (List.range cfg.nrPartitions)).2 / 2) =
      (g.depthOf (g.group (cfg.coresOf src) p) - g.depthOf (g.group (cfg.coresOf dst) p)) / 2 ∧
    g.depthOf (g.group (cfg.coresOf dst) p) < g.depthOf (g.group (cfg.coresOf src) p) ∧
    g.depthOf (g.group (cfg.coresOf src) p) < 2 ^ 31 := by
  have hroom := hc.room
  have hbelow := hc.below
  obtain ⟨hlt, hdiff⟩ := chooseMaxDiff_some hp
  have hsmall := Nat.lt_of_le_of_lt
    (he.depthOf_le (g.group_nodup cfg src p) (group_subset hv g hc.src_lt p)) he.bounded
  rw [h.numaStats_eq hv he hc.dst_lt, h.numaStats_eq hv he hc.src_lt] at hlt hdiff
  dsimp only at hlt hdiff
  refine ⟨?_, ?_, hlt, hsmall⟩
  · have hle := Nat.mul_le_mul_right (g.numaStat dst).usedCores
      (Nat.sub_le avg (g.numaStat dst).avgQdepth)
    rw [← Nat.cast_sub (Nat.le_of_lt hbelow), ← Nat.cast_mul]
    exact u32_of_lt (by omega)
  · rw [hdiff, i32_of_lt (by omega) (by omega), ← Nat.cast_sub (Nat.le_of_lt hlt)]
    exact u32_of_lt
      (n := (g.depthOf (g.group (cfg.coresOf src) p) - g.depthOf (g.group (cfg.coresOf dst) p)) / 2)
      (by omega)

/-- Level 3 stops early only where it divides by the cores of an empty node, or
at a queue that is longer than its counter. -/
def Level3Fault (cfg : Config) (g : Global) (e : Fault) (_ : Global) : Prop :=
  (e = .divByZero ∧ ∃ n < cfg.nrNumas, g.usedIn (cfg.coresOf n) = []) ∨ (e = .overrun ∧ Overfull g)

theorem restat_keeps {srcs : List Nat} {c budget : Nat} :
    Follows AnyAct (fun s => ∃ m ≤ budget, Shifted g srcs c m s)
      (do updatePartitionStats cfg; abtstUpdateNumaStats pf cfg)
      (fun _ s => Fresh cfg s ∧ ∃ m ≤ budget, Shifted g srcs c m s) (Level3Fault cfg g) := by
  refine Follows.relax (?_ : Follows (RebStep cfg) _ _ _ _) (fun _ _ _ _ => trivial)
  refine .bind (Q := fun _ s => FreshParts cfg s ∧ ∃ m ≤ budget, Shifted g srcs c m s)
    (.act ?_) (fun _ => updateNumaStats_keeps ?_ ?_)
  · rintro s ⟨m, hm, hs⟩
    refine ⟨.updatePartitionStats s, updatePartitionStats_fresh cfg s, m, hm, hs.of_streams ?_⟩
    obtain ⟨_, _, hf⟩ := abtstUpdatePartitionStats_frame cfg s
    rw [hf]
  · rintro s n v ⟨m, hm, hs⟩
    exact ⟨m, hm, hs.of_streams rfl⟩
  · rintro n hn s e ⟨m, _, hs⟩ h
    obtain ⟨rfl, hnil⟩ := updateNumaStat_error h
    exact Or.inl ⟨rfl, n, hn, by rw [← hs.usedIn]; exact hnil⟩

theorem rebBetweenNumas_levels (hv : cfg.Valid) (h : Fresh cfg g) (he : Exact cfg g)
    (hc : Chosen cfg g avg src dst) :
    Follows AnyAct (fun s => s = g) (rebBetweenNumas pf cfg src dst avg)
      (fun _ t => Levelled cfg g avg src dst t) (Level3Fault cfg g) := by
  refine rebBetweenNumas_cases trivial (.unmoved hv h he hc) ?_
  intro p paramsFrom paramsTo e hp hcf hct hfirst
  obtain ⟨hdeficit, hhalf, hlt, hsmall⟩ := budget_eq hv h he hc hp
  have hm := (hct.entry_mem hfirst).1
  obtain ⟨hnot, hbound⟩ := hc.both_lt hv he hm
  have hmigrate := migrateStreams_shifts (fun e' he' => (hcf.mem he').1)
    (g.group_nodup cfg src p) hnot hbound
    (min ((avg - (g.numaStat dst).avgQdepth) * (g.numaStat dst).usedCores)
      ((g.depthOf (g.group (cfg.coresOf src) p) - g.depthOf (g.group (cfg.coresOf dst) p)) / 2))
    (by omega) (hcf.reverse_lt h) 0 (by omega)
  rw [hdeficit, hhalf]
  refine .bind ((hmigrate.faults (fun _ _ hx => Or.inr hx)).pre ?_) (fun _ => restat_keeps.post ?_)
  · rintro t rfl
    exact ⟨0, by simp, .refl _ _ _⟩
  · rintro _ t ⟨hfresh, m, hle, hs⟩
    exact hs.levelled hv h he hc hp hm (by omega) (by omega) hfresh

theorem rebBetweenNumasTop_levels (hv : cfg.Valid) (h : Fresh cfg g) (he : Exact cfg g)
    (hc : chooseNumas g (abtstGetAverageQdepth cfg g) (sortNumas pf cfg g true true) =
      some (src, dst)) :
    Follows AnyAct (fun s => s = g) (abtstRebBetweenNumas pf cfg)
      (fun _ t => Levelled cfg g (abtstGetAverageQdepth cfg g) src dst t) (Level3Fault cfg g) := by
  have hchosen := chooseNumas_chosen hv h he hc
  refine readStats_bind (fun s hs => ?_)
  subst hs
  refine ⟨trivial, ?_⟩
  dsimp only
  split_ifs
  · refine .pure ?_
    rintro t rfl
    exact .unmoved hv h he hchosen
  · rw [hc]
    exact rebBetweenNumas_levels hv h he hchosen

end Level3

/-- Level 3 never overshoots: whichever nodes it chooses, after the move the
target is not above the average of the system and the source not below it, the
partition still has more work in the source, and the other streams are as they
were. It always gets there when every node has a used stream and no queue is
longer than its counter. -/
theorem level3_never_overshoots {cfg : Config} (hv : cfg.Valid) (pf : Platform) {g : Global}
    (h : Fresh cfg g) (he : Exact cfg g) {src dst : Nat}
    (hc : chooseNumas g (abtstGetAverageQdepth cfg g) (sortNumas pf cfg g true true) =
      some (src, dst)) :
    ((abtstRebBetweenNumas pf cfg).fault g = none → Levelled cfg g (abtstGetAverageQdepth cfg g)
      src dst ((abtstRebBetweenNumas pf cfg).run g).st) ∧
    ((∀ n < cfg.nrNumas, g.usedIn (cfg.coresOf n) ≠ []) → ¬ Overfull g →
      (abtstRebBetweenNumas pf cfg).fault g = none) := by
  have hfollows := rebBetweenNumasTop_levels hv h he hc
  constructor
  · intro hf
    obtain ⟨_, hlevelled⟩ := hfollows.of_ok rfl hf
    exact hlevelled
  · intro hused hfull
    by_contra hf
    obtain ⟨e, hf⟩ := Option.ne_none_iff_exists'.mp hf
    rcases hfollows.of_fault rfl hf with ⟨_, n, hn, hnil⟩ | ⟨_, ho⟩
    · exact hused n hn hnil
    · exact hfull ho

def splitConfig : Config where
  nrCores := 7
  nrNumas := 2
  numaInfo n := if n = 0 then ⟨0, 2⟩ else ⟨3, 6⟩
  partitions := [⟨0, [1, 2, 3, 4, 5, 6]⟩]
  partitionMap c := if c = 0 then -1 else 0

theorem splitConfig_valid : splitConfig.Valid := by
  refine ⟨by decide, by decide, by decide, by decide, by decide, ?_⟩
  intro m hm n hn hne c hcm hcn
  rw [Config.mem_coresOf] at hcm hcn
  simp only [splitConfig] at hm hn hcm hcn
  split_ifs at hcm hcn <;> dsimp only at hcm hcn <;> omega

/-- All the work is in the first node: 500 packets in stream 1 and 20 in stream 2. -/
def busyStreams : Global :=
  { blank with
    streams := fun c =>
      { rank := c, used := decide (1 ≤ c ∧ c ≤ 6)
        loadQ := if c = 1 then [⟨0, 0⟩] else if c = 2 then [⟨0, 1⟩] else []
        nrLoads := if c = 1 ∨ c = 2 then 1 else 0
        totalQdepth := if c = 1 then 500 else if c = 2 then 20 else 0 }
    loads := fun l => { pktStarted := if l.index = 0 then 500 else 20 } }

def busyNode : Global :=
  ((abtstUpdatePartitionStats splitConfig busyStreams).setNumaStat 0 ⟨2, 260⟩).setNumaStat 1 ⟨4, 0⟩

theorem busyNode_fresh : Fresh splitConfig busyNode := by
  have hparts := updatePartitionStats_fresh splitConfig busyStreams
  constructor
  · unfold busyNode Global.setNumaStat
    exact hparts.of_streams rfl rfl rfl
  · unfold FreshNumas
    decide +kernel

theorem level3_never_overshoots_busyNode :
    ((abtstRebBetweenNumas sortedPlatform splitConfig).run busyNode).st.qdepth 3 = 20 ∧
    Levelled splitConfig busyNode 86 0 1
      ((abtstRebBetweenNumas sortedPlatform splitConfig).run busyNode).st := by
  have hexact : Exact splitConfig busyNode := ⟨by decide +kernel, by decide +kernel⟩
  have havg : abtstGetAverageQdepth splitConfig busyNode = 86 := by decide +kernel
  rw [← havg]
  exact ⟨by decide +kernel, (level3_never_overshoots splitConfig_valid sortedPlatform busyNode_fresh
    hexact (by decide +kernel)).1 (by decide +kernel)⟩

end AbtSt
