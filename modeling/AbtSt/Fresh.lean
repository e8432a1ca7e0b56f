import AbtSt.Shape

/-! Fresh statistics: the stored numbers of cores are those of the streams, and
the stored depths are the sums over the streams modulo `2^32`. A migration
inside one partition of one node keeps them fresh. -/

namespace AbtSt

structure FreshParts (cfg : Config) (g : Global) : Prop where
  numaStats : ∀ n < cfg.nrNumas, ∀ p, (g.numaStats p n).Tallies
    (g.group (cfg.coresOf n) p).length (g.depthOf (g.group (cfg.coresOf n) p))
  stats : ∀ p, (g.stats p).Tallies
    ((List.range cfg.nrNumas).map fun n => (g.group (cfg.coresOf n) p).length).sum
    ((List.range cfg.nrNumas).map fun n => g.depthOf (g.group (cfg.coresOf n) p)).sum

def FreshNumas (cfg : Config) (ns : List Nat) (g : Global) : Prop :=
  ∀ n ∈ ns, (g.numaStat n).usedCores = (g.usedIn (cfg.coresOf n)).length ∧
    (g.usedIn (cfg.coresOf n) ≠ [] → (g.numaStat n).avgQdepth =
      g.depthOf (g.usedIn (cfg.coresOf n)) % 2 ^ 32 / (g.usedIn (cfg.coresOf n)).length)

structure Fresh (cfg : Config) (g : Global) : Prop where
  parts : FreshParts cfg g
  numas : FreshNumas cfg (List.range cfg.nrNumas) g

theorem FreshParts.of_streams {cfg : Config} {g s : Global} (h : FreshParts cfg g)
    (hs : s.streams = g.streams) (hn : s.numaStats = g.numaStats) (ht : s.stats = g.stats) :
    FreshParts cfg s := by
  constructor
  · rw [hn, Global.group_eq hs, Global.depthOf_eq hs]
    exact h.numaStats
  · rw [ht, Global.group_eq hs, Global.depthOf_eq hs]
    exact h.stats

theorem FreshNumas.of_streams {cfg : Config} {ns : List Nat} {g s : Global}
    (h : FreshNumas cfg ns g) (hs : s.streams = g.streams) (hn : s.numaStat = g.numaStat) :
    FreshNumas cfg ns s := by
  unfold FreshNumas
  rw [hn, Global.usedIn_eq hs, Global.depthOf_eq hs]
  exact h

theorem Fresh.of_streams {cfg : Config} {g s : Global} (h : Fresh cfg g)
    (hs : s.streams = g.streams) (hn : s.numaStats = g.numaStats) (ht : s.stats = g.stats)
    (hm : s.numaStat = g.numaStat) : Fresh cfg s :=
  ⟨h.parts.of_streams hs hn ht, h.numas.of_streams hs hm⟩

theorem updatePartitionStats_fresh (cfg : Config) (g : Global) :
    FreshParts cfg (abtstUpdatePartitionStats cfg g) := by
  obtain ⟨t, s, hf⟩ := abtstUpdatePartitionStats_frame cfg g
  have hstr : (abtstUpdatePartitionStats cfg g).streams = g.streams := by rw [hf]
  constructor
  · intro n hn p
    rw [Global.group_eq hstr, Global.depthOf_eq hstr]
    exact abtstUpdatePartitionStats_numaStats cfg g p hn
  · intro p
    rw [Global.group_eq hstr, Global.depthOf_eq hstr]
    exact abtstUpdatePartitionStats_stats cfg g p

theorem sum_map_one {l : List Nat} (hnd : l.Nodup) {x : Nat} (hx : x ∈ l) {f k : Nat → Nat}
    (h : ∀ c ∈ l, c ≠ x → k c = f c) : (l.map k).sum + f x = (l.map f).sum + k x := by
  have hperm : l.Perm (x :: l.erase x) := List.perm_cons_erase hx
  have hrest : (l.erase x).map k = (l.erase x).map f := by
    refine List.map_congr_left (fun c hc => h c (List.mem_of_mem_erase hc) ?_)
    rintro rfl
    exact hnd.not_mem_erase hc
  rw [(hperm.map k).sum_eq, (hperm.map f).sum_eq]
  simp only [List.map_cons, List.sum_cons, hrest]
  omega

theorem sum_map_two {l : List Nat} (hnd : l.Nodup) {x y : Nat} (hne : x ≠ y) (hx : x ∈ l)
    (hy : y ∈ l) {f k : Nat → Nat} (h : ∀ c ∈ l, c ≠ x → c ≠ y → k c = f c) :
    (l.map k).sum + (f x + f y) = (l.map f).sum + (k x + k y) := by
  -- change `f` at `x` first, then at `y`
  have h1 := sum_map_one hnd hx (f := f) (k := Function.update k y (f y)) (by
    intro c hc hcx
    by_cases hcy : c = y
    · rw [hcy, Function.update_self]
    · rw [Function.update_of_ne hcy, h c hc hcx hcy])
  have h2 := sum_map_one hnd hy (f := Function.update k y (f y)) (k := k)
    (fun c _ hcy => (Function.update_of_ne hcy _ _).symm)
  rw [Function.update_of_ne hne] at h1
  rw [Function.update_self] at h2
  omega

section Moved

variable {g : Global} {src dst a b : Nat} (ms : List LoadId)

theorem moved_qdepth_other {c : Nat} (hs : c ≠ src) (hd : c ≠ dst) :
    (g.moved src dst ms a b).qdepth c = g.qdepth c := by
  unfold Global.qdepth
  rw [moved_other g ms a b hs hd]

theorem depthOf_moved_other {cores : List Nat} (hs : src ∉ cores) (hd : dst ∉ cores) :
    (g.moved src dst ms a b).depthOf cores = g.depthOf cores := by
  unfold Global.depthOf
  congr 1
  apply List.map_congr_left
  intro c hc
  exact moved_qdepth_other ms (fun h => hs (h ▸ hc)) (fun h => hd (h ▸ hc))

theorem depthOf_moved (hne : src ≠ dst) {cores : List Nat} (hnd : cores.Nodup)
    (hs : src ∈ cores) (hd : dst ∈ cores) :
    (g.moved src dst ms a b).depthOf cores + (g.qdepth src + g.qdepth dst) =
      g.depthOf cores + (a + b) := by
  have h := sum_map_two hnd hne hs hd (f := g.qdepth) (k := (g.moved src dst ms a b).qdepth)
    (fun c _ hcs hcd => moved_qdepth_other ms hcs hcd)
  rw [(moved_qdepth g hne ms a b).1, (moved_qdepth g hne ms a b).2] at h
  exact h

theorem depthOf_moved_src (hne : src ≠ dst) {cores : List Nat} (hnd : cores.Nodup)
    (hs : src ∈ cores) (hd : dst ∉ cores) :
    (g.moved src dst ms a b).depthOf cores + g.qdepth src = g.depthOf cores + a := by
  have h := sum_map_one hnd hs (f := g.qdepth) (k := (g.moved src dst ms a b).qdepth)
    (fun c hc hcs => moved_qdepth_other ms hcs (fun he => hd (he ▸ hc)))
  rw [(moved_qdepth g hne ms a b).1] at h
  exact h

theorem depthOf_moved_dst (hne : src ≠ dst) {cores : List Nat} (hnd : cores.Nodup)
    (hs : src ∉ cores) (hd : dst ∈ cores) :
    (g.moved src dst ms a b).depthOf cores + g.qdepth dst = g.depthOf cores + b := by
  have h := sum_map_one hnd hd (f := g.qdepth) (k := (g.moved src dst ms a b).qdepth)
    (fun c hc hcd => moved_qdepth_other ms (fun he => hs (he ▸ hc)) hcd)
  rw [(moved_qdepth g hne ms a b).2] at h
  exact h

theorem depthOf_moved_emod (hne : src ≠ dst) {cores : List Nat} (hnd : cores.Nodup)
    (hiff : src ∈ cores ↔ dst ∈ cores)
    (hsum : (a + b) % 2 ^ 32 = (g.qdepth src + g.qdepth dst) % 2 ^ 32) :
    (g.moved src dst ms a b).depthOf cores % 2 ^ 32 = g.depthOf cores % 2 ^ 32 := by
  by_cases hs : src ∈ cores
  · have h := depthOf_moved (g := g) (a := a) (b := b) ms hne hnd hs (hiff.mp hs)
    omega
  · rw [depthOf_moved_other ms hs (fun hd => hs (hiff.mpr hd))]

end Moved

theorem sum_emod_congr {ns : List Nat} {f f' : Nat → Nat} {k : Nat}
    (h : ∀ n ∈ ns, f n % k = f' n % k) : (ns.map f).sum % k = (ns.map f').sum % k := by
  induction ns with
  | nil => rfl
  | cons n ns ih =>
    have h1 := h n (by simp)
    have h2 := ih (fun m hm => h m (by simp [hm]))
    simp only [List.map_cons, List.sum_cons]
    rw [Nat.add_mod, h1, h2, ← Nat.add_mod]

theorem Ends.group_iff {cfg : Config} (hv : cfg.Valid) {g : Global} {src dst n : Nat}
    (he : Ends g src dst) (hs : SameNuma cfg src dst) (hn : n < cfg.nrNumas) (p : Nat) :
    (src ∈ g.group (cfg.coresOf n) p ↔ dst ∈ g.group (cfg.coresOf n) p) ∧
    (src ∈ g.usedIn (cfg.coresOf n) ↔ dst ∈ g.usedIn (cfg.coresOf n)) := by
  obtain ⟨m, hm, hsm, hdm⟩ := hs
  have hiff : src ∈ cfg.coresOf n ↔ dst ∈ cfg.coresOf n := by
    constructor
    · intro h
      rw [hv.numa_unique hn hm h hsm]
      exact hdm
    · intro h
      rw [hv.numa_unique hn hm h hdm]
      exact hsm
  simp only [Global.mem_group, Global.mem_usedIn, hiff, he.used_src, he.used_dst, he.partId,
    and_self]

theorem Fresh.moved {cfg : Config} (hv : cfg.Valid) {g : Global} {src dst a b : Nat}
    {ms : List LoadId} (h : Fresh cfg g) (he : Ends g src dst) (hs : SameNuma cfg src dst)
    (hsum : (a + b) % 2 ^ 32 = (g.qdepth src + g.qdepth dst) % 2 ^ 32) :
    Fresh cfg (g.moved src dst ms a b) := by
  have hshape := moved_sameShape g ms a b he.ne
  have hdepth : ∀ n < cfg.nrNumas, ∀ p,
      (g.moved src dst ms a b).depthOf (g.group (cfg.coresOf n) p) % 2 ^ 32 =
        g.depthOf (g.group (cfg.coresOf n) p) % 2 ^ 32 :=
    fun n hn p => depthOf_moved_emod ms he.ne (g.group_nodup cfg n p)
      (he.group_iff hv hs hn p).1 hsum
  refine ⟨⟨?_, ?_⟩, ?_⟩
  · intro n hn p
    rw [hshape.group]
    exact ⟨(h.parts.numaStats n hn p).1, by rw [hdepth n hn p]; exact (h.parts.numaStats n hn p).2⟩
  · intro p
    rw [hshape.group]
    refine ⟨(h.parts.stats p).1, ?_⟩
    rw [sum_emod_congr (fun n hn => hdepth n (List.mem_range.mp hn) p)]
    exact (h.parts.stats p).2
  · intro n hn
    have hused := depthOf_moved_emod (a := a) (b := b) ms he.ne (g.usedIn_nodup cfg n)
      (he.group_iff hv hs (List.mem_range.mp hn) 0).2 hsum
    rw [hshape.usedIn, hused]
    exact h.numas n hn

theorem Fresh.combine {cfg : Config} (hv : cfg.Valid) {g s : Global} {src dst : Nat}
    (h : Fresh cfg g) (he : Ends g src dst) (hs : SameNuma cfg src dst)
    (hc : abtstCombineStreams g src dst = .ok s) : Fresh cfg s := by
  rcases abtstCombineStreams_ok he.ne hc with ⟨_, rfl⟩ | ⟨_, _, rfl⟩
  · exact h
  · apply h.moved hv he hs
    have := cast_u32 (g.qdepth src + g.qdepth dst)
    omega

theorem rebalance_depths (x y : Nat) (ios : Int) :
    (u32 (i32 (i32 x - i32 (ios - i32 y))) + u32 ios) % 2 ^ 32 = (x + y) % 2 ^ 32 := by
  have h1 := cast_u32 (i32 (i32 x - i32 (ios - i32 y)))
  have h2 := cast_u32 ios
  have h3 := i32_emod (i32 x - i32 (ios - i32 y))
  have h4 := i32_emod (ios - i32 y)
  have h5 := i32_emod x
  have h6 := i32_emod y
  generalize u32 (i32 (i32 x - i32 (ios - i32 y))) = u at *
  generalize u32 ios = v at *
  generalize i32 (i32 x - i32 (ios - i32 y)) = w at *
  generalize i32 (ios - i32 y) = z at *
  generalize i32 (x : Int) = x' at *
  generalize i32 (y : Int) = y' at *
  omega

theorem Fresh.rebalance {cfg : Config} (hv : cfg.Valid) {g s : Global} {src dst avg : Nat}
    (h : Fresh cfg g) (he : Ends g src dst) (hs : SameNuma cfg src dst)
    (hr : abtstRebalanceStreams g ⟨i32 (g.qdepth dst), dst⟩ ⟨i32 (g.qdepth src), src⟩ avg =
      .ok (some s)) : Fresh cfg s := by
  obtain ⟨_, _, _, _, _, rfl⟩ := abtstRebalanceStreams_some he.ne hr
  exact h.moved hv he hs (rebalance_depths _ _ _)

theorem setPartitionId_qdepth (c p : Nat) (g : Global) : (setPartitionId c p g).qdepth = g.qdepth := by
  funext d
  by_cases hd : d = c
  · subst hd
    simp [setPartitionId, Global.setStream, Global.qdepth]
  · simp [setPartitionId, Global.setStream, Global.qdepth, hd]

theorem setPartitionId_freshNumas {cfg : Config} {ns : List Nat} {g : Global} (c p : Nat)
    (h : FreshNumas cfg ns g) : FreshNumas cfg ns (setPartitionId c p g) := by
  have hused : ∀ d, ((setPartitionId c p g).streams d).used = (g.streams d).used := by
    intro d
    by_cases hd : d = c
    · subst hd
      simp [setPartitionId, Global.setStream]
    · simp [setPartitionId, Global.setStream, hd]
  have hq := setPartitionId_qdepth c p g
  unfold FreshNumas Global.usedIn Global.depthOf at h ⊢
  simp only [hused, hq]
  exact h

theorem FreshParts.length_collected {cfg : Config} {g : Global} (h : FreshParts cfg g) {n : Nat}
    (hn : n < cfg.nrNumas) (p : Nat) :
    (collectStreams cfg g (some n) (some p)).length = (g.numaStats p n).usedCores := by
  rw [(h.numaStats n hn p).1]
  simp [collectStreams, hn]

end AbtSt
