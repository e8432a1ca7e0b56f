import AbtSt.Level3
import AbtSt.Mappings

/-! Where the statistics and level 2 divide by a number of cores. A node or a
partition without cores in a node makes them divide by zero. -/

namespace AbtSt

/-- The statistics of a node as they should be stored. -/
def trueStat (cfg : Config) (g : Global) (n : Nat) : NumaStat :=
  ⟨(g.usedIn (cfg.coresOf n)).length,
    g.depthOf (g.usedIn (cfg.coresOf n)) / (g.usedIn (cfg.coresOf n)).length⟩

def StoredStat (pf : Platform) (cfg : Config) (g s : Global) (n : Nat) : Prop :=
  ∃ avg, pf.div (g.depthOf (g.usedIn (cfg.coresOf n)) % 2 ^ 32)
      (g.usedIn (cfg.coresOf n)).length = .ok avg ∧
    s.numaStat n = ⟨(g.usedIn (cfg.coresOf n)).length, avg⟩

theorem updateNumaStats_stores (pf : Platform) (cfg : Config) (g : Global) :
    Follows AnyAct (fun s => s = g) (abtstUpdateNumaStats pf cfg)
      (fun _ s => ∀ n < cfg.nrNumas, StoredStat pf cfg g s n)
      (fun _ _ => ∃ n < cfg.nrNumas, g.usedIn (cfg.coresOf n) = []) := by
  have hloop : Follows AnyAct
      (fun s => s.streams = g.streams ∧ ∀ n ∈ ([] : List Nat), StoredStat pf cfg g s n)
      (abtstUpdateNumaStats pf cfg)
      (fun _ s => s.streams = g.streams ∧ ∀ n ∈ List.range cfg.nrNumas, StoredStat pf cfg g s n)
      (fun _ _ => ∃ n < cfg.nrNumas, g.usedIn (cfg.coresOf n) = []) := by
    apply Follows.forM_prefix
      (J := fun ns s => s.streams = g.streams ∧ ∀ n ∈ ns, StoredStat pf cfg g s n)
    intro pre i post hl
    have hi : i < cfg.nrNumas := List.mem_range.mp (by rw [hl]; simp)
    apply Follows.perform
    · intro s t hs ht
      obtain ⟨avg, hdiv, rfl⟩ := updateNumaStat_div hi ht
      rw [Global.usedIn_eq hs.1, Global.depthOf_eq hs.1] at hdiv
      refine ⟨trivial, hs.1, ?_⟩
      intro n hn
      by_cases he : n = i
      · subst he
        refine ⟨avg, hdiv, ?_⟩
        simp [Global.setNumaStat, Global.usedIn_eq hs.1]
      · obtain ⟨v, hv, hstat⟩ := hs.2 n (by simpa [he] using hn)
        refine ⟨v, hv, ?_⟩
        simpa [Global.setNumaStat, he] using hstat
    · intro s e hs he
      refine ⟨i, hi, ?_⟩
      rw [← Global.usedIn_eq hs.1]
      exact (updateNumaStat_error he).2
  refine hloop.mono ?_ ?_
  · rintro s rfl
    exact ⟨rfl, by simp⟩
  · intro _ s hs n hn
    exact hs.2 n (List.mem_range.mpr hn)

/-- The pass over the nodes runs to its end and stores what it should, whether
or not a division by zero traps. -/
def StatsDefined (cfg : Config) (g : Global) : Prop :=
  ∀ pf, (abtstUpdateNumaStats pf cfg).fault g = none ∧
    ∀ n < cfg.nrNumas, ((abtstUpdateNumaStats pf cfg).run g).st.numaStat n = trueStat cfg g n

/-- A sum that has wrapped does not have the same average: there are not enough
cores to round the difference away. -/
theorem wrapped_average {total cores : Nat} (hc : 0 < cores) (hle : cores ≤ 2 ^ 32) :
    total % 2 ^ 32 / cores = total / cores ↔ total < 2 ^ 32 := by
  constructor
  · intro h
    by_contra hge
    have hmod := Nat.div_add_mod total (2 ^ 32)
    have hk : 0 < total / 2 ^ 32 := Nat.div_pos (Nat.not_lt.mp hge) (by decide)
    have hsmall : total % 2 ^ 32 + cores ≤ total := by
      have := Nat.mul_le_mul_left (2 ^ 32) hk
      omega
    have hstep : (total % 2 ^ 32 + cores) / cores ≤ total / cores := Nat.div_le_div_right hsmall
    rw [Nat.add_div_right _ hc, h] at hstep
    omega
  · intro h
    rw [Nat.mod_eq_of_lt h]

theorem StatsDefined.used {cfg : Config} {g : Global} (h : StatsDefined cfg g) {n : Nat}
    (hn : n < cfg.nrNumas) : g.usedIn (cfg.coresOf n) ≠ [] := by
  intro hnil
  obtain ⟨-, hstored⟩ := (updateNumaStats_stores sortedPlatform cfg g).of_ok rfl (h sortedPlatform).1
  obtain ⟨avg, hdiv, -⟩ := hstored n hn
  rw [hnil] at hdiv
  cases hdiv

theorem statsDefined_iff {cfg : Config} (hend : ∀ n < cfg.nrNumas, (cfg.numaInfo n).endCore < 2 ^ 32)
    (g : Global) :
    StatsDefined cfg g ↔ ∀ n < cfg.nrNumas, g.usedIn (cfg.coresOf n) ≠ [] ∧
      g.depthOf (g.usedIn (cfg.coresOf n)) < 2 ^ 32 := by
  have hcores : ∀ n < cfg.nrNumas, (g.usedIn (cfg.coresOf n)).length ≤ 2 ^ 32 := by
    intro n hn
    have hle : (g.usedIn (cfg.coresOf n)).length ≤ (cfg.coresOf n).length := List.length_filter_le _ _
    have := hend n hn
    rw [Config.coresOf, List.length_range'] at hle
    unfold Config.coresOf
    omega
  constructor
  · intro hdef n hn
    obtain ⟨hfault, hstat⟩ := hdef sortedPlatform
    obtain ⟨-, hstored⟩ := (updateNumaStats_stores sortedPlatform cfg g).of_ok rfl hfault
    obtain ⟨avg, hdiv, hval⟩ := hstored n hn
    have hne := StatsDefined.used hdef hn
    have hpos : 0 < (g.usedIn (cfg.coresOf n)).length := List.length_pos_iff.mpr hne
    refine ⟨hne, (wrapped_average hpos (hcores n hn)).mp ?_⟩
    rw [hstat n hn, trueStat, NumaStat.mk.injEq] at hval
    rw [Platform.div_pos (Nat.ne_of_gt hpos), Except.ok.injEq] at hdiv
    rw [hdiv, hval.2]
  · intro hok pf
    have hrun := updateNumaStats_stores pf cfg g
    have hfault : (abtstUpdateNumaStats pf cfg).fault g = none := by
      cases hf : (abtstUpdateNumaStats pf cfg).fault g with
      | none => rfl
      | some e =>
        obtain ⟨n, hn, hnil⟩ := hrun.of_fault rfl hf
        exact absurd hnil (hok n hn).1
    refine ⟨hfault, ?_⟩
    intro n hn
    obtain ⟨-, hstored⟩ := hrun.of_ok rfl hfault
    obtain ⟨avg, hdiv, hval⟩ := hstored n hn
    have hpos : 0 < (g.usedIn (cfg.coresOf n)).length := List.length_pos_iff.mpr (hok n hn).1
    rw [Platform.div_pos (Nat.ne_of_gt hpos), Except.ok.injEq] at hdiv
    rw [hval, trueStat, ← hdiv, (wrapped_average hpos (hcores n hn)).mpr (hok n hn).2]

theorem rushHour_statsDefined : ∃ g, rushHour = some g ∧
    (abtstUpdateStreamsStat sharedConfig g).qdepth 1 = 1010 ∧
    StatsDefined sharedConfig (abtstUpdateStreamsStat sharedConfig g) := by
  have hrun : rushHour.any (fun g => decide ((abtstUpdateStreamsStat sharedConfig g).qdepth 1 = 1010 ∧
      ∀ n < sharedConfig.nrNumas,
        (abtstUpdateStreamsStat sharedConfig g).usedIn (sharedConfig.coresOf n) ≠ [] ∧
        (abtstUpdateStreamsStat sharedConfig g).depthOf
          ((abtstUpdateStreamsStat sharedConfig g).usedIn (sharedConfig.coresOf n)) < 2 ^ 32)) = true := by
    decide +kernel
  obtain ⟨g, hg, hrun⟩ := (Option.any_eq_true _ _).mp hrun
  obtain ⟨hdepth, hok⟩ := of_decide_eq_true hrun
  exact ⟨g, hg, hdepth, (statsDefined_iff (by decide) _).mpr hok⟩

/-- The default partitions on a machine with two nodes of 32 cores. -/
def defaultConfig : Config where
  nrCores := 64
  nrNumas := 2
  numaInfo n := ⟨32 * n, 32 * n + 31⟩
  partitions := defaultParams
  partitionMap c := if c < 2 then -1 else if c < 10 then 0 else if c < 18 then 1 else -1

theorem defaultConfig_not_statsDefined : ¬ StatsDefined defaultConfig (justConfigured defaultConfig) := by
  intro h
  exact h.used (show 1 < defaultConfig.nrNumas by decide) (by decide)

/-- Level 2 has run on the nodes `done`: the partitions of the other nodes have
the cores that they had at the start. -/
structure Untouched (cfg : Config) (g : Global) (done : List Nat) (s : Global) : Prop where
  numaStat : s.numaStat = g.numaStat
  fits : ¬ Overfull s
  group : ∀ n < cfg.nrNumas, n ∉ done → ∀ p, s.group (cfg.coresOf n) p = g.group (cfg.coresOf n) p

/-- With the numbers of cores up to date as well. -/
structure Pending (cfg : Config) (g : Global) (done : List Nat) (s : Global) : Prop
    extends Untouched cfg g done s where
  counts : ∀ n < cfg.nrNumas, ∀ p,
    (s.numaStats p n).usedCores = (s.group (cfg.coresOf n) p).length

namespace Untouched

variable {cfg : Config} {g s : Global} {done : List Nat}

theorem combine (h : Untouched cfg g done s) {src dst : Nat} (hne : src ≠ dst) {t : Global}
    (ht : abtstCombineStreams s src dst = .ok t) : Untouched cfg g done t := by
  have hshape := combine_sameShape hne ht
  refine ⟨hshape.numaStat.trans h.numaStat, fun ho => h.fits (combine_fits hne ht ho), ?_⟩
  rw [hshape.group]
  exact h.group

theorem setPartition (h : Untouched cfg g done s) {n c : Nat} (hc : c ∈ cfg.coresOf n)
    (hdis : ∀ m < cfg.nrNumas, m ≠ n → c ∉ cfg.coresOf m) (p : Nat) :
    Untouched cfg g (done ++ [n]) (setPartitionId c p s) := by
  refine ⟨h.numaStat, ?_, ?_⟩
  · rintro ⟨d, hd⟩
    apply h.fits
    refine ⟨d, ?_⟩
    by_cases he : d = c
    · subst he
      simpa [setPartitionId, Global.setStream] using hd
    · simpa [setPartitionId, Global.setStream, he] using hd
  · intro m hm hnot q
    have hmn : m ≠ n := fun he => hnot (by simp [he])
    rw [← h.group m hm (fun hd => hnot (by simp [hd])) q]
    apply List.filter_congr
    intro d hd
    have hdc : d ≠ c := fun he => hdis m hm hmn (he ▸ hd)
    simp [Global.inPart, setPartitionId, Global.setStream, hdc]

theorem update (h : Untouched cfg g done s) : Pending cfg g done (abtstUpdatePartitionStats cfg s) := by
  obtain ⟨t, u, hf⟩ := abtstUpdatePartitionStats_frame cfg s
  have hstr : (abtstUpdatePartitionStats cfg s).streams = s.streams := by rw [hf]
  refine ⟨⟨by rw [hf]; exact h.numaStat, ?_, ?_⟩, ?_⟩
  · unfold Overfull
    rw [hstr]
    exact h.fits
  · rw [Global.group_eq hstr]
    exact h.group
  · intro n hn p
    exact ((updatePartitionStats_fresh cfg s).numaStats n hn p).1

end Untouched

theorem Pending.more {cfg : Config} {g s : Global} {done : List Nat} (h : Pending cfg g done s)
    (n : Nat) : Pending cfg g (done ++ [n]) s :=
  ⟨⟨h.numaStat, h.fits, fun m hm hnot p => h.group m hm (fun hd => hnot (by simp [hd])) p⟩, h.counts⟩

def Represented (cfg : Config) (g : Global) (n : Nat) : Prop :=
  ∀ p < cfg.nrPartitions, g.group (cfg.coresOf n) p ≠ []

theorem trade_pending {cfg : Config} {g s : Global} {done : List Nat} {n c d : Nat}
    (hs : Pending cfg g done s) (hne : c ≠ d) (hc : c ∈ cfg.coresOf n)
    (hdis : ∀ m < cfg.nrNumas, m ≠ n → c ∉ cfg.coresOf m) (p : Nat) :
    Follows AnyAct (fun t => t = s) (do
        combineStreams c d
        Prog.act (.setPartition c p) (setPartitionId c p)
        updatePartitionStats cfg)
      (fun _ => Pending cfg g (done ++ [n])) (fun _ _ => False) := by
  have hcomb : Follows AnyAct (fun t => t = s) (combineStreams c d)
      (fun _ => Untouched cfg g done) (fun _ _ => False) := by
    apply Follows.perform
    · rintro t u rfl hu
      exact ⟨trivial, hs.toUntouched.combine hne hu⟩
    · rintro t e rfl he
      exact hs.fits (abtstCombineStreams_error he).2
  refine .bind hcomb (fun _ => ?_)
  refine .bind (Q := fun _ => Untouched cfg g (done ++ [n])) (.act (fun t ht => ?_)) (fun _ => ?_)
  · exact ⟨trivial, ht.setPartition hc hdis p⟩
  · exact .act (fun t ht => ⟨trivial, ht.update⟩)

/-- One turn of level 2 divides by zero only if a partition has no core in the
node, and then always does on a machine that traps. -/
theorem rebInNuma_represented {cfg : Config}
    (hdis : ∀ m < cfg.nrNumas, ∀ n < cfg.nrNumas, m ≠ n →
      List.Disjoint (cfg.coresOf m) (cfg.coresOf n))
    (pf : Platform) (g : Global) {done : List Nat} {n : Nat} (hn : n < cfg.nrNumas) (hnot : n ∉ done) :
    Follows AnyAct (Pending cfg g done) (rebInNuma pf cfg n)
      (fun _ s => Pending cfg g (done ++ [n]) s ∧ (pf.divZero = none → Represented cfg g n))
      (fun e _ => e = .divByZero ∧ ¬ Represented cfg g n) := by
  refine readStats_bind (fun s hs => ⟨trivial, ?_⟩)
  have hcount : ∀ p, (s.numaStats p n).usedCores = (g.group (cfg.coresOf n) p).length := by
    intro p
    rw [hs.counts n hn p, hs.group n hn hnot p]
  have hmissing : ∀ p < cfg.nrPartitions, (s.numaStats p n).usedCores = 0 → ¬ Represented cfg g n := by
    intro p hp hz hall
    rw [hcount p] at hz
    exact hall p hp (List.length_eq_zero_iff.mp hz)
  refine .lift_bind ?_ (fun parts hparts => ?_)
  · intro e he t _
    obtain ⟨rfl, p, hp, hz⟩ := sortPartitions_error he
    exact ⟨rfl, hmissing p hp hz⟩
  have hall : pf.divZero = none → Represented cfg g n := by
    intro hpf p hp hnil
    apply sortPartitions_trap hpf hparts hp
    change (s.numaStats p n).usedCores = 0
    rw [hcount p, hnil, List.length_nil]
  have hmem : ∀ x ∈ parts, x.stream < cfg.nrPartitions := by
    intro x hx
    exact List.mem_range.mp ((sortPartitions_ok hparts).mem_iff.mp (List.mem_map_of_mem hx))
  refine .lift_bind ?_ (fun r hr => ?_)
  · intro e he t _
    obtain ⟨rfl, x, hx, hz⟩ := choosePartitions_error he
    exact ⟨rfl, hmissing x.stream (hmem x hx) hz⟩
  have hsame : ∀ t, t = s → Pending cfg g (done ++ [n]) t ∧ (pf.divZero = none → Represented cfg g n) := by
    rintro t rfl
    exact ⟨hs.more n, hall⟩
  cases r with
  | none => exact .pure hsame
  | some pids =>
    obtain ⟨fromPid, toPid⟩ := pids
    dsimp only
    have hgive := (choosePartitions_some hr).1
    cases hp : sortStreams pf cfg s (some n) (some fromPid) with
    | none => exact .pure hsame
    | some params =>
      have hc := sortStreams_some hp
      have hlen : (s.numaStats fromPid n).usedCores = params.length := by
        rw [hc.length_eq]
        exact hs.counts n hn fromPid
      have hone : 1 < params.length := by
        rw [← hlen]
        simp only [canGive, Bool.and_eq_true, decide_eq_true_eq] at hgive
        exact hgive.1
      dsimp only
      rw [hlen]
      refine .lift_bind (fun e he => absurd he (chooseStreams_error hone)) (fun r hr => ?_)
      obtain ⟨hends, h1, -⟩ := chooseStreams_ok hc hr
      have hm1 := (Global.mem_group.mp h1).1
      have hout : ∀ m < cfg.nrNumas, m ≠ n → r.1 ∉ cfg.coresOf m :=
        fun m hm hmn hcm => hdis m hm n hn hmn hcm hm1
      exact ((trade_pending hs hends.ne hm1 hout toPid).post (fun _ t ht => ⟨ht, hall⟩)).faults
        (fun _ _ hf => hf.elim)

def Busy (g : Global) (n : Nat) : Prop :=
  (g.numaStat n).usedCores ≠ 0 ∧ (g.numaStat n).avgQdepth ≠ 0

instance (g : Global) (n : Nat) : Decidable (Busy g n) := inferInstanceAs (Decidable (_ ∧ _))

section Level2

variable {cfg : Config} (hdis : ∀ m < cfg.nrNumas, ∀ n < cfg.nrNumas, m ≠ n →
    List.Disjoint (cfg.coresOf m) (cfg.coresOf n)) {g : Global} (hfresh : Fresh cfg g)
  (hfits : ¬ Overfull g)
include hdis hfresh hfits

theorem rebInNumas_represented (pf : Platform) (hmany : ¬ cfg.nrPartitions ≤ 1) :
    Follows AnyAct (fun s => s = g) (abtstRebInNumas pf cfg)
      (fun _ _ => pf.divZero = none → ∀ n < cfg.nrNumas, Busy g n → Represented cfg g n)
      (fun e _ => e = .divByZero ∧ ∃ n < cfg.nrNumas, Busy g n ∧ ¬ Represented cfg g n) := by
  have hstart : Pending cfg g [] g :=
    ⟨⟨rfl, hfits, fun _ _ _ _ => rfl⟩, fun n hn p => (hfresh.parts.numaStats n hn p).1⟩
  have hloop : Follows AnyAct
      (fun s => Pending cfg g [] s ∧
        (pf.divZero = none → ∀ n ∈ ([] : List Nat), Busy g n → Represented cfg g n))
      (abtstRebInNumas pf cfg)
      (fun _ s => Pending cfg g (List.range cfg.nrNumas) s ∧
        (pf.divZero = none → ∀ n ∈ List.range cfg.nrNumas, Busy g n → Represented cfg g n))
      (fun e _ => e = .divByZero ∧ ∃ n < cfg.nrNumas, Busy g n ∧ ¬ Represented cfg g n) := by
    unfold abtstRebInNumas
    rw [if_neg hmany]
    apply Follows.forM_prefix (J := fun ns s => Pending cfg g ns s ∧
      (pf.divZero = none → ∀ n ∈ ns, Busy g n → Represented cfg g n))
    intro pre i post hl
    have hi : i < cfg.nrNumas := List.mem_range.mp (by rw [hl]; simp)
    have hnot : i ∉ pre := not_mem_of_split List.nodup_range hl
    refine readStats_bind (fun s hs => ⟨trivial, ?_⟩)
    obtain ⟨hpend, hdone⟩ := hs
    rw [hpend.numaStat]
    split_ifs with hidle
    · -- the guard of the source: nothing is done in an idle node
      refine .pure ?_
      rintro t rfl
      refine ⟨hpend.more i, fun hpf n hn hbusy => ?_⟩
      rcases List.mem_append.mp hn with hn | hn
      · exact hdone hpf n hn hbusy
      · obtain rfl := List.mem_singleton.mp hn
        rcases hidle with h | h
        · exact absurd h hbusy.1
        · exact absurd h hbusy.2
    · have hbusy : Busy g i := not_or.mp hidle
      refine (((rebInNuma_represented hdis pf g hi hnot).pre ?_).post ?_).faults ?_
      · rintro t rfl
        exact hpend
      · rintro _ t ⟨hnext, hrep⟩
        refine ⟨hnext, fun hpf n hn hb => ?_⟩
        rcases List.mem_append.mp hn with hn | hn
        · exact hdone hpf n hn hb
        · obtain rfl := List.mem_singleton.mp hn
          exact hrep hpf
      · rintro e t ⟨he, hno⟩
        exact ⟨he, i, hi, hbusy, hno⟩
  refine hloop.mono ?_ ?_
  · rintro s rfl
    exact ⟨hstart, by simp⟩
  · intro _ s hs hpf n hn
    exact hs.2 hpf n (List.mem_range.mpr hn)

theorem represented_of_defined (hmany : ¬ cfg.nrPartitions ≤ 1)
    (h : (abtstRebInNumas sortedPlatform cfg).fault g ≠ some .divByZero) {n : Nat}
    (hn : n < cfg.nrNumas) (hbusy : Busy g n) : Represented cfg g n := by
  have hrun := rebInNumas_represented hdis hfresh hfits sortedPlatform hmany
  cases hf : (abtstRebInNumas sortedPlatform cfg).fault g with
  | some e =>
    obtain ⟨rfl, -⟩ := hrun.of_fault rfl hf
    exact absurd hf h
  | none =>
    obtain ⟨-, hrep⟩ := hrun.of_ok rfl hf
    exact hrep rfl n hn hbusy

/-- Level 2 is free of divisions by zero exactly if every partition has a core
in every node that is busy. -/
theorem level2_defined_iff :
    (∀ pf, (abtstRebInNumas pf cfg).fault g ≠ some .divByZero) ↔
      cfg.nrPartitions ≤ 1 ∨ ∀ n < cfg.nrNumas, Busy g n → Represented cfg g n := by
  constructor
  · intro h
    by_cases hmany : cfg.nrPartitions ≤ 1
    · exact Or.inl hmany
    · exact Or.inr (fun n hn => represented_of_defined hdis hfresh hfits hmany (h sortedPlatform) hn)
  · intro hcond pf hf
    by_cases hmany : cfg.nrPartitions ≤ 1
    · rw [abtstRebInNumas, if_pos hmany] at hf
      cases hf
    · obtain ⟨-, n, hn, hbusy, hno⟩ :=
        (rebInNumas_represented hdis hfresh hfits pf hmany).of_fault rfl hf
      rcases hcond with hone | hall
      · exact hmany hone
      · exact hno (hall n hn hbusy)

end Level2

/-- The statistics taken of the streams of `g`. -/
def measured (cfg : Config) (g : Global) : Global :=
  { abtstUpdatePartitionStats cfg g with numaStat := trueStat cfg g }

theorem measured_streams (cfg : Config) (g : Global) : (measured cfg g).streams = g.streams := by
  obtain ⟨t, u, hf⟩ := abtstUpdatePartitionStats_frame cfg g
  rw [measured, hf]

theorem measured_fresh {cfg : Config} {g : Global}
    (h : ∀ n < cfg.nrNumas, g.depthOf (g.usedIn (cfg.coresOf n)) < 2 ^ 32) :
    Fresh cfg (measured cfg g) := by
  constructor
  · exact (updatePartitionStats_fresh cfg g).of_streams rfl rfl rfl
  · intro n hn
    rw [Global.usedIn_eq (measured_streams cfg g), Global.depthOf_eq (measured_streams cfg g),
      Nat.mod_eq_of_lt (h n (List.mem_range.mp hn))]
    exact ⟨rfl, fun _ => rfl⟩

/-- Two nodes of three cores; core 0 is in no partition. -/
def pairLayout (parts : List Partition) (part : Nat → Nat) : Config where
  nrCores := 6
  nrNumas := 2
  numaInfo n := ⟨3 * n, 3 * n + 2⟩
  partitions := parts
  partitionMap c := if c = 0 ∨ 6 ≤ c then -1 else part c

theorem pairLayout_disjoint (parts : List Partition) (part : Nat → Nat) :
    ∀ m < (pairLayout parts part).nrNumas, ∀ n < (pairLayout parts part).nrNumas, m ≠ n →
      List.Disjoint ((pairLayout parts part).coresOf m) ((pairLayout parts part).coresOf n) := by
  intro m _ n _ hne c hcm hcn
  rw [Config.mem_coresOf] at hcm hcn
  simp only [pairLayout] at hcm hcn
  omega

/-- Every used stream has the same depth. -/
def evenStreams (cfg : Config) : Global :=
  { justConfigured cfg with
    streams := fun c => { (justConfigured cfg).streams c with totalQdepth := 10 } }

theorem evenStreams_fits (cfg : Config) : ¬ Overfull (measured cfg (evenStreams cfg)) := by
  rintro ⟨c, hc⟩
  rw [measured_streams] at hc
  simp only [evenStreams, justConfigured] at hc
  split_ifs at hc <;> simp [initXstream] at hc

/-- Both partitions have cores in both nodes. -/
def mixedLayout : Config :=
  pairLayout [⟨0, [1, 3]⟩, ⟨1, [2, 4, 5]⟩] (fun c => if c = 1 ∨ c = 3 then 0 else 1)

/-- Each partition has a node of its own. -/
def apartLayout : Config :=
  pairLayout [⟨0, [1, 2]⟩, ⟨1, [3, 4, 5]⟩] (fun c => if c < 3 then 0 else 1)

theorem level2_defined_mixedLayout :
    (∀ n < mixedLayout.nrNumas,
      Represented mixedLayout (measured mixedLayout (evenStreams mixedLayout)) n) ∧
    ∀ pf, (abtstRebInNumas pf mixedLayout).fault (measured mixedLayout (evenStreams mixedLayout)) ≠
      some .divByZero := by
  have hrep : ∀ n < mixedLayout.nrNumas,
      Represented mixedLayout (measured mixedLayout (evenStreams mixedLayout)) n := by
    unfold Represented
    rw [Global.group_eq (measured_streams _ _)]
    decide
  exact ⟨hrep, (level2_defined_iff (pairLayout_disjoint _ _) (measured_fresh (by decide))
    (evenStreams_fits _)).mpr (Or.inr (fun n hn _ => hrep n hn))⟩

theorem level2_undefined_apartLayout :
    Fresh apartLayout (measured apartLayout (evenStreams apartLayout)) ∧
    ¬ ∀ pf, (abtstRebInNumas pf apartLayout).fault (measured apartLayout (evenStreams apartLayout)) ≠
      some .divByZero := by
  have hfresh : Fresh apartLayout (measured apartLayout (evenStreams apartLayout)) :=
    measured_fresh (by decide)
  refine ⟨hfresh, fun h => ?_⟩
  have hrep := represented_of_defined (pairLayout_disjoint _ _) hfresh (evenStreams_fits _) (by decide)
    (h sortedPlatform) (show 0 < apartLayout.nrNumas by decide) (by decide)
  have hone := hrep 1 (by decide)
  rw [Global.group_eq (measured_streams _ _)] at hone
  exact hone (by decide)

end AbtSt
