import AbtSt.Migration

/-! The statistics of a pass: depths of the streams, cores and depths of the
partitions, averages of the NUMA nodes and idle percentages. -/

namespace AbtSt

def getStreamIos (g : Global) (c : Nat) : Int :=
  (g.streams c).loadQ.foldl (fun count l => i32 (count + g.loadSize l)) 0

def calcStreamQdepth (_ : Stream) (ios : Nat) : Nat := ios

def abtstUpdateStreamsStat (cfg : Config) (g : Global) : Global :=
  { g with streams := fun c =>
      if c < cfg.nrCores ∧ (g.streams c).used = true then
        { g.streams c with totalQdepth := calcStreamQdepth (g.streams c) (u32 (getStreamIos g c)) }
      else g.streams c }

def abtstResetStreamsStat (cfg : Config) (g : Global) : Global :=
  { g with streams := fun c =>
      if c < cfg.nrCores ∧ (g.streams c).used = true then { g.streams c with sleepNsec := 0 }
      else g.streams c }

def abtstResetPartitionStats (g : Global) : Global :=
  { g with numaStats := fun _ _ => {}, stats := fun _ => {} }

def PartitionStat.add (s : PartitionStat) (qdepth : Nat) : PartitionStat :=
  ⟨s.usedCores + 1, (s.qdepth + qdepth) % 2 ^ 32⟩

/-- The inner loop body of `abtst_update_partition_stats`. -/
def addPartitionStat (i : Nat) (g : Global) (j : Nat) : Global :=
  let pid := (g.streams j).partId
  if (g.streams j).used = true then
    { g with
      numaStats := Function.update g.numaStats pid
        (Function.update (g.numaStats pid) i ((g.numaStats pid i).add (g.qdepth j)))
      stats := Function.update g.stats pid ((g.stats pid).add (g.qdepth j)) }
  else g

def abtstUpdatePartitionStats (cfg : Config) (g : Global) : Global :=
  (List.range cfg.nrNumas).foldl (fun g i => (cfg.coresOf i).foldl (addPartitionStat i) g)
    (abtstResetPartitionStats g)

def Global.setNumaStat (g : Global) (n : Nat) (s : NumaStat) : Global :=
  { g with numaStat := Function.update g.numaStat n s }

def abtstSetNumaStat (cfg : Config) (g : Global) (id cores qd : Nat) : Global :=
  if cfg.nrNumas ≤ id then g else g.setNumaStat id ⟨cores, qd⟩

/-- The loop of `update_numa_stat`: the depth of the used streams and their number. -/
def numaTotals (g : Global) (cores : List Nat) : Nat × Nat :=
  cores.foldl (fun t j => if (g.streams j).used = true
    then ((t.1 + g.qdepth j) % 2 ^ 32, t.2 + 1) else t) (0, 0)

def updateNumaStat (pf : Platform) (cfg : Config) (n : Nat) (g : Global) : Except Fault Global := do
  let t := numaTotals g (cfg.coresOf n)
  let avg ← pf.div t.1 t.2
  pure (abtstSetNumaStat cfg g n t.2 avg)

def sleepTotals (g : Global) (cores : List Nat) : Nat × Nat :=
  cores.foldl (fun t j => if (g.streams j).used = true
    then ((t.1 + (g.streams j).sleepNsec / 1000000) % 2 ^ 32, t.2 + 1) else t) (0, 0)

def abtstSetNumaPsPct (g : Global) (n pct : Nat) : Global :=
  { g with power := { g.power with psPct := Function.update g.power.psPct n pct } }

def updatePowerStat (pf : Platform) (cfg : Config) (n : Nat) (g : Global) : Except Fault Global :=
  let t := sleepTotals g (cfg.coresOf n)
  if t.2 ≠ 0 then do
    let q ← pf.div (t.1 / t.2 * 100 % 2 ^ 32) (u32 (1000 * g.rebalance.rebalanceInterval))
    let pct := i32 q
    pure (abtstSetNumaPsPct g n (u32 (if 100 < pct then 100 else pct)))
  else pure (abtstSetNumaPsPct g n 100)

def abtstGetAverageQdepth (cfg : Config) (g : Global) : Nat :=
  let t := (List.range cfg.nrNumas).foldl (fun t i =>
    let s := g.numaStat i
    if s.usedCores = 0 then t
    else ((t.1 + s.usedCores) % 2 ^ 32, (t.2 + s.avgQdepth * s.usedCores) % 2 ^ 32)) (0, 0)
  if t.1 = 0 then 0 else t.2 / t.1

def Global.inPart (g : Global) (p c : Nat) : Bool :=
  (g.streams c).used && (g.streams c).partId == p

def Global.group (g : Global) (cores : List Nat) (p : Nat) : List Nat :=
  cores.filter (g.inPart p)

def Global.usedIn (g : Global) (cores : List Nat) : List Nat :=
  cores.filter (fun c => (g.streams c).used)

def Global.depthOf (g : Global) (cores : List Nat) : Nat := (cores.map g.qdepth).sum

theorem Global.mem_group {g : Global} {cores : List Nat} {p c : Nat} :
    c ∈ g.group cores p ↔ c ∈ cores ∧ (g.streams c).used = true ∧ (g.streams c).partId = p := by
  simp [Global.group, Global.inPart]

theorem Global.mem_usedIn {g : Global} {cores : List Nat} {c : Nat} :
    c ∈ g.usedIn cores ↔ c ∈ cores ∧ (g.streams c).used = true := by
  simp [Global.usedIn]

theorem Global.group_nodup (g : Global) (cfg : Config) (n p : Nat) :
    (g.group (cfg.coresOf n) p).Nodup := (cfg.coresOf_nodup n).filter _

theorem Global.usedIn_nodup (g : Global) (cfg : Config) (n : Nat) :
    (g.usedIn (cfg.coresOf n)).Nodup := (cfg.coresOf_nodup n).filter _

theorem getStreamIos_emod (g : Global) (c : Nat) :
    u32 (getStreamIos g c) = u32 (g.sizeOf (g.streams c).loadQ) := by
  have h : ∀ (ls : List LoadId) (a : Int),
      (ls.foldl (fun count l => i32 (count + g.loadSize l)) a - (a + g.sizeOf ls)) % 2 ^ 32 = 0 := by
    intro ls
    induction ls with
    | nil => simp
    | cons l ls ih =>
      intro a
      have hh := ih (i32 (a + g.loadSize l))
      have hi := i32_sub_emod (a + g.loadSize l)
      simp only [List.foldl_cons, Global.sizeOf_cons]
      omega
  have hh := h (g.streams c).loadQ 0
  simp only [getStreamIos, u32]
  omega

/-- A stored statistic holds a number of cores and a depth modulo `2^32`. -/
def PartitionStat.Tallies (s : PartitionStat) (cores depth : Nat) : Prop :=
  s.usedCores = cores ∧ s.qdepth = depth % 2 ^ 32

instance (s : PartitionStat) (cores depth : Nat) : Decidable (s.Tallies cores depth) :=
  inferInstanceAs (Decidable (_ ∧ _))

theorem PartitionStat.Tallies.add {s : PartitionStat} {k q : Nat} (h : s.Tallies k q) (d : Nat) :
    (s.add d).Tallies (k + 1) (d + q) := by
  obtain ⟨hk, hq⟩ := h
  refine ⟨by simp [PartitionStat.add, hk], ?_⟩
  simp only [PartitionStat.add, hq]
  omega

theorem Global.group_cons (g : Global) (j : Nat) (js : List Nat) (p : Nat) :
    g.group (j :: js) p = if g.inPart p j = true then j :: g.group js p else g.group js p := by
  by_cases h : g.inPart p j = true <;> simp [Global.group, h]

theorem Global.depthOf_cons (g : Global) (j : Nat) (js : List Nat) :
    g.depthOf (j :: js) = g.qdepth j + g.depthOf js := rfl

theorem Global.depthOf_append (g : Global) (js ks : List Nat) :
    g.depthOf (js ++ ks) = g.depthOf js + g.depthOf ks := by
  simp [Global.depthOf]

theorem Global.group_congr {g s : Global} (hu : ∀ c, (s.streams c).used = (g.streams c).used)
    (hp : ∀ c, (s.streams c).partId = (g.streams c).partId) : s.group = g.group := by
  funext cores p
  unfold Global.group Global.inPart
  simp only [hu, hp]

theorem Global.usedIn_congr {g s : Global} (hu : ∀ c, (s.streams c).used = (g.streams c).used) :
    s.usedIn = g.usedIn := by
  funext cores
  unfold Global.usedIn
  simp only [hu]

theorem Global.group_eq {g s : Global} (h : s.streams = g.streams) : s.group = g.group :=
  Global.group_congr (fun c => by rw [h]) (fun c => by rw [h])

theorem Global.usedIn_eq {g s : Global} (h : s.streams = g.streams) : s.usedIn = g.usedIn :=
  Global.usedIn_congr (fun c => by rw [h])

theorem Global.depthOf_eq {g s : Global} (h : s.streams = g.streams) :
    s.depthOf = g.depthOf := by
  unfold Global.depthOf Global.qdepth
  rw [h]

theorem addPartitionStat_frame (i : Nat) (g : Global) (j : Nat) :
    ∃ t s, addPartitionStat i g j = { g with numaStats := t, stats := s } := by
  unfold addPartitionStat
  dsimp only
  split_ifs
  · exact ⟨_, _, rfl⟩
  · exact ⟨_, _, rfl⟩

theorem addPartitionStat_numaStats (i : Nat) (g : Global) (j p n : Nat) :
    (addPartitionStat i g j).numaStats p n =
      if g.inPart p j = true ∧ n = i then (g.numaStats p n).add (g.qdepth j)
      else g.numaStats p n := by
  unfold addPartitionStat Global.inPart
  by_cases hu : (g.streams j).used = true
  · by_cases hp : p = (g.streams j).partId
    · subst hp
      by_cases hn : n = i
      · subst hn; simp [hu]
      · simp [hu, hn]
    · have hp' : ¬ (g.streams j).partId = p := fun h => hp h.symm
      simp [hu, hp, hp']
  · simp [hu]

theorem addPartitionStat_stats (i : Nat) (g : Global) (j p : Nat) :
    (addPartitionStat i g j).stats p =
      if g.inPart p j = true then (g.stats p).add (g.qdepth j) else g.stats p := by
  unfold addPartitionStat Global.inPart
  by_cases hu : (g.streams j).used = true
  · by_cases hp : p = (g.streams j).partId
    · subst hp; simp [hu]
    · have hp' : ¬ (g.streams j).partId = p := fun h => hp h.symm
      simp [hu, hp, hp']
  · simp [hu]

theorem foldl_addPartitionStat_frame (i : Nat) (js : List Nat) (g : Global) :
    ∃ t s, js.foldl (addPartitionStat i) g = { g with numaStats := t, stats := s } := by
  induction js generalizing g with
  | nil => exact ⟨_, _, rfl⟩
  | cons j js ih =>
    obtain ⟨t, s, h⟩ := addPartitionStat_frame i g j
    obtain ⟨t', s', h'⟩ := ih (addPartitionStat i g j)
    refine ⟨t', s', ?_⟩
    rw [List.foldl_cons, h', h]

theorem foldl_addPartitionStat_tallies (i : Nat) (js : List Nat) (g : Global) (p : Nat)
    (A B : Nat → Nat) (C D : Nat) (hn : ∀ n, (g.numaStats p n).Tallies (A n) (B n))
    (hs : (g.stats p).Tallies C D) :
    (∀ n, ((js.foldl (addPartitionStat i) g).numaStats p n).Tallies
      (A n + if n = i then (g.group js p).length else 0)
      (B n + if n = i then g.depthOf (g.group js p) else 0)) ∧
    ((js.foldl (addPartitionStat i) g).stats p).Tallies
      (C + (g.group js p).length) (D + g.depthOf (g.group js p)) := by
  induction js generalizing g A B C D with
  | nil => simpa [Global.group, Global.depthOf] using ⟨hn, hs⟩
  | cons j js ih =>
    obtain ⟨t, s, hf⟩ := addPartitionStat_frame i g j
    have hstr : (addPartitionStat i g j).streams = g.streams := by rw [hf]
    have hg := Global.group_eq hstr
    have hd := Global.depthOf_eq hstr
    rw [List.foldl_cons, Global.group_cons]
    by_cases hp : g.inPart p j = true
    · have hh := ih (addPartitionStat i g j)
        (fun n => if n = i then A n + 1 else A n)
        (fun n => if n = i then g.qdepth j + B n else B n) (C + 1) (g.qdepth j + D)
        (by
          intro n
          rw [addPartitionStat_numaStats]
          by_cases h : n = i
          · simpa [hp, h] using (hn i).add (g.qdepth j)
          · simpa [h] using hn n)
        (by
          rw [addPartitionStat_stats, if_pos hp]
          exact hs.add (g.qdepth j))
      rw [hg, hd] at hh
      simp only [hp, if_true, List.length_cons, Global.depthOf_cons]
      refine ⟨?_, ?_⟩
      · intro n
        have := hh.1 n
        by_cases h : n = i
        · simp only [h, if_true] at this ⊢
          rw [show A i + ((g.group js p).length + 1) = A i + 1 + (g.group js p).length by omega,
            show B i + (g.qdepth j + g.depthOf (g.group js p)) =
              g.qdepth j + B i + g.depthOf (g.group js p) by omega]
          exact this
        · simpa only [h, if_false] using this
      · rw [show C + ((g.group js p).length + 1) = C + 1 + (g.group js p).length by omega,
          show D + (g.qdepth j + g.depthOf (g.group js p)) =
            g.qdepth j + D + g.depthOf (g.group js p) by omega]
        exact hh.2
    · have hh := ih (addPartitionStat i g j) A B C D
        (by
          intro n
          rw [addPartitionStat_numaStats, if_neg (fun h => hp h.1)]
          exact hn n)
        (by
          rw [addPartitionStat_stats, if_neg hp]
          exact hs)
      rw [hg, hd] at hh
      rw [if_neg hp]
      exact hh

theorem foldl_numas_tallies (cfg : Config) (is : List Nat) (hnd : is.Nodup) (g : Global) (p : Nat)
    (A B : Nat → Nat) (C D : Nat) (hn : ∀ n, (g.numaStats p n).Tallies (A n) (B n))
    (hs : (g.stats p).Tallies C D) :
    (∀ n, ((is.foldl (fun g i => (cfg.coresOf i).foldl (addPartitionStat i) g) g).numaStats p n).Tallies
      (A n + if n ∈ is then (g.group (cfg.coresOf n) p).length else 0)
      (B n + if n ∈ is then g.depthOf (g.group (cfg.coresOf n) p) else 0)) ∧
    ((is.foldl (fun g i => (cfg.coresOf i).foldl (addPartitionStat i) g) g).stats p).Tallies
      (C + (is.map (fun n => (g.group (cfg.coresOf n) p).length)).sum)
      (D + (is.map (fun n => g.depthOf (g.group (cfg.coresOf n) p))).sum) := by
  induction is generalizing g A B C D with
  | nil => simpa using ⟨hn, hs⟩
  | cons i is ih =>
    obtain ⟨t, s, hf⟩ := foldl_addPartitionStat_frame i (cfg.coresOf i) g
    obtain ⟨h1, h2⟩ := foldl_addPartitionStat_tallies i (cfg.coresOf i) g p A B C D hn hs
    have hh := ih (List.nodup_cons.mp hnd).2 _ _ _ _ _ h1 h2
    have hi := (List.nodup_cons.mp hnd).1
    have hstr : ((cfg.coresOf i).foldl (addPartitionStat i) g).streams = g.streams := by rw [hf]
    rw [Global.group_eq hstr, Global.depthOf_eq hstr] at hh
    rw [List.foldl_cons]
    refine ⟨?_, ?_⟩
    · intro n
      have := hh.1 n
      by_cases h : n = i
      · subst h
        simpa [hi] using this
      · simpa [h] using this
    · simpa [Nat.add_assoc] using hh.2

theorem abtstUpdatePartitionStats_frame (cfg : Config) (g : Global) :
    ∃ t s, abtstUpdatePartitionStats cfg g = { g with numaStats := t, stats := s } := by
  have h : ∀ (is : List Nat) (g : Global), ∃ t s,
      is.foldl (fun g i => (cfg.coresOf i).foldl (addPartitionStat i) g) g =
        { g with numaStats := t, stats := s } := by
    intro is
    induction is with
    | nil => exact fun g => ⟨_, _, rfl⟩
    | cons i is ih =>
      intro g
      obtain ⟨t, s, hf⟩ := foldl_addPartitionStat_frame i (cfg.coresOf i) g
      obtain ⟨t', s', hf'⟩ := ih { g with numaStats := t, stats := s }
      refine ⟨t', s', ?_⟩
      rw [List.foldl_cons, hf, hf']
  obtain ⟨t, s, hf⟩ := h (List.range cfg.nrNumas) (abtstResetPartitionStats g)
  exact ⟨t, s, hf⟩

theorem abtstUpdatePartitionStats_numaStats (cfg : Config) (g : Global) (p : Nat) {n : Nat}
    (hn : n < cfg.nrNumas) :
    ((abtstUpdatePartitionStats cfg g).numaStats p n).Tallies
      (g.group (cfg.coresOf n) p).length (g.depthOf (g.group (cfg.coresOf n) p)) := by
  have h := (foldl_numas_tallies cfg (List.range cfg.nrNumas) List.nodup_range
    (abtstResetPartitionStats g) p (fun _ => 0) (fun _ => 0) 0 0
    (fun _ => ⟨rfl, rfl⟩) ⟨rfl, rfl⟩).1 n
  rw [Global.group_eq (s := abtstResetPartitionStats g) (g := g) rfl,
    Global.depthOf_eq (s := abtstResetPartitionStats g) (g := g) rfl] at h
  simp only [List.mem_range, hn, if_true, Nat.zero_add] at h
  exact h

theorem abtstUpdatePartitionStats_stats (cfg : Config) (g : Global) (p : Nat) :
    ((abtstUpdatePartitionStats cfg g).stats p).Tallies
      ((List.range cfg.nrNumas).map (fun n => (g.group (cfg.coresOf n) p).length)).sum
      ((List.range cfg.nrNumas).map (fun n => g.depthOf (g.group (cfg.coresOf n) p))).sum := by
  have h := (foldl_numas_tallies cfg (List.range cfg.nrNumas) List.nodup_range
    (abtstResetPartitionStats g) p (fun _ => 0) (fun _ => 0) 0 0
    (fun _ => ⟨rfl, rfl⟩) ⟨rfl, rfl⟩).2
  rw [Global.group_eq (s := abtstResetPartitionStats g) (g := g) rfl,
    Global.depthOf_eq (s := abtstResetPartitionStats g) (g := g) rfl] at h
  simp only [Nat.zero_add] at h
  exact h

theorem usedTotals_eq (g : Global) (f : Nat → Nat) (cores : List Nat) :
    cores.foldl (fun t j => if (g.streams j).used = true
      then ((t.1 + f j) % 2 ^ 32, t.2 + 1) else t) (0, 0) =
      (((g.usedIn cores).map f).sum % 2 ^ 32, (g.usedIn cores).length) := by
  have h : ∀ (cs : List Nat) (q k : Nat),
      cs.foldl (fun t j => if (g.streams j).used = true
        then ((t.1 + f j) % 2 ^ 32, t.2 + 1) else t) (q % 2 ^ 32, k) =
      ((q + ((g.usedIn cs).map f).sum) % 2 ^ 32, k + (g.usedIn cs).length) := by
    intro cs
    induction cs with
    | nil => simp [Global.usedIn]
    | cons c cs ih =>
      intro q k
      by_cases hc : (g.streams c).used = true
      · have hh := ih (q + f c) (k + 1)
        simp only [List.foldl_cons, hc, if_true, Nat.mod_add_mod]
        rw [hh]
        simp only [Global.usedIn, List.filter_cons, hc, if_true, List.map_cons, List.sum_cons,
          List.length_cons]
        rw [Nat.add_assoc, Nat.add_assoc, Nat.add_comm 1]
      · simpa [Global.usedIn, List.filter_cons, hc] using ih q k
  simpa using h cores 0 0

theorem numaTotals_eq (g : Global) (cores : List Nat) :
    numaTotals g cores = (g.depthOf (g.usedIn cores) % 2 ^ 32, (g.usedIn cores).length) :=
  usedTotals_eq g g.qdepth cores

theorem sleepTotals_eq (g : Global) (cores : List Nat) :
    sleepTotals g cores =
      (((g.usedIn cores).map fun c => (g.streams c).sleepNsec / 1000000).sum % 2 ^ 32,
        (g.usedIn cores).length) :=
  usedTotals_eq g (fun c => (g.streams c).sleepNsec / 1000000) cores

theorem updateNumaStat_div {pf : Platform} {cfg : Config} {g g' : Global} {n : Nat}
    (hn : n < cfg.nrNumas) (h : updateNumaStat pf cfg n g = .ok g') :
    ∃ avg, pf.div (g.depthOf (g.usedIn (cfg.coresOf n)) % 2 ^ 32)
        (g.usedIn (cfg.coresOf n)).length = .ok avg ∧
      g' = g.setNumaStat n ⟨(g.usedIn (cfg.coresOf n)).length, avg⟩ := by
  unfold updateNumaStat at h
  simp only [numaTotals_eq] at h
  obtain ⟨avg, hd, h⟩ := except_bind_eq_ok.mp h
  simp only [pure, Except.pure, Except.ok.injEq] at h
  refine ⟨avg, hd, ?_⟩
  rw [← h, abtstSetNumaStat, if_neg (by omega)]

theorem updateNumaStat_ok {pf : Platform} {cfg : Config} {g g' : Global} {n : Nat}
    (hn : n < cfg.nrNumas) (h : updateNumaStat pf cfg n g = .ok g') :
    ∃ avg, g' = g.setNumaStat n ⟨(g.usedIn (cfg.coresOf n)).length, avg⟩ ∧
      (g.usedIn (cfg.coresOf n) ≠ [] →
        avg = g.depthOf (g.usedIn (cfg.coresOf n)) % 2 ^ 32 / (g.usedIn (cfg.coresOf n)).length) := by
  obtain ⟨avg, hd, rfl⟩ := updateNumaStat_div hn h
  refine ⟨avg, rfl, ?_⟩
  intro hne
  have hpos : (g.usedIn (cfg.coresOf n)).length ≠ 0 := by simpa using hne
  rw [Platform.div_pos hpos, Except.ok.injEq] at hd
  exact hd.symm

theorem updateNumaStat_error {pf : Platform} {cfg : Config} {g : Global} {n : Nat} {e : Fault}
    (h : updateNumaStat pf cfg n g = .error e) :
    e = .divByZero ∧ g.usedIn (cfg.coresOf n) = [] := by
  unfold updateNumaStat at h
  simp only [numaTotals_eq] at h
  rcases except_bind_eq_error.mp h with h | ⟨_, _, h⟩
  · refine ⟨(Platform.div_error h).1, ?_⟩
    by_contra hne
    have hpos : (g.usedIn (cfg.coresOf n)).length ≠ 0 := by simpa using hne
    rw [Platform.div_pos hpos] at h
    cases h
  · cases h

theorem updatePowerStat_ok {pf : Platform} {cfg : Config} {g g' : Global} {n : Nat}
    (h : updatePowerStat pf cfg n g = .ok g') : ∃ pct, g' = abtstSetNumaPsPct g n pct := by
  unfold updatePowerStat at h
  dsimp only at h
  by_cases hz : (sleepTotals g (cfg.coresOf n)).2 ≠ 0
  · rw [if_pos hz] at h
    obtain ⟨q, _, h⟩ := except_bind_eq_ok.mp h
    exact ⟨_, (Except.ok.inj h).symm⟩
  · rw [if_neg hz] at h
    exact ⟨_, (Except.ok.inj h).symm⟩

theorem updatePowerStat_error {pf : Platform} {cfg : Config} {g : Global} {n : Nat} {e : Fault}
    (h : updatePowerStat pf cfg n g = .error e) :
    e = .divByZero ∧ u32 (1000 * g.rebalance.rebalanceInterval) = 0 := by
  unfold updatePowerStat at h
  dsimp only at h
  by_cases hz : (sleepTotals g (cfg.coresOf n)).2 ≠ 0
  · rw [if_pos hz] at h
    rcases except_bind_eq_error.mp h with h | ⟨_, _, h⟩
    · exact Platform.div_error h
    · cases h
  · rw [if_neg hz] at h
    cases h

end AbtSt
