import AbtSt.Depth

/-! Level 2 over many passes. A core leaves a partition only when the rest of
the partition stays at or below the average of the node, and joins one only
when that stays at or above it. With at most 100 used cores no partition is on
both sides, so no core is traded back. -/

namespace AbtSt

/-- The core moves of a log: the partition that loses a core and the one that
gains it. -/
def coreMoves (g : Global) (log : List (Act × Global)) : List (Nat × Nat) :=
  log.filterMap fun e =>
    match e.1 with
    | .setPartition c p => some ((g.streams c).partId, p)
    | _ => none

structure SameLabels (g s : Global) : Prop where
  used : ∀ c, (s.streams c).used = (g.streams c).used
  partId : ∀ c, (s.streams c).partId = (g.streams c).partId

theorem SameLabels.refl (g : Global) : SameLabels g g := ⟨fun _ => rfl, fun _ => rfl⟩

theorem SameLabels.trans {g s t : Global} (h : SameLabels g s) (h' : SameLabels s t) :
    SameLabels g t :=
  ⟨fun c => (h'.used c).trans (h.used c), fun c => (h'.partId c).trans (h.partId c)⟩

/-- The labels of some of the cores. -/
structure SameLabelsIn (cores : List Nat) (g s : Global) : Prop where
  used : ∀ c ∈ cores, (s.streams c).used = (g.streams c).used
  partId : ∀ c ∈ cores, (s.streams c).partId = (g.streams c).partId

theorem SameLabels.trans_in {g s t : Global} {cores : List Nat} (h : SameLabels g s)
    (h' : SameLabelsIn cores s t) : SameLabelsIn cores g t :=
  ⟨fun c hc => (h'.used c hc).trans (h.used c), fun c hc => (h'.partId c hc).trans (h.partId c)⟩

theorem SameLabelsIn.group {g s : Global} {cores : List Nat} (h : SameLabelsIn cores g s) (p : Nat) :
    s.group cores p = g.group cores p := by
  refine List.filter_congr (fun c hc => ?_)
  rw [Global.inPart, Global.inPart, h.used c hc, h.partId c hc]

theorem setPartitionId_self (c p : Nat) (g : Global) : ((setPartitionId c p g).streams c).partId = p := by
  simp [setPartitionId, Global.setStream]

theorem setPartitionId_other {c d : Nat} (h : d ≠ c) (p : Nat) (g : Global) :
    (setPartitionId c p g).streams d = g.streams d := by
  simp [setPartitionId, Global.setStream, h]

theorem SameLabels.setPartitionId {g s : Global} (h : SameLabels g s) (c p : Nat) :
    SameLabels (setPartitionId c p g) (setPartitionId c p s) := by
  constructor <;> intro d <;> by_cases hd : d = c
  all_goals first
    | (subst hd; simp [AbtSt.setPartitionId, Global.setStream, h.used])
    | simp [AbtSt.setPartitionId, Global.setStream, hd, h.used, h.partId]

structure CoreMove (pf : Platform) (cfg : Config) (n : Nat) (g : Global) (c p : Nat) : Prop where
  numa : n < cfg.nrNumas
  mem : c ∈ cfg.coresOf n
  used : (g.streams c).used = true
  receiver_lt : p < cfg.nrPartitions
  ne : (g.streams c).partId ≠ p
  give : canGive g n (g.streams c).partId = true
  take : canTake pf g n p = .ok true

theorem rebInNuma_turn (pf : Platform) (cfg : Config) (n : Nat) (g : Global) :
    (coreMoves g ((rebInNuma pf cfg n).run g).log = [] ∧
      SameLabels g ((rebInNuma pf cfg n).run g).st) ∨
    ∃ c p, CoreMove pf cfg n g c p ∧
      coreMoves g ((rebInNuma pf cfg n).run g).log = [((g.streams c).partId, p)] ∧
      SameLabels (setPartitionId c p g) ((rebInNuma pf cfg n).run g).st := by
  unfold Prog.run rebInNuma readStats
  simp only [bind_assoc, Prog.exec_act_bind, Prog.exec_read_bind, id_eq, List.nil_append]
  cases hp : sortPartitions pf cfg g (some n) with
  | error e =>
    rw [Prog.exec_lift_error_bind]
    exact Or.inl ⟨rfl, .refl g⟩
  | ok parts =>
    rw [Prog.exec_lift_ok_bind]
    cases hc : choosePartitions pf g n parts with
    | error e =>
      rw [Prog.exec_lift_error_bind]
      exact Or.inl ⟨rfl, .refl g⟩
    | ok r =>
      rw [Prog.exec_lift_ok_bind]
      cases r with
      | none => exact Or.inl ⟨rfl, .refl g⟩
      | some pids =>
        obtain ⟨fromPid, toPid⟩ := pids
        dsimp only
        cases hs : sortStreams pf cfg g (some n) (some fromPid) with
        | none => exact Or.inl ⟨rfl, .refl g⟩
        | some params =>
          dsimp only
          cases hch : chooseStreams cfg g (g.numaStats fromPid n).usedCores params with
          | error e =>
            rw [Prog.exec_lift_error_bind]
            exact Or.inl ⟨rfl, .refl g⟩
          | ok r =>
            rw [Prog.exec_lift_ok_bind]
            have hcol := sortStreams_some hs
            obtain ⟨hends, h1, _⟩ := chooseStreams_ok hcol hch
            obtain ⟨hm, hu, hfrom⟩ := Global.mem_group.mp h1
            unfold combineStreams
            cases hcomb : abtstCombineStreams g r.1 r.2 with
            | error e =>
              rw [Prog.exec_perform_error_bind hcomb]
              exact Or.inl ⟨rfl, .refl g⟩
            | ok s =>
              rw [Prog.exec_perform_ok_bind hcomb]
              obtain ⟨hgive, htake, i, e, e', hi, he, he', hto⟩ := choosePartitions_some hc
              have hperm := sortPartitions_ok hp
              have hlt := List.mem_range.mp
                (hperm.mem_iff.mp (List.mem_map_of_mem (List.mem_of_mem_drop he')))
              have hne := stream_ne_of_nodup (hperm.nodup_iff.mpr List.nodup_range) (entry_ok hi) he'
              have hshape := combine_sameShape hends.ne hcomb
              refine Or.inr ⟨r.1, toPid, ⟨hcol.numa, hm, hu, ?_, ?_, ?_, htake⟩, ?_, ?_⟩
              · rw [← hto]
                exact hlt
              · rw [hfrom, ← he, ← hto]
                exact hne
              · rw [hfrom]
                exact hgive
              · rfl
              · obtain ⟨t, u, hf⟩ := abtstUpdatePartitionStats_frame cfg (setPartitionId r.1 toPid s)
                have hlast := SameLabels.setPartitionId ⟨hshape.used, hshape.partId⟩ r.1 toPid
                unfold updatePartitionStats
                rw [Prog.exec_act_bind, Prog.exec_act]
                dsimp only
                rw [hf]
                exact ⟨hlast.used, hlast.partId⟩

theorem sum_ite_range (a w k : Nat) :
    ((List.range k).map fun p => if a = p then w else 0).sum = if a < k then w else 0 := by
  induction k with
  | zero => simp
  | succ k ih =>
    rw [List.range_succ, List.map_append, List.sum_append, ih]
    by_cases h : a = k
    · subst h
      simp
    · have hiff : a < k + 1 ↔ a < k := by omega
      simp [h, hiff]

theorem sum_fibers {α : Type} (f w : α → Nat) (k : Nat) (l : List α) (h : ∀ x ∈ l, f x < k) :
    ((List.range k).map fun p => ((l.filter fun x => f x == p).map w).sum).sum = (l.map w).sum := by
  induction l with
  | nil => simp
  | cons x l ih =>
    have hsplit : ((List.range k).map fun p => (((x :: l).filter fun y => f y == p).map w).sum) =
        (List.range k).map fun p => (if f x = p then w x else 0) +
          ((l.filter fun y => f y == p).map w).sum := by
      refine List.map_congr_left (fun p _ => ?_)
      by_cases hp : f x = p <;> simp [hp]
    rw [hsplit, List.sum_map_add, sum_ite_range, if_pos (h x (by simp)),
      ih (fun y hy => h y (by simp [hy])), List.map_cons, List.sum_cons]

theorem Global.group_eq_filter (g : Global) (cores : List Nat) (p : Nat) :
    g.group cores p = (g.usedIn cores).filter fun c => (g.streams c).partId == p := by
  unfold Global.group Global.usedIn Global.inPart
  rw [List.filter_filter]
  refine List.filter_congr (fun c _ => ?_)
  exact Bool.and_comm _ _

def coreCount (cfg : Config) (n : Nat) (g : Global) (p : Nat) : Nat :=
  (g.group (cfg.coresOf n) p).length

theorem SameLabelsIn.coreCount {cfg : Config} {n : Nat} {g s : Global}
    (h : SameLabelsIn (cfg.coresOf n) g s) : coreCount cfg n s = coreCount cfg n g := by
  funext p
  rw [AbtSt.coreCount, AbtSt.coreCount, h.group]

/-- The used cores of the node belong to partitions that exist. -/
def PartsInNode (cfg : Config) (n : Nat) (g : Global) : Prop :=
  ∀ c ∈ cfg.coresOf n, (g.streams c).used = true → (g.streams c).partId < cfg.nrPartitions

section Counts

variable {cfg : Config} {n : Nat} {g : Global}

theorem sum_coreCount (h : PartsInNode cfg n g) :
    ((List.range cfg.nrPartitions).map (coreCount cfg n g)).sum = (g.usedIn (cfg.coresOf n)).length := by
  have hf := sum_fibers (fun c => (g.streams c).partId) (fun _ => 1) cfg.nrPartitions
    (g.usedIn (cfg.coresOf n))
    (fun c hc => h c (Global.mem_usedIn.mp hc).1 (Global.mem_usedIn.mp hc).2)
  have hcount : coreCount cfg n g = fun p =>
      ((g.usedIn (cfg.coresOf n)).filter fun c => (g.streams c).partId == p).length := by
    funext p
    rw [coreCount, Global.group_eq_filter]
  simpa [hcount] using hf

theorem sum_depthOf_group (h : PartsInNode cfg n g) :
    ((List.range cfg.nrPartitions).map fun p => g.depthOf (g.group (cfg.coresOf n) p)).sum =
      g.depthOf (g.usedIn (cfg.coresOf n)) := by
  have hf := sum_fibers (fun c => (g.streams c).partId) g.qdepth cfg.nrPartitions
    (g.usedIn (cfg.coresOf n))
    (fun c hc => h c (Global.mem_usedIn.mp hc).1 (Global.mem_usedIn.mp hc).2)
  simpa [Global.depthOf, Global.group_eq_filter] using hf

theorem coreCount_setPartitionId {c p : Nat} (hc : c ∈ cfg.coresOf n)
    (hu : (g.streams c).used = true) (hne : (g.streams c).partId ≠ p) (q : Nat) :
    coreCount cfg n (setPartitionId c p g) q + (if q = (g.streams c).partId then 1 else 0) =
      coreCount cfg n g q + if q = p then 1 else 0 := by
  have hperm := List.perm_cons_erase hc
  have hself : ∀ q, (setPartitionId c p g).inPart q c = decide (q = p) := by
    intro q
    by_cases hq : q = p
    · subst hq
      simp [Global.inPart, setPartitionId, Global.setStream, hu]
    · simp [Global.inPart, setPartitionId, Global.setStream, hq, Ne.symm hq]
  have hold : ∀ q, g.inPart q c = decide (q = (g.streams c).partId) := by
    intro q
    simp [Global.inPart, hu, eq_comm, beq_eq_decide]
  have hrest : ((cfg.coresOf n).erase c).countP ((setPartitionId c p g).inPart q) =
      ((cfg.coresOf n).erase c).countP (g.inPart q) := by
    refine List.countP_congr (fun d hd => ?_)
    have hdc : d ≠ c := fun he => (cfg.coresOf_nodup n).not_mem_erase (he ▸ hd)
    simp [Global.inPart, setPartitionId, Global.setStream, hdc]
  unfold coreCount Global.group
  rw [← List.countP_eq_length_filter, ← List.countP_eq_length_filter, hperm.countP_eq,
    hperm.countP_eq, List.countP_cons, List.countP_cons, hrest, hself, hold]
  by_cases h1 : q = p
  · subst h1
    simp [hne.symm]
  · by_cases h2 : q = (g.streams c).partId <;> simp [h1, h2, hne]

end Counts

/-- The donor test on the numbers: a depth `q` shared by `u` cores, and the
average `a` of the node. -/
def CanLose (a q u : Nat) : Prop := 1 < u ∧ q / (u - 1) ≤ a

def CanGain (a q u : Nat) : Prop := a ≤ q / (u + 1) ∧ 100 < q / u

/-- With few cores, truncation does not make a partition eligible for both
roles at adjacent counts. -/
theorem not_canGain_of_canLose {a q u : Nat} (hu : u ≤ 100) (hl : CanLose a q (u + 1)) :
    ¬ CanGain a q u := by
  rintro ⟨hge, hbusy⟩
  obtain ⟨hpos, hle⟩ := hl
  rw [Nat.add_sub_cancel] at hle
  have h1 : a * (u + 1) ≤ q := (Nat.le_div_iff_mul_le (Nat.succ_pos u)).mp hge
  have h2 : q < (a + 1) * u := (Nat.div_lt_iff_lt_mul (by omega)).mp (by omega)
  have h3 : a * (u + 1) = a * u + a := Nat.mul_succ a u
  have h4 : (a + 1) * u = a * u + u := Nat.succ_mul a u
  omega

/-- A state in which `reb_in_numa` is run: the statistics of the node are refreshed,
and each partition has its fixed depth there. -/
structure Ready (cfg : Config) (n : Nat) (q : Nat → Nat) (g : Global) : Prop where
  stat : ∀ p < cfg.nrPartitions, (g.numaStats p n).Tallies (coreCount cfg n g p) (q p)
  avg : g.usedIn (cfg.coresOf n) ≠ [] → (g.numaStat n).avgQdepth =
    g.depthOf (g.usedIn (cfg.coresOf n)) % 2 ^ 32 / (g.usedIn (cfg.coresOf n)).length
  depth : ∀ p < cfg.nrPartitions, g.depthOf (g.group (cfg.coresOf n) p) = q p

/-- Successive runs of `reb_in_numa` on a node with the core moves they make.
Between them the cores of the node keep their labels, loads move inside the
partitions and the statistics are refreshed. -/
inductive LevelTwo (cfg : Config) (n : Nat) (q : Nat → Nat) (g : Global) :
    List (Nat × Nat) → Global → Prop
  | start : Ready cfg n q g → LevelTwo cfg n q g [] g
  | turn {ms : List (Nat × Nat)} {s t : Global} (pf : Platform) : LevelTwo cfg n q g ms s →
      SameLabelsIn (cfg.coresOf n) ((rebInNuma pf cfg n).run s).st t → Ready cfg n q t →
      LevelTwo cfg n q g (ms ++ coreMoves s ((rebInNuma pf cfg n).run s).log) t

def levelAvg (cfg : Config) (n : Nat) (q : Nat → Nat) (g : Global) : Nat :=
  ((List.range cfg.nrPartitions).map q).sum % 2 ^ 32 / (g.usedIn (cfg.coresOf n)).length

structure Traded (cfg : Config) (n : Nat) (q : Nat → Nat) (g : Global) (ms : List (Nat × Nat))
    (s : Global) : Prop where
  ready : Ready cfg n q s
  used : ∀ c ∈ cfg.coresOf n, (s.streams c).used = (g.streams c).used
  parts : PartsInNode cfg n s
  pos : ∀ p < cfg.nrPartitions, 0 < coreCount cfg n s p
  lost : ∀ p ∈ ms.map Prod.fst, ¬ CanGain (levelAvg cfg n q g) (q p % 2 ^ 32) (coreCount cfg n s p)
  gained : ∀ p ∈ ms.map Prod.snd, ¬ CanLose (levelAvg cfg n q g) (q p % 2 ^ 32) (coreCount cfg n s p)
  disjoint : ∀ p ∈ ms.map Prod.fst, p ∉ ms.map Prod.snd
  lost_lt : ∀ p ∈ ms.map Prod.fst, p < cfg.nrPartitions
  balance : ∀ p, coreCount cfg n g p + (ms.map Prod.snd).count p =
    coreCount cfg n s p + (ms.map Prod.fst).count p

section Turn

variable {cfg : Config} {n : Nat} {q : Nat → Nat} {g s : Global} {ms : List (Nat × Nat)}

theorem Traded.usedIn (h : Traded cfg n q g ms s) :
    s.usedIn (cfg.coresOf n) = g.usedIn (cfg.coresOf n) :=
  List.filter_congr h.used

theorem Traded.avgQdepth (h : Traded cfg n q g ms s) (hne : s.usedIn (cfg.coresOf n) ≠ []) :
    (s.numaStat n).avgQdepth = levelAvg cfg n q g := by
  have hsum : ((List.range cfg.nrPartitions).map fun p => s.depthOf (s.group (cfg.coresOf n) p)) =
      (List.range cfg.nrPartitions).map q :=
    List.map_congr_left (fun p hp => h.ready.depth p (List.mem_range.mp hp))
  rw [h.ready.avg hne, levelAvg, ← hsum, sum_depthOf_group h.parts, ← h.usedIn]

theorem Traded.tests (h : Traded cfg n q g ms s) {pf : Platform} {c p : Nat}
    (hm : CoreMove pf cfg n s c p) :
    CanLose (levelAvg cfg n q g) (q (s.streams c).partId % 2 ^ 32)
      (coreCount cfg n s (s.streams c).partId) ∧
    CanGain (levelAvg cfg n q g) (q p % 2 ^ 32) (coreCount cfg n s p) := by
  have hne : s.usedIn (cfg.coresOf n) ≠ [] :=
    List.ne_nil_of_mem (Global.mem_usedIn.mpr ⟨hm.mem, hm.used⟩)
  have havg := h.avgQdepth hne
  constructor
  · have hg := hm.give
    obtain ⟨hcores, hdepth⟩ := h.ready.stat _ (h.parts c hm.mem hm.used)
    rw [canGive, hcores, hdepth, havg] at hg
    simpa [CanLose] using hg
  · have ht := hm.take
    have hpos := h.pos p hm.receiver_lt
    obtain ⟨hcores, hdepth⟩ := h.ready.stat p hm.receiver_lt
    rw [canTake, hcores, hdepth, havg] at ht
    rw [Platform.div_pos (by omega)] at ht
    split_ifs at ht with hge
    · have hb : minIosToStartReb < ((q p % 2 ^ 32 / coreCount cfg n s p : Nat) : Int) := by
        simpa using Except.ok.inj ht
      unfold minIosToStartReb at hb
      exact ⟨hge, by omega⟩
    · cases ht

theorem Traded.same (h : Traded cfg n q g ms s) {t : Global} (hs : SameLabelsIn (cfg.coresOf n) s t)
    (ht : Ready cfg n q t) : Traded cfg n q g ms t := by
  have hcount := hs.coreCount
  refine ⟨ht, fun c hc => (hs.used c hc).trans (h.used c hc), ?_, ?_, ?_, ?_, h.disjoint, h.lost_lt, ?_⟩
  · intro c hc hu
    rw [hs.used c hc] at hu
    rw [hs.partId c hc]
    exact h.parts c hc hu
  · rw [hcount]
    exact h.pos
  · rw [hcount]
    exact h.lost
  · rw [hcount]
    exact h.gained
  · rw [hcount]
    exact h.balance

theorem Traded.coreCount_le (h : Traded cfg n q g ms s)
    (h100 : (g.usedIn (cfg.coresOf n)).length ≤ 100) (p : Nat) : coreCount cfg n s p ≤ 100 := by
  rw [← h.usedIn] at h100
  unfold coreCount
  rw [Global.group_eq_filter]
  exact Nat.le_trans (List.length_filter_le _ _) h100

/-- A count moves by one from `f` to `p`. -/
structure Handed (k k' : Nat → Nat) (f p : Nat) : Prop where
  ne : f ≠ p
  source : k' f + 1 = k f
  target : k' p = k p + 1
  other : ∀ r, r ≠ f → r ≠ p → k' r = k r

theorem CoreMove.handed {pf : Platform} {c p : Nat} (hm : CoreMove pf cfg n s c p) {t : Global}
    (hs : SameLabelsIn (cfg.coresOf n) (setPartitionId c p s) t) :
    Handed (coreCount cfg n s) (coreCount cfg n t) (s.streams c).partId p := by
  have hcount := coreCount_setPartitionId hm.mem hm.used hm.ne
  rw [← hs.coreCount] at hcount
  refine ⟨hm.ne, ?_, ?_, ?_⟩
  · simpa [hm.ne] using hcount (s.streams c).partId
  · simpa [Ne.symm hm.ne] using hcount p
  · intro r h1 h2
    simpa [h1, h2] using hcount r

theorem Handed.pos {k k' : Nat → Nat} {f p r : Nat} (h : Handed k k' f p) (hf : 1 < k f)
    (hr : 0 < k r) : 0 < k' r := by
  have hsource := h.source
  have htarget := h.target
  by_cases hrf : r = f
  · subst hrf
    omega
  · by_cases hrp : r = p
    · subst hrp
      omega
    · rw [h.other r hrf hrp]
      exact hr

theorem Handed.balance {k k' : Nat → Nat} {f p : Nat} (h : Handed k k' f p) {r j : Nat}
    (hb : j + (ms.map Prod.snd).count r = k r + (ms.map Prod.fst).count r) :
    j + ((ms ++ [(f, p)]).map Prod.snd).count r = k' r + ((ms ++ [(f, p)]).map Prod.fst).count r := by
  have hsource := h.source
  have htarget := h.target
  rw [List.map_append, List.map_append, List.count_append, List.count_append]
  simp only [List.map_cons, List.map_nil]
  by_cases hrf : r = f
  · subst hrf
    have hzero : List.count r [p] = 0 := by simp [Ne.symm h.ne]
    have hone : List.count r [r] = 1 := by simp
    omega
  · have hzero : List.count r [f] = 0 := by simp [Ne.symm hrf]
    by_cases hrp : r = p
    · subst hrp
      have hone : List.count r [r] = 1 := by simp
      omega
    · rw [h.other r hrf hrp]
      simpa [Ne.symm hrf, Ne.symm hrp] using hb

theorem Traded.move (h : Traded cfg n q g ms s) (h100 : (g.usedIn (cfg.coresOf n)).length ≤ 100)
    {pf : Platform} {c p : Nat} (hm : CoreMove pf cfg n s c p) {t : Global}
    (hs : SameLabelsIn (cfg.coresOf n) (setPartitionId c p s) t) (ht : Ready cfg n q t) :
    Traded cfg n q g (ms ++ [((s.streams c).partId, p)]) t := by
  obtain ⟨hlose, hgain⟩ := h.tests hm
  have hk := hm.handed hs
  have hle := h.coreCount_le h100
  have hq := setPartitionId_queues c p s
  have hfrom := h.parts c hm.mem hm.used
  generalize (s.streams c).partId = f at hlose hk hfrom ⊢
  have hlost : ¬ CanGain (levelAvg cfg n q g) (q f % 2 ^ 32) (coreCount cfg n t f) := by
    have hsource := hk.source
    rw [← hsource] at hlose
    exact not_canGain_of_canLose (by have := hle f; omega) hlose
  have hgained : ¬ CanLose (levelAvg cfg n q g) (q p % 2 ^ 32) (coreCount cfg n t p) := by
    rw [hk.target]
    exact fun hl => not_canGain_of_canLose (hle p) hl hgain
  have hf_new : f ∉ ms.map Prod.snd := fun hmem => h.gained f hmem hlose
  have hp_new : p ∉ ms.map Prod.fst := fun hmem => h.lost p hmem hgain
  refine ⟨ht, ?_, ?_, ?_, ?_, ?_, ?_, ?_, ?_⟩
  · intro d hd
    rw [hs.used d hd, hq.used, h.used d hd]
  · intro d hd hu
    rw [hs.used d hd, hq.used] at hu
    rw [hs.partId d hd]
    by_cases hdc : d = c
    · subst hdc
      simpa [setPartitionId, Global.setStream] using hm.receiver_lt
    · simpa [setPartitionId, Global.setStream, hdc] using h.parts d hd hu
  · exact fun r hr => hk.pos hlose.1 (h.pos r hr)
  · intro r hr
    rw [List.map_append, List.mem_append] at hr
    by_cases hrf : r = f
    · subst hrf
      exact hlost
    · have hold : r ∈ ms.map Prod.fst := by simpa [hrf] using hr
      rw [hk.other r hrf (fun he => hp_new (he ▸ hold))]
      exact h.lost r hold
  · intro r hr
    rw [List.map_append, List.mem_append] at hr
    by_cases hrp : r = p
    · subst hrp
      exact hgained
    · have hold : r ∈ ms.map Prod.snd := by simpa [hrp] using hr
      rw [hk.other r (fun he => hf_new (he ▸ hold)) hrp]
      exact h.gained r hold
  · intro r hr hr'
    rw [List.map_append, List.mem_append] at hr hr'
    rcases hr with hr | hr
    · rcases hr' with hr' | hr'
      · exact h.disjoint r hr hr'
      · obtain rfl : r = p := by simpa using hr'
        exact hp_new hr
    · obtain rfl : r = f := by simpa using hr
      rcases hr' with hr' | hr'
      · exact hf_new hr'
      · exact hk.ne (by simpa using hr')
  · intro r hr
    rw [List.map_append, List.mem_append] at hr
    rcases hr with hr | hr
    · exact h.lost_lt r hr
    · obtain rfl : r = f := by simpa using hr
      exact hfrom
  · exact fun r => hk.balance (h.balance r)

end Turn

theorem LevelTwo.traded {cfg : Config} {n : Nat} {q : Nat → Nat} {g s : Global}
    {ms : List (Nat × Nat)} (hp : PartsInNode cfg n g)
    (hpos : ∀ p < cfg.nrPartitions, g.group (cfg.coresOf n) p ≠ [])
    (h100 : (g.usedIn (cfg.coresOf n)).length ≤ 100) (h : LevelTwo cfg n q g ms s) :
    Traded cfg n q g ms s := by
  induction h with
  | start hr =>
    refine ⟨hr, fun _ _ => rfl, hp, ?_, by simp, by simp, by simp, by simp, by simp⟩
    exact fun p hlt => List.length_pos_iff.mpr (hpos p hlt)
  | @turn ms s t pf _ hs ht ih =>
    rcases rebInNuma_turn pf cfg n s with ⟨hnone, hsame⟩ | ⟨c, p, hm, hone, hsame⟩
    · rw [hnone, List.append_nil]
      exact ih.same (hsame.trans_in hs) ht
    · rw [hone]
      exact ih.move h100 hm (hsame.trans_in hs) ht

/-- Level 2 does not trade a core back and forth: over any number of runs of
`reb_in_numa` no partition both gains and loses a core, and there are at most
as many core moves as cores. -/
theorem level2_no_trade_back {cfg : Config} {n : Nat} {q : Nat → Nat} {g s : Global}
    {ms : List (Nat × Nat)} (hp : PartsInNode cfg n g)
    (hpos : ∀ p < cfg.nrPartitions, g.group (cfg.coresOf n) p ≠ [])
    (h100 : (g.usedIn (cfg.coresOf n)).length ≤ 100) (h : LevelTwo cfg n q g ms s) :
    (∀ p, ¬ (p ∈ ms.map Prod.fst ∧ p ∈ ms.map Prod.snd)) ∧
    ms.length ≤ (g.usedIn (cfg.coresOf n)).length := by
  have ht := h.traded hp hpos h100
  refine ⟨fun p hmem => ht.disjoint p hmem.1 hmem.2, ?_⟩
  have hcount : ∀ p, (ms.map Prod.fst).count p ≤ coreCount cfg n g p := by
    intro p
    by_cases hm : p ∈ ms.map Prod.fst
    · have hb := ht.balance p
      rw [List.count_eq_zero_of_not_mem (ht.disjoint p hm)] at hb
      omega
    · rw [List.count_eq_zero_of_not_mem hm]
      exact Nat.zero_le _
  have hlen := sum_fibers id (fun _ => 1) cfg.nrPartitions (ms.map Prod.fst) ht.lost_lt
  have hsum : ((List.range cfg.nrPartitions).map fun p => (ms.map Prod.fst).count p).sum ≤
      ((List.range cfg.nrPartitions).map (coreCount cfg n g)).sum :=
    List.sum_le_sum (fun p _ => hcount p)
  rw [sum_coreCount hp] at hsum
  have heq : ((List.range cfg.nrPartitions).map fun p => (ms.map Prod.fst).count p).sum = ms.length := by
    simpa [List.count_eq_length_filter, Function.comp_def] using hlen
  omega

def idleBusyConfig : Config where
  nrCores := 3
  nrNumas := 1
  numaInfo _ := ⟨0, 2⟩
  partitions := [⟨0, [0, 1]⟩, ⟨1, [2]⟩]
  partitionMap c := if c < 2 then 0 else 1

def idleBusy : Global :=
  (abtstUpdatePartitionStats idleBusyConfig { blank with
    streams := fun c =>
      { rank := c, used := decide (c < 3), partId := if c < 2 then 0 else 1,
        totalQdepth := if c = 2 then 1000 else 0 } }).setNumaStat 0 ⟨3, 333⟩

theorem idleBusy_ready : Ready idleBusyConfig 0 (fun p => if p = 0 then 0 else 1000) idleBusy := by
  refine ⟨?_, ?_, ?_⟩ <;> decide +kernel

theorem idleBusy_move :
    coreMoves idleBusy ((rebInNuma sortedPlatform idleBusyConfig 0).run idleBusy).log = [(0, 1)] := by
  decide +kernel

theorem idleBusy_moved : Ready idleBusyConfig 0 (fun p => if p = 0 then 0 else 1000)
    ((rebInNuma sortedPlatform idleBusyConfig 0).run idleBusy).st := by
  refine ⟨?_, ?_, ?_⟩ <;> decide +kernel

theorem idleBusy_parts : PartsInNode idleBusyConfig 0 idleBusy := by
  unfold PartsInNode
  decide +kernel

theorem level2_no_trade_back_idleBusy : ∃ s,
    LevelTwo idleBusyConfig 0 (fun p => if p = 0 then 0 else 1000) idleBusy [(0, 1)] s ∧
    ∀ p, ¬ (p ∈ [0] ∧ p ∈ [1]) := by
  have h := LevelTwo.turn sortedPlatform (.start idleBusy_ready) ⟨fun _ _ => rfl, fun _ _ => rfl⟩ idleBusy_moved
  rw [idleBusy_move, List.nil_append] at h
  exact ⟨_, h, (level2_no_trade_back idleBusy_parts (by decide +kernel) (by decide +kernel) h).1⟩

end AbtSt
