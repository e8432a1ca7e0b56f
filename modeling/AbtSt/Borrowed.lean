import AbtSt.Coverage
import AbtSt.Labels
import AbtSt.Level2

/-! Cores away from home. Level 2 lends a core of its own only when the partition has
no borrowed core in that node to give instead. Between two partitions a core that is
given away is then either returned or lent in the only direction in which cores are
lent already, so that no more cores are away than the numbers of cores require. -/

namespace AbtSt

def Away (cfg : Config) (g : Global) (c : Nat) : Prop :=
  (g.streams c).used = true ∧ ((g.streams c).partId : Int) ≠ cfg.partitionMap c

instance (cfg : Config) (g : Global) (c : Nat) : Decidable (Away cfg g c) :=
  inferInstanceAs (Decidable (_ ∧ _))

/-- A core of node `n` goes to partition `p`: one that is away, if its partition has
any there. -/
structure Gives (cfg : Config) (n c p : Nat) (g : Global) : Prop where
  numa : n < cfg.nrNumas
  mem : c ∈ cfg.coresOf n
  used : (g.streams c).used = true
  ne : (g.streams c).partId ≠ p
  lt : p < cfg.nrPartitions
  first : Away cfg g c ∨ ∀ d ∈ g.group (cfg.coresOf n) (g.streams c).partId, ¬ Away cfg g d

inductive LabelStep (cfg : Config) (s : Global) : Global → Prop
  | keep {t : Global} : SameLabels s t → LabelStep cfg s t
  | give {n c p : Nat} : Gives cfg n c p s → LabelStep cfg s (setPartitionId c p s)

def Labelled (cfg : Config) (a : Act) (s t : Global) : Prop := RebStep cfg a s t ∧ LabelStep cfg s t

section Labels

variable {pf : Platform} {cfg : Config} {g s t : Global}

theorem RebStep.sameLabels {a : Act} (h : RebStep cfg a s t) (hq : ¬ a.Relabels) : SameLabels s t := by
  rcases h.queues with ⟨hsame, hp⟩ | ⟨_, _, ms, x, y, he, _, _, rfl⟩ | ⟨c, p, ha, _, _, _⟩
  · exact ⟨hsame.used, hp⟩
  · have hshape := moved_sameShape s ms x y he.ne
    exact ⟨hshape.used, hshape.partId⟩
  · subst ha
    exact absurd trivial hq

theorem SameLabels.away (h : SameLabels g s) (c : Nat) : Away cfg s c ↔ Away cfg g c := by
  unfold Away
  rw [h.used, h.partId]

theorem Gives.of_labels {n c p : Nat} (h : Gives cfg n c p g) (hs : SameLabels g s) : Gives cfg n c p s := by
  refine ⟨h.numa, h.mem, by rw [hs.used]; exact h.used, by rw [hs.partId]; exact h.ne, h.lt, ?_⟩
  rw [Global.group_congr hs.used hs.partId, hs.partId, hs.away]
  exact h.first.imp_right fun hall d hd => by rw [hs.away]; exact hall d hd

/-- The scan looks at every core of the partition in the node. -/
theorem chooseStreams_first {n p : Nat} {params : List SortParam} (hc : Collected cfg g n p params)
    (hrank : ∀ c ∈ g.group (cfg.coresOf n) p, (g.streams c).rank = c) {r : Nat × Nat}
    (h : chooseStreams cfg g params.length params = .ok r) :
    Away cfg g r.1 ∨ ∀ d ∈ g.group (cfg.coresOf n) p, ¬ Away cfg g d := by
  obtain ⟨e0, _, h⟩ := except_bind_eq_ok.mp h
  obtain ⟨e1, _, h⟩ := except_bind_eq_ok.mp h
  obtain ⟨b, hscan, h⟩ := except_bind_eq_ok.mp h
  cases b with
  | none =>
    refine Or.inr (fun d hd haway => ?_)
    obtain ⟨e, he, rfl⟩ := List.mem_map.mp (hc.streams_perm.mem_iff.mpr hd)
    obtain ⟨i, hi, rfl⟩ := List.mem_iff_getElem.mp he
    have htest := findM?_none hscan i (List.mem_range.mpr hi)
    rw [entry_of_lt hi] at htest
    have hhome := of_decide_eq_false (Except.ok.inj htest)
    rw [hrank _ hd] at hhome
    exact hhome haway.2
  | some i =>
    obtain ⟨e, he, h⟩ := except_bind_eq_ok.mp h
    rw [← Except.ok.inj h]
    obtain ⟨hmem, _⟩ := hc.entry_mem he
    have htest := (findM?_ok hscan).2
    rw [he] at htest
    have haway := of_decide_eq_true (Except.ok.inj htest)
    rw [hrank _ hmem] at haway
    exact Or.inl ⟨(Global.mem_group.mp hmem).2.1, haway⟩

theorem rebInNuma_labels (n : Nat) :
    Follows (fun _ => LabelStep cfg) (fun s => Fresh cfg s ∧ Placed cfg s) (rebInNuma pf cfg n)
      (fun _ _ => True) (fun _ _ => True) := by
  refine readStats_bind (fun g ⟨hfresh, hp⟩ => ⟨.keep (.refl g), ?_⟩)
  refine .lift_bind (fun _ _ _ _ => trivial) (fun parts hparts => ?_)
  refine .lift_bind (fun _ _ _ _ => trivial) (fun r hr => ?_)
  cases r with
  | none => exact .pure (fun _ _ => trivial)
  | some pids =>
    obtain ⟨fromPid, toPid⟩ := pids
    dsimp only
    obtain ⟨_, _, i, e, e', hi, he, he', hto⟩ := choosePartitions_some hr
    have hperm := sortPartitions_ok hparts
    have hlt := List.mem_range.mp (hperm.mem_iff.mp (List.mem_map_of_mem (List.mem_of_mem_drop he')))
    have hne := stream_ne_of_nodup (hperm.nodup_iff.mpr List.nodup_range) (entry_ok hi) he'
    rw [he, hto] at hne
    rw [hto] at hlt
    cases hs : sortStreams pf cfg g (some n) (some fromPid) with
    | none => exact .pure (fun _ _ => trivial)
    | some params =>
      have hc := sortStreams_some hs
      have hlen : (g.numaStats fromPid n).usedCores = params.length := by
        rw [hc.length_eq]
        exact (hfresh.parts.numaStats n hc.numa fromPid).1
      have hrank : ∀ c ∈ g.group (cfg.coresOf n) fromPid, (g.streams c).rank = c := fun c hc =>
        hp.linked.rank c (hp.linked.used_lt c (Global.mem_group.mp hc).2.1)
      dsimp only
      rw [hlen]
      refine .lift_bind (fun _ _ _ _ => trivial) (fun r hr => ?_)
      obtain ⟨hends, hgroup, _⟩ := chooseStreams_ok hc hr
      obtain ⟨hmem, hused, hfrom⟩ := Global.mem_group.mp hgroup
      have hgives : Gives cfg n r.1 toPid g := by
        refine ⟨hc.numa, hmem, hused, by rw [hfrom]; exact hne, hlt, ?_⟩
        rw [hfrom]
        exact chooseStreams_first hc hrank hr
      refine .bind (Q := fun _ s => SameLabels g s) (.perform ?_ (fun _ _ _ _ => trivial)) (fun _ => ?_)
      · rintro s t rfl ht
        have hshape := combine_sameShape hends.ne ht
        exact ⟨.keep ⟨hshape.used, hshape.partId⟩, hshape.used, hshape.partId⟩
      · refine .bind (Q := fun _ _ => True) (.act fun s hs => ?_) (fun _ => .act fun s _ => ⟨.keep ?_, trivial⟩)
        · exact ⟨.give (hgives.of_labels hs), trivial⟩
        · obtain ⟨_, _, hf⟩ := abtstUpdatePartitionStats_frame cfg s
          rw [hf]
          exact ⟨fun _ => rfl, fun _ => rfl⟩

theorem Follows.labelled {α : Type} {m : Reb α} {P : Global → Prop} {Q : α → Global → Prop}
    {E : Fault → Global → Prop} (h : Follows (RebStep cfg) P m Q E) (hq : Within (fun a => ¬ a.Relabels) m) :
    Follows (Labelled cfg) (fun s => P s ∧ Placed cfg s) m (fun a s => Q a s ∧ Placed cfg s)
      (fun _ _ => True) := by
  have hplaced := h.and_invariant (I := Placed cfg) (fun _ _ _ hst hs => hs.step hst)
  refine (((hplaced.and (hq.pre (fun _ _ => trivial))).relax ?_).post (fun _ _ hs => hs.1)).faults
    (fun _ _ _ => trivial)
  exact fun a s t hst => ⟨hst.1, .keep (hst.1.sameLabels hst.2)⟩

theorem abtstRebInNumas_labels (hv : cfg.Valid) :
    Follows (Labelled cfg) (fun s => Fresh cfg s ∧ Placed cfg s) (abtstRebInNumas pf cfg)
      (fun _ s => Fresh cfg s ∧ Placed cfg s) (fun _ _ => True) := by
  unfold abtstRebInNumas
  split_ifs with hmany
  · exact .pure (fun _ hs => hs)
  · refine .forM _ (fun i hi => readStats_bind (fun g hg => ⟨⟨.readStats hg.1, .keep (.refl g)⟩, ?_⟩))
    split_ifs
    · exact .pure (fun s hs => hs ▸ hg)
    · have hfollows : Follows (RebStep cfg) (Fresh cfg) (rebInNuma pf cfg i) (fun _ => Fresh cfg)
          (GapFault cfg) := rebInNuma_follows hv hmany (List.mem_range.mp hi)
      have hplaced := hfollows.and_invariant (I := Placed cfg) (fun _ _ _ hst hs => hs.step hst)
      have hlabels := ((hplaced.and (rebInNuma_labels i)).post (fun _ _ hs => hs.1)).faults
        (fun _ _ _ => trivial)
      exact hlabels.pre (fun s hs => hs ▸ hg)

theorem rebPass_labelled (pf : Platform) (hv : cfg.Valid) :
    Follows (Labelled cfg) (Placed cfg) (rebPass pf cfg) (fun _ _ => True) (fun _ _ => True) := by
  have hupdate : Follows (RebStep cfg) (fun _ => True) (abtstRebUpdateStat pf cfg) (fun _ => Fresh cfg)
      (fun _ _ => True) := fun r _ => ((updateStat_follows pf).post (fun _ _ hs => hs.1)) r rfl
  have hplain := (abtstRebUpdateStat_counts pf cfg).mono fun _ h => h.plain.1
  refine .bind ((hupdate.labelled hplain).pre (fun _ hs => ⟨trivial, hs⟩))
    (fun _ => ?_)
  refine .read_bind (fun g hg => ?_)
  dsimp only
  refine .bind (Q := fun _ s => Fresh cfg s ∧ Placed cfg s) (.onlyIf (fun hlevel => ?_) (fun _ s hs => hs ▸ hg))
    (fun _ => ?_)
  · have hsave := (rebPowerSaving_keepsLevel hv).labelled (abtstRebPowerSaving_home pf cfg)
    refine .bind (hsave.pre (fun s hs => ?_)) (fun _ => ?_)
    · subst hs
      exact ⟨⟨hlevel, hg.1⟩, hg.2⟩
    · exact (rebBetweenNumasTop_follows hv).labelled ((abtstRebBetweenNumas_plain pf cfg).mono fun _ h => h.1)
  · refine .bind (.onlyIf (fun _ => abtstRebInNumas_labels hv) (fun _ _ hs => hs)) (fun _ => ?_)
    have hparts := (abtstRebInPartitions_plain pf cfg).mono fun _ h => h.1
    refine .bind (.onlyIf (fun _ => (rebInPartitions_follows hv).labelled hparts)
      (fun _ _ hs => hs)) (fun _ => .act (fun s _ => ?_))
    have hreset : RebStep cfg .resetStreamsStat s (abtstResetStreamsStat cfg s) := .resetStreamsStat s
    exact ⟨⟨hreset, .keep (hreset.sameLabels id)⟩, trivial⟩

end Labels

/-- In each node the cores that are away are all with one partition. -/
structure OneWay (cfg : Config) (g : Global) : Prop where
  used : ∀ c < cfg.nrCores, (g.streams c).used = true ↔ 0 ≤ cfg.partitionMap c
  parts : PartsInRange cfg g
  way : ∀ n < cfg.nrNumas, ∃ p < 2, ∀ c ∈ cfg.coresOf n, Away cfg g c → (g.streams c).partId = p

section OneWay

variable {cfg : Config} {g s t : Global}

theorem OneWay.of_labels (h : OneWay cfg s) (hs : SameLabels s t) : OneWay cfg t := by
  refine ⟨fun c hc => by rw [hs.used]; exact h.used c hc, fun c hc => ?_, fun n hn => ?_⟩
  · rw [hs.used] at hc
    rw [hs.partId]
    exact h.parts c hc
  · obtain ⟨p, hp, hall⟩ := h.way n hn
    refine ⟨p, hp, fun c hc haway => ?_⟩
    rw [hs.partId]
    exact hall c hc ((hs.away c).mp haway)

theorem away_setPartitionId_other {c d : Nat} (h : d ≠ c) (p : Nat) :
    Away cfg (setPartitionId c p g) d ↔ Away cfg g d := by
  unfold Away
  rw [setPartitionId_other h]

/-- A borrowed core goes home: it has no other partition to come from. -/
theorem OneWay.give_home (hv : cfg.Valid) (h2 : cfg.nrPartitions = 2) {n c p : Nat} (h : OneWay cfg s)
    (hg : Gives cfg n c p s) (haway : Away cfg s c) : ¬ Away cfg (setPartitionId c p s) c := by
  intro hd
  have hc := hv.core_lt hg.numa hg.mem
  have hmap := hv.partitionMap_lt c hc
  have hpos := (h.used c hc).mp hg.used
  have hback := hd.2
  rw [setPartitionId_self] at hback
  have hlt := hg.lt
  have hfrom := h.parts c hg.used
  have hne := hg.ne
  have hwas := haway.2
  omega

/-- An own core is lent: the cores that are away are all with the partition that gets it. -/
theorem OneWay.give_lent (h2 : cfg.nrPartitions = 2) {n c d p : Nat} (h : OneWay cfg s) (hg : Gives cfg n c p s)
    (hhome : ∀ d ∈ s.group (cfg.coresOf n) (s.streams c).partId, ¬ Away cfg s d) (hd : d ∈ cfg.coresOf n)
    (haway : Away cfg s d) : (s.streams d).partId = p := by
  have hnot : (s.streams d).partId ≠ (s.streams c).partId := fun he =>
    hhome d (Global.mem_group.mpr ⟨hd, haway.1, he⟩) haway
  have hlt := hg.lt
  have hfrom := h.parts c hg.used
  have hne := hg.ne
  have hd2 := h.parts d haway.1
  omega

theorem OneWay.give (hv : cfg.Valid) (h2 : cfg.nrPartitions = 2) {n c p : Nat} (h : OneWay cfg s)
    (hg : Gives cfg n c p s) : OneWay cfg (setPartitionId c p s) := by
  have hused := (setPartitionId_queues c p s).used
  refine ⟨fun d hd => by rw [hused]; exact h.used d hd, fun d hd => ?_, fun m hm => ?_⟩
  · by_cases hdc : d = c
    · rw [hdc, setPartitionId_self]
      exact hg.lt
    · rw [setPartitionId_other hdc] at hd ⊢
      exact h.parts d hd
  obtain ⟨q, hq, hall⟩ := h.way m hm
  by_cases hmn : m = n
  · subst hmn
    rcases hg.first with haway | hhome
    · refine ⟨q, hq, fun d hd hd' => ?_⟩
      have hdc : d ≠ c := fun he => h.give_home hv h2 hg haway (he ▸ hd')
      rw [setPartitionId_other hdc]
      exact hall d hd ((away_setPartitionId_other hdc p).mp hd')
    · refine ⟨p, h2 ▸ hg.lt, fun d hd hd' => ?_⟩
      by_cases hdc : d = c
      · rw [hdc, setPartitionId_self]
      · rw [setPartitionId_other hdc]
        exact h.give_lent h2 hg hhome hd ((away_setPartitionId_other hdc p).mp hd')
  · refine ⟨q, hq, fun d hd hd' => ?_⟩
    have hdc : d ≠ c := fun he => hmn (hv.numa_unique hm hg.numa (he ▸ hd) hg.mem)
    rw [setPartitionId_other hdc]
    exact hall d hd ((away_setPartitionId_other hdc p).mp hd')

theorem OneWay.step (hv : cfg.Valid) (h2 : cfg.nrPartitions = 2) (hst : LabelStep cfg s t)
    (h : OneWay cfg s) : OneWay cfg t := by
  cases hst with
  | keep hs => exact h.of_labels hs
  | give hg => exact h.give hv h2 hg

theorem Mapped.oneWay (hv : cfg.Valid) (h : Mapped cfg g) : OneWay cfg g := by
  have hi := h.initial hv
  have hforce := h.inForce
  refine ⟨fun c hc => ⟨hi.used c, fun h0 => (hforce c hc h0).1⟩, hi.parts, fun n hn => ⟨0, by decide, ?_⟩⟩
  rintro c _ ⟨hu, haway⟩
  have h0 := hi.used c hu
  have hpart := (hforce c (hi.laid.linked.used_lt c hu) h0).2
  omega

theorem Visited.oneWay (hv : cfg.Valid) (h2 : cfg.nrPartitions = 2) (h : Visited cfg g) : OneWay cfg g :=
  (h.along (I := fun g => Placed cfg g ∧ OneWay cfg g) (fun pf _ hg => (rebPass_labelled pf hv).path hg.1)
    (fun _ hm => ⟨Visited.placed hv (.reachable (.mapped hm)), hm.oneWay hv⟩)
    (fun _ _ hb hi => ⟨hi.1.between hb, hi.2.of_labels ⟨hb.queues.used, hb.partId⟩⟩)
    (fun _ _ _ hst hi => ⟨hi.1.step hst.1, hi.2.step hv h2 hst.2⟩)).2

/-- The cores of a node that the configuration gives to a partition. -/
def homeCount (cfg : Config) (n p : Nat) : Nat := (cfg.coresOf n).countP fun c => cfg.partitionMap c == p

theorem countP_eq_add {α : Type} {l : List α} {a b d : α → Bool}
    (h : ∀ x ∈ l, (a x).toNat = (b x).toNat + (d x).toNat) : l.countP a = l.countP b + l.countP d := by
  induction l with
  | nil => rfl
  | cons x l ih =>
    have hx := h x List.mem_cons_self
    have hl := ih (fun y hy => h y (List.mem_cons_of_mem _ hy))
    rw [List.countP_cons, List.countP_cons, List.countP_cons, hl]
    cases ha : a x <;> cases hb : b x <;> cases hd : d x <;> simp [ha, hb, hd] at hx ⊢ <;> omega

/-- With two partitions, what a core counts for where the cores that are away are all with
partition `q`. -/
theorem OneWay.weigh (hv : cfg.Valid) (h2 : cfg.nrPartitions = 2) (h : OneWay cfg g) {n q c : Nat}
    (hn : n < cfg.nrNumas) (hq : q < 2)
    (hall : ∀ c ∈ cfg.coresOf n, Away cfg g c → (g.streams c).partId = q) (hc : c ∈ cfg.coresOf n) :
    (g.inPart q c).toNat = (cfg.partitionMap c == q).toNat + (decide (Away cfg g c)).toNat ∧
    ∀ p < 2, p ≠ q →
      (cfg.partitionMap c == p).toNat = (g.inPart p c).toNat + (decide (Away cfg g c)).toNat := by
  have hmap := hv.partitionMap_lt c (hv.core_lt hn hc)
  have hused := h.used c (hv.core_lt hn hc)
  rw [h2] at hmap
  by_cases hu : (g.streams c).used = true
  · have h0 := hused.mp hu
    by_cases haway : Away cfg g c
    · have hpart := hall c hc haway
      have hne := haway.2
      refine ⟨?_, fun p hp hpq => ?_⟩
      · have hother : ¬ cfg.partitionMap c = q := by omega
        simp [Global.inPart, hu, hpart, haway, hother]
      · have hhome : cfg.partitionMap c = p := by omega
        have hout : q ≠ p := fun he => hpq he.symm
        simp [Global.inPart, hpart, haway, hhome, hout]
    · have hhome : cfg.partitionMap c = (g.streams c).partId := by
        by_contra hne
        exact haway ⟨hu, fun he => hne he.symm⟩
      have hsame : ∀ p : Nat, (cfg.partitionMap c == (p : Int)) = g.inPart p c := fun p => by
        rw [hhome]
        simp [Global.inPart, hu, beq_eq_decide]
      exact ⟨by simp [hsame, haway], fun p _ _ => by simp [hsame, haway]⟩
  · have hneg : ∀ p : Nat, (cfg.partitionMap c == (p : Int)) = false := fun p =>
      beq_eq_false_iff_ne.mpr (fun he => hu (hused.mpr (by omega)))
    have haway : ¬ Away cfg g c := fun h => hu h.1
    exact ⟨by simp [Global.inPart, hu, hneg, haway], fun p _ _ => by simp [Global.inPart, hu, hneg, haway]⟩

theorem OneWay.count (hv : cfg.Valid) (h2 : cfg.nrPartitions = 2) (h : OneWay cfg g) {n p : Nat}
    (hn : n < cfg.nrNumas) (hp : p < 2) :
    (cfg.coresOf n).countP (fun c => decide (Away cfg g c)) =
      ((coreCount cfg n g p : Int) - homeCount cfg n p).natAbs := by
  obtain ⟨q, hq, hall⟩ := h.way n hn
  unfold coreCount Global.group homeCount
  rw [← List.countP_eq_length_filter]
  by_cases hpq : p = q
  · subst hpq
    have hsum := countP_eq_add (fun c hc => (h.weigh hv h2 hn hq hall hc).1)
    omega
  · have hsum := countP_eq_add (fun c hc => (h.weigh hv h2 hn hq hall hc).2 p hp hpq)
    omega

end OneWay

/-- With two partitions, in every state of every run no more cores of a node are away from
their partition than the numbers of cores require, all of them with the same partition; once
a partition has as many cores in the node as it was given, every core is at home. -/
theorem borrowed_cores_minimal {cfg : Config} (hv : cfg.Valid) (h2 : cfg.nrPartitions = 2) {g : Global}
    (h : Visited cfg g) {n : Nat} (hn : n < cfg.nrNumas) :
    (∃ q < 2, ∀ c ∈ cfg.coresOf n, Away cfg g c → (g.streams c).partId = q) ∧
    ∀ p < 2, (cfg.coresOf n).countP (fun c => decide (Away cfg g c)) =
      ((coreCount cfg n g p : Int) - homeCount cfg n p).natAbs :=
  ⟨(h.oneWay hv h2).way n hn, fun _ hp => (h.oneWay hv h2).count hv h2 hn hp⟩

theorem twoPartsLayout_valid : (layout 4 twoParts).Valid := by
  refine ⟨by decide, by decide, by decide, by decide, by decide, ?_⟩
  intro m hm n hn hne
  have hm1 : m = 0 := Nat.lt_one_iff.mp hm
  have hn1 : n = 0 := Nat.lt_one_iff.mp hn
  exact absurd (hm1.trans hn1.symm) hne

/-- A busy partition of one core borrows one of the two cores of an idle one. -/
theorem borrowed_cores_minimal_lent : ∃ g, Visited (layout 4 twoParts) g ∧
    ((layout 4 twoParts).coresOf 0).countP (fun c => decide (Away (layout 4 twoParts) g c)) = 1 := by
  have hrun : (startWith (layout 4 twoParts) [0]).any (fun g => decide
      ((rebPass sortedPlatform (layout 4 twoParts)).fault (overload g ⟨0, 0⟩ 1000) = none ∧
        ((coreCount (layout 4 twoParts) 0 ((rebPass sortedPlatform (layout 4 twoParts)).run
          (overload g ⟨0, 0⟩ 1000)).st 0 : Int) - homeCount (layout 4 twoParts) 0 0).natAbs = 1)) = true := by
    decide +kernel
  obtain ⟨g, hg, hrun⟩ := (Option.any_eq_true _ _).mp hrun
  obtain ⟨hok, hcount⟩ := of_decide_eq_true hrun
  have hv : Visited (layout 4 twoParts) _ :=
    .reachable (.pass (.between (.mapped (startWith_mapped hg)) (overload_between g ⟨0, 0⟩ 1000)) hok)
  refine ⟨_, hv, ?_⟩
  rw [(borrowed_cores_minimal twoPartsLayout_valid rfl hv (show 0 < 1 by decide)).2 0 (by decide), hcount]

end AbtSt
