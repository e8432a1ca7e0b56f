import AbtSt.Sorted
import AbtSt.RebStep

/-! Every action of a pass is a step of the rebalancer, whatever the state the
pass starts from, the platform and the point where it faults. A pass faults only
by a division by zero, or by a queue that is longer than its counter. -/

namespace AbtSt

def PassFault (e : Fault) (g : Global) : Prop := e = .divByZero ∨ (e = .overrun ∧ Overfull g)

/-- Where a used stream has a partition that does not exist, `reb_combine_numas`
also reads an entry of `to_cores` that was never written. -/
def WideFault (cfg : Config) (e : Fault) (g : Global) : Prop :=
  PassFault e g ∨ (e = .badIndex ∧ ¬ PartsInRange cfg g)

/-- What a pass divides by may be 0: the used streams of a node, the cores of a
partition in a node, or the interval in milliseconds. -/
inductive Gap (cfg : Config) (g : Global) : Prop
  | node (n : Nat) : n < cfg.nrNumas → g.usedIn (cfg.coresOf n) = [] → Gap cfg g
  | partition (n p : Nat) : ¬ cfg.nrPartitions ≤ 1 → n < cfg.nrNumas → p < cfg.nrPartitions →
      g.group (cfg.coresOf n) p = [] → Gap cfg g
  | interval : u32 (1000 * g.rebalance.rebalanceInterval) = 0 → Gap cfg g

def GapFault (cfg : Config) (e : Fault) (g : Global) : Prop :=
  (e = .divByZero ∧ Gap cfg g) ∨ (e = .overrun ∧ Overfull g)

def WideGap (cfg : Config) (e : Fault) (g : Global) : Prop :=
  GapFault cfg e g ∨ (e = .badIndex ∧ ¬ PartsInRange cfg g)

theorem GapFault.pass {cfg : Config} {e : Fault} {g : Global} (h : GapFault cfg e g) : PassFault e g :=
  h.imp_left And.left

theorem readStats_bind {Step : Act → Global → Global → Prop} {P : Global → Prop} {β : Type}
    {f : Global → Reb β} {R : β → Global → Prop} {E : Fault → Global → Prop}
    (h : ∀ s, P s → Step .readStats s s ∧ Follows Step (fun t => t = s) (f s) R E) :
    Follows Step P (readStats >>= f) R E := by
  unfold readStats
  rw [bind_assoc]
  refine Follows.bind (Q := fun _ => P) (.act (fun s hs => ⟨(h s hs).1, hs⟩)) (fun _ => ?_)
  exact .read_bind (fun s hs => (h s hs).2)

variable {pf : Platform} {cfg : Config}

theorem combineStreams_follows {g : Global} {src dst : Nat} (he : Ends g src dst)
    (hr : SameNuma cfg src dst ∨ CrossNuma cfg g src dst) :
    Follows (RebStep cfg) (fun s => SameShape g s) (combineStreams src dst)
      (fun _ s => SameShape g s ∧ Emptied s src) (GapFault cfg) := by
  refine .perform ?_ (fun s e _ h => Or.inr (abtstCombineStreams_error h))
  intro s t hs ht
  have hshape := combine_sameShape he.ne ht
  refine ⟨.combine (he.of_shape hs) ?_ ht, hs.trans hshape, combine_emptied he.ne ht⟩
  unfold CrossNuma at hr ⊢
  rw [hs.power, hs.rebalance]
  exact hr

theorem updatePartitionStats_follows {I : Global → Prop}
    (hI : ∀ s t u, I s → I { s with numaStats := t, stats := u }) :
    Follows (RebStep cfg) I (updatePartitionStats cfg) (fun _ s => FreshParts cfg s ∧ I s) (GapFault cfg) := by
  refine .act (fun s hs => ⟨.updatePartitionStats s, updatePartitionStats_fresh cfg s, ?_⟩)
  obtain ⟨t, u, hf⟩ := abtstUpdatePartitionStats_frame cfg s
  rw [hf]
  exact hI s t u hs

theorem updateNumaStats_keeps {I : Global → Prop} {E : Fault → Global → Prop}
    (hI : ∀ s n v, I s → I (s.setNumaStat n v))
    (hE : ∀ n < cfg.nrNumas, ∀ s e, I s → updateNumaStat pf cfg n s = .error e → E e s) :
    Follows (RebStep cfg) (fun s => FreshParts cfg s ∧ I s) (abtstUpdateNumaStats pf cfg)
      (fun _ s => Fresh cfg s ∧ I s) E := by
  refine Follows.mono (P := fun s => (FreshParts cfg s ∧ I s) ∧ FreshNumas cfg [] s)
    (Q := fun _ s => (FreshParts cfg s ∧ I s) ∧ FreshNumas cfg (List.range cfg.nrNumas) s)
    ?_ (fun s hs => ⟨hs, fun _ hn => by simp at hn⟩) (fun _ _ hs => ⟨⟨hs.1.1, hs.2⟩, hs.1.2⟩)
  apply Follows.forM_prefix (J := fun ns s => (FreshParts cfg s ∧ I s) ∧ FreshNumas cfg ns s) _
  intro pre i post hl
  have hi : i < cfg.nrNumas := List.mem_range.mp (by rw [hl]; simp)
  refine .perform ?_ (fun s e hs h => hE i hi s e hs.1.2 h)
  intro s t hs ht
  obtain ⟨avg, rfl, havg⟩ := updateNumaStat_ok hi ht
  refine ⟨.updateNumaStat s i _, ⟨hs.1.1.of_streams rfl rfl rfl, hI s i _ hs.1.2⟩, ?_⟩
  intro n hn
  rw [Global.usedIn_eq (s := s.setNumaStat i _) (g := s) rfl,
    Global.depthOf_eq (s := s.setNumaStat i _) (g := s) rfl]
  by_cases he : n = i
  · subst he
    simpa [Global.setNumaStat] using havg
  · simpa [Global.setNumaStat, he] using hs.2 n (by simpa [he] using hn)

theorem updateNumaStats_follows :
    Follows (RebStep cfg) (FreshParts cfg) (abtstUpdateNumaStats pf cfg)
      (fun _ => Fresh cfg) (GapFault cfg) := by
  refine Follows.mono (updateNumaStats_keeps (I := fun _ => True) (fun _ _ _ _ => trivial) ?_)
    (fun _ hs => ⟨hs, trivial⟩) (fun _ _ hs => hs.1)
  intro n hn s e _ h
  obtain ⟨he, hnil⟩ := updateNumaStat_error h
  exact Or.inl ⟨he, .node n hn hnil⟩

theorem updatePowerStats_follows :
    Follows (RebStep cfg) (Fresh cfg) (abtstUpdatePowerStats pf cfg) (fun _ => Fresh cfg) (GapFault cfg) := by
  refine .forM _ (fun i _ => .perform ?_ (fun s e _ h => Or.inl ((updatePowerStat_error h).imp_right .interval)))
  intro s t hs ht
  obtain ⟨pct, rfl⟩ := updatePowerStat_ok ht
  exact ⟨.updatePowerStat s i pct, hs.of_streams rfl rfl rfl rfl⟩

theorem refresh_follows {P : Global → Prop} {Q : Unit → Global → Prop} {f : Reb Unit}
    (hf : Follows (RebStep cfg) (Fresh cfg) f Q (GapFault cfg)) :
    Follows (RebStep cfg) P (do updatePartitionStats cfg; abtstUpdateNumaStats pf cfg; f)
      Q (GapFault cfg) := by
  refine .bind ((updatePartitionStats_follows (I := fun _ => True) (fun _ _ _ _ => trivial)).pre
    (fun _ _ => trivial)) (fun _ => ?_)
  exact .bind (updateNumaStats_follows.pre (fun _ hs => hs.1)) (fun _ => hf)

theorem length_group_le (hv : cfg.Valid) (g : Global) {n : Nat} (hn : n < cfg.nrNumas) (p : Nat) :
    (g.group (cfg.coresOf n) p).length ≤ cfg.nrCores := by
  have hle := List.length_filter_le (g.inPart p) (cfg.coresOf n)
  have hend := hv.endCore_lt n hn
  rw [Config.coresOf, List.length_range'] at hle
  unfold Global.group Config.coresOf
  omega

theorem Collected.last_index (hv : cfg.Valid) {g : Global} {n p : Nat} {params : List SortParam}
    (hc : Collected cfg g n p params) : u32 ((params.length : Int) - 1) = params.length - 1 := by
  have hpos := hc.pos
  have hle := length_group_le hv g hc.numa p
  have hlt := hv.nrCores_lt
  rw [← hc.length_eq] at hle
  rw [← u32_of_lt (n := params.length - 1) (by omega)]
  congr 1
  omega

theorem Collected.reverse_lt {g : Global} {n p : Nat} {params : List SortParam} (h : Fresh cfg g)
    (hc : Collected cfg g n p params) :
    ∀ i ∈ (List.range (g.numaStats p n).usedCores).reverse, i < params.length := by
  intro i hi
  rw [hc.length_eq, ← (h.parts.numaStats n hc.numa p).1]
  exact List.mem_range.mp (List.mem_reverse.mp hi)

theorem rebInPartition_follows (hv : cfg.Valid) (n p : Nat) :
    Follows (RebStep cfg) (Fresh cfg) (rebInPartition pf cfg n p) (fun _ => Fresh cfg) (GapFault cfg) := by
  refine readStats_bind (fun g hg => ⟨.readStats hg, ?_⟩)
  have hkeep : ∀ s, s = g → Fresh cfg s := fun s hs => hs ▸ hg
  cases hp : sortStreams pf cfg g (some n) (some p) with
  | none => exact .pure hkeep
  | some params =>
    have hc := sortStreams_some hp
    have hlen : (g.numaStats p n).usedCores = params.length := by
      rw [hc.length_eq]
      exact (hg.parts.numaStats n hc.numa p).1
    have hpos := hc.pos
    dsimp only
    rw [hlen, hc.last_index hv, entry_of_lt (by omega), entry_of_lt hpos]
    refine .lift_bind (fun _ h => by cases h) (fun last hl => ?_)
    refine .lift_bind (fun _ h => by cases h) (fun first hf => ?_)
    rw [← entry_of_lt] at hl hf
    by_cases hmin : i32 (last.ios - first.ios) < minIosToStartReb
    · rw [if_pos hmin]
      exact .pure hkeep
    · rw [if_neg hmin]
      by_cases hz : (g.streams first.stream).sleepNsec = 0
      · rw [if_pos hz]
        exact .pure hkeep
      · rw [if_neg hz]
        refine .lift_bind (fun e he => absurd (Platform.div_error he).2 (Nat.ne_of_gt hpos)) (fun avg _ => ?_)
        refine .lift_bind (fun e he s hs => ?_) (fun r hr => ?_)
        · subst hs
          exact Or.inr (abtstRebalanceStreams_error he)
        cases r with
        | none => exact .pure hkeep
        | some g' =>
          obtain ⟨he, hs⟩ := hc.ends hl hf (index_ne hf hl hmin)
          have hr' : abtstRebalanceStreams g ⟨i32 (g.qdepth first.stream), first.stream⟩
              ⟨i32 (g.qdepth last.stream), last.stream⟩ avg = .ok (some g') := by
            rw [← (hc.entry_mem hf).2, ← (hc.entry_mem hl).2]
            exact hr
          refine .act (fun s hsg => ?_)
          subst hsg
          exact ⟨.rebalance he hs hr', hg.rebalance hv he hs hr'⟩

theorem rebInPartitions_follows (hv : cfg.Valid) :
    Follows (RebStep cfg) (Fresh cfg) (abtstRebInPartitions pf cfg) (fun _ => Fresh cfg) (GapFault cfg) := by
  refine .forM _ (fun i _ => .forM _ (fun j _ => ?_))
  refine readStats_bind (fun g hg => ⟨.readStats hg, ?_⟩)
  split_ifs
  · exact .pure (fun s hs => hs ▸ hg)
  · exact (rebInPartition_follows hv i j).pre (fun s hs => hs ▸ hg)

theorem rebInNuma_follows (hv : cfg.Valid) (hmany : ¬ cfg.nrPartitions ≤ 1) {n : Nat}
    (hn : n < cfg.nrNumas) :
    Follows (RebStep cfg) (Fresh cfg) (rebInNuma pf cfg n) (fun _ => Fresh cfg) (GapFault cfg) := by
  refine readStats_bind (fun g hg => ⟨.readStats hg, ?_⟩)
  have hkeep : ∀ s, s = g → Fresh cfg s := fun s hs => hs ▸ hg
  have hgap : ∀ p < cfg.nrPartitions, (g.numaStats p n).usedCores = 0 → ∀ s, s = g → Gap cfg s := by
    rintro p hp hz s rfl
    rw [(hg.parts.numaStats n hn p).1] at hz
    exact .partition n p hmany hn hp (List.eq_nil_of_length_eq_zero hz)
  refine .lift_bind (fun e he s hs => ?_) (fun parts hparts => ?_)
  · obtain ⟨he, p, hp, hz⟩ := sortPartitions_error he
    exact Or.inl ⟨he, hgap p hp hz s hs⟩
  have hmem : ∀ x ∈ parts, x.stream < cfg.nrPartitions := by
    intro x hx
    exact List.mem_range.mp ((sortPartitions_ok hparts).mem_iff.mp (List.mem_map_of_mem hx))
  refine .lift_bind (fun e he s hs => ?_) (fun r hr => ?_)
  · obtain ⟨he, x, hx, hz⟩ := choosePartitions_error he
    exact Or.inl ⟨he, hgap x.stream (hmem x hx) hz s hs⟩
  cases r with
  | none => exact .pure hkeep
  | some pids =>
    obtain ⟨fromPid, toPid⟩ := pids
    dsimp only
    obtain ⟨hgive, _, _, _, e', _, _, he', hto⟩ := choosePartitions_some hr
    have htoPid : toPid < cfg.nrPartitions := by
      rw [← hto]
      exact hmem e' (List.mem_of_mem_drop he')
    cases hp : sortStreams pf cfg g (some n) (some fromPid) with
    | none => exact .pure hkeep
    | some params =>
      have hc := sortStreams_some hp
      have hlen : (g.numaStats fromPid n).usedCores = params.length := by
        rw [hc.length_eq]
        exact (hg.parts.numaStats n hc.numa fromPid).1
      have hone : 1 < params.length := by
        rw [← hlen]
        simp only [canGive, Bool.and_eq_true, decide_eq_true_eq] at hgive
        exact hgive.1
      dsimp only
      rw [hlen]
      refine .lift_bind (fun e he => absurd he (chooseStreams_error hone)) (fun r hr => ?_)
      obtain ⟨hends, h1, h2⟩ := chooseStreams_ok hc hr
      have hm1 := (Global.mem_group.mp h1).1
      have hm2 := (Global.mem_group.mp h2).1
      have hsame : SameNuma cfg r.1 r.2 := ⟨n, hc.numa, hm1, hm2⟩
      have hcomb : Follows (RebStep cfg) (fun s => s = g) (combineStreams r.1 r.2)
          (fun _ s => Fresh cfg s ∧ SameShape g s ∧ Emptied s r.1) (GapFault cfg) := by
        refine .perform ?_ (fun s e _ h => Or.inr (abtstCombineStreams_error h))
        intro s t hs ht
        subst hs
        exact ⟨.combine hends (Or.inl hsame) ht, hg.combine hv hends hsame ht,
          combine_sameShape hends.ne ht, combine_emptied hends.ne ht⟩
      refine .bind hcomb (fun _ => ?_)
      refine .bind (Q := fun _ => FreshNumas cfg (List.range cfg.nrNumas)) (.act (fun s hs => ?_)) (fun _ => ?_)
      · exact ⟨.setPartition (hends.of_shape hs.2.1) hc.numa hm1 hm2 htoPid hs.2.2,
          setPartitionId_freshNumas _ _ hs.1.numas⟩
      · exact (updatePartitionStats_follows (fun _ _ _ h => h.of_streams rfl rfl)).post
          (fun _ _ h => ⟨h.1, h.2⟩)

theorem rebInNumas_follows (hv : cfg.Valid) :
    Follows (RebStep cfg) (Fresh cfg) (abtstRebInNumas pf cfg) (fun _ => Fresh cfg) (GapFault cfg) := by
  unfold abtstRebInNumas
  split_ifs with hmany
  · exact .pure (fun _ hs => hs)
  · refine .forM _ (fun i hi => ?_)
    refine readStats_bind (fun g hg => ⟨.readStats hg, ?_⟩)
    split_ifs
    · exact .pure (fun s hs => hs ▸ hg)
    · exact (rebInNuma_follows hv hmany (List.mem_range.mp hi)).pre (fun s hs => hs ▸ hg)

theorem migrateStreams_follows {g : Global} {params : List SortParam} {dst : Nat}
    (he : ∀ e ∈ params, Ends g e.stream dst ∧ CrossNuma cfg g e.stream dst) (budget : Nat)
    {is : List Nat} (his : ∀ i ∈ is, i < params.length) (count : Int) :
    Follows (RebStep cfg) (fun s => SameShape g s) (migrateStreams dst budget params is count)
      (fun _ s => SameShape g s) (GapFault cfg) := by
  induction is generalizing count with
  | nil => exact .pure (fun _ hs => hs)
  | cons i is ih =>
    have ih' := ih (fun j hj => his j (by simp [hj]))
    rw [migrateStreams, entry_of_lt (his i (by simp))]
    refine .lift_bind (fun _ h => by cases h) (fun e hi => ?_)
    have hh := he e (Except.ok.inj hi ▸ List.getElem_mem _)
    refine .read_bind (fun s hs => ?_)
    split_ifs
    · exact (ih' count).pre (fun t ht => ht ▸ hs)
    · exact (ih' count).pre (fun t ht => ht ▸ hs)
    · refine .bind ((combineStreams_follows hh.1 (Or.inr hh.2)).pre (fun t ht => ht ▸ hs)) (fun _ => ?_)
      exact (ih' _).pre (fun t ht => ht.1)

/-- What `reb_between_numas` can do: nothing, or move streams of one partition to
the first stream of that partition in the other node. -/
theorem rebBetweenNumas_cases {Step : Act → Global → Global → Prop} {Q : Unit → Global → Prop}
    {E : Fault → Global → Prop} {g : Global} {src dst avgQdepth : Nat}
    (hread : Step .readStats g g) (hstay : Q () g)
    (hmove : ∀ p paramsFrom paramsTo e,
      (chooseMaxDiff g src dst (List.range cfg.nrPartitions)).1 = some p →
      Collected cfg g src p paramsFrom → Collected cfg g dst p paramsTo → entry paramsTo 0 = .ok e →
      Follows Step (fun s => s = g) (do
        migrateStreams e.stream (min (u32 (((avgQdepth : Int) - (g.numaStat dst).avgQdepth) *
          (g.numaStat dst).usedCores)) (u32 ((chooseMaxDiff g src dst (List.range cfg.nrPartitions)).2 / 2)))
          paramsFrom (List.range (g.numaStats p src).usedCores).reverse 0
        updatePartitionStats cfg
        abtstUpdateNumaStats pf cfg) Q E) :
    Follows Step (fun s => s = g) (rebBetweenNumas pf cfg src dst avgQdepth) Q E := by
  refine readStats_bind (fun s hs => ?_)
  subst hs
  refine ⟨hread, ?_⟩
  have hkeep : ∀ t, t = s → Q () t := fun t ht => ht ▸ hstay
  dsimp only
  cases hp : (chooseMaxDiff s src dst (List.range cfg.nrPartitions)).1 with
  | none => exact .pure hkeep
  | some p =>
    dsimp only
    cases hf : sortStreams pf cfg s (some src) (some p) with
    | none => exact .pure hkeep
    | some paramsFrom =>
      dsimp only
      cases ht : sortStreams pf cfg s (some dst) (some p) with
      | none => exact .pure hkeep
      | some paramsTo =>
        have hct := sortStreams_some ht
        dsimp only
        rw [entry_of_lt hct.pos]
        refine .lift_bind (fun _ h => by cases h) (fun e he => ?_)
        rw [← entry_of_lt] at he
        exact hmove p paramsFrom paramsTo e hp (sortStreams_some hf) hct he

theorem rebBetweenNumas_follows (hv : cfg.Valid) {g : Global} {src dst : Nat} (avgQdepth : Nat)
    (hne : src ≠ dst) (hps : g.power.psState dst = false)
    (hlevel : 3 ≤ g.rebalance.rebalanceLevel) (hg : Fresh cfg g) :
    Follows (RebStep cfg) (fun s => s = g) (rebBetweenNumas pf cfg src dst avgQdepth)
      (fun _ => Fresh cfg) (GapFault cfg) := by
  refine rebBetweenNumas_cases (.readStats hg) hg ?_
  intro p paramsFrom paramsTo e _ hcf hct he
  have hm := Global.mem_group.mp (hct.entry_mem he).1
  have hends : ∀ e' ∈ paramsFrom, Ends g e'.stream e.stream ∧ CrossNuma cfg g e'.stream e.stream := by
    intro e' he'
    have hm' := Global.mem_group.mp (hcf.mem he').1
    refine ⟨⟨?_, hm'.2.1, hm.2.1, by rw [hm'.2.2, hm.2.2]⟩, hlevel, src, hcf.numa, dst, hct.numa,
      hne, hm'.1, hm.1, hps⟩
    intro h
    rw [h] at hm'
    exact hne (hv.numa_unique hcf.numa hct.numa hm'.1 hm.1)
  refine .bind ((migrateStreams_follows hends _ (hcf.reverse_lt hg) _).pre ?_) (fun _ => ?_)
  · rintro t rfl
    exact .refl _
  · refine .bind ((updatePartitionStats_follows (I := fun _ => True) (fun _ _ _ _ => trivial)).pre
      (fun _ _ => trivial)) (fun _ => ?_)
    exact updateNumaStats_follows.pre (fun _ hs => hs.1)

theorem rebBetweenNumasTop_follows (hv : cfg.Valid) :
    Follows (RebStep cfg) (fun s => Fresh cfg s ∧ 3 ≤ s.rebalance.rebalanceLevel)
      (abtstRebBetweenNumas pf cfg) (fun _ => Fresh cfg) (GapFault cfg) := by
  refine readStats_bind (fun g hg => ⟨.readStats hg.1, ?_⟩)
  have hkeep : ∀ s, s = g → Fresh cfg s := fun s hs => hs ▸ hg.1
  dsimp only
  split_ifs
  · exact .pure hkeep
  · cases hc : chooseNumas g (abtstGetAverageQdepth cfg g) (sortNumas pf cfg g true true) with
    | none => exact .pure hkeep
    | some pair =>
      obtain ⟨src, dst⟩ := pair
      obtain ⟨i, e, e', hi, rfl, he', rfl, _⟩ := chooseNumas_some hc
      have hne := stream_ne_of_nodup (sortNumas_nodup pf cfg g true true) hi he'
      have hps := (sortNumas_mem (List.mem_of_getElem? hi)).2 rfl
      exact rebBetweenNumas_follows hv _ (fun h => hne h.symm) hps hg.2 hg.1

theorem planCores_ends (hv : cfg.Valid) {g : Global} {n : Nat} (hn : n < cfg.nrNumas)
    (hlevel : 3 ≤ g.rebalance.rebalanceLevel) {toCores : Nat → Option Nat}
    (hp : planCores cfg g n (List.range cfg.nrPartitions) (fun _ => none) = some toCores) {i j : Nat}
    (hi : i ∈ cfg.coresOf n) (hu : (g.streams i).used = true)
    (hto : toCores (g.streams i).partId = some j) :
    Ends g i j ∧ CrossNuma cfg g i j ∧ j ∉ cfg.coresOf n := by
  obtain ⟨hj, m, hm, hmn, hjm, hps⟩ := planCores_some (by simp) hp hto
  have hin : (g.streams j).used = true ∧ (g.streams j).partId = (g.streams i).partId := by
    simpa [Global.inPart] using hj
  have hjn : j ∉ cfg.coresOf n := fun h => hmn (hv.numa_unique hm hn hjm h)
  exact ⟨⟨fun h => hjn (h ▸ hi), hu, hin.1, hin.2.symm⟩,
    ⟨hlevel, n, hn, m, hm, fun h => hmn h.symm, hi, hjm, hps⟩, hjn⟩

theorem rebCombineNumas_follows (hv : cfg.Valid) {g : Global} {n : Nat} (hn : n < cfg.nrNumas)
    (hlevel : 3 ≤ g.rebalance.rebalanceLevel) (hg : Fresh cfg g) :
    Follows (RebStep cfg) (fun s => s = g) (rebCombineNumas cfg n)
      (fun ok s => SameShape g s ∧ (ok = true →
        ∀ c ∈ cfg.coresOf n, (s.streams c).used = true → Emptied s c)) (WideGap cfg) := by
  refine readStats_bind (fun s hs => ?_)
  subst hs
  refine ⟨.readStats hg, ?_⟩
  by_cases hz : (s.numaStat n).usedCores = 0
  · rw [if_pos hz]
    refine .pure (fun t ht => ?_)
    subst ht
    refine ⟨.refl _, fun _ c hc hu => ?_⟩
    have hlen := (hg.numas n (List.mem_range.mpr hn)).1
    rw [hz] at hlen
    have hnil := List.eq_nil_of_length_eq_zero hlen.symm
    have hmem := Global.mem_usedIn.mpr ⟨hc, hu⟩
    rw [hnil] at hmem
    simp at hmem
  · rw [if_neg hz]
    cases hp : planCores cfg s n (List.range cfg.nrPartitions) (fun _ => none) with
    | none => exact .pure (fun t ht => ⟨ht ▸ .refl _, by simp⟩)
    | some toCores =>
      dsimp only
      refine .bind (Q := fun _ t => SameShape s t ∧ ∀ c ∈ cfg.coresOf n, (t.streams c).used = true →
        Emptied t c) ?_ (fun _ => .pure (fun t ht => ⟨ht.1, fun _ => ht.2⟩))
      refine Follows.pre (P := fun t => SameShape s t ∧ ∀ c ∈ ([] : List Nat),
        (t.streams c).used = true → Emptied t c) ?_ (fun t ht => ⟨ht ▸ .refl _, by simp⟩)
      refine Follows.forM_prefix (J := fun pre t => SameShape s t ∧ ∀ c ∈ pre,
        (t.streams c).used = true → Emptied t c) _ ?_
      intro pre i post hl
      have hi : i ∈ cfg.coresOf n := by rw [hl]; simp
      refine .read_bind (fun t ht => ?_)
      by_cases hu : (t.streams i).used = true
      · rw [if_pos hu]
        have hus : (s.streams i).used = true := by rw [← ht.1.used, hu]
        cases hto : toCores (t.streams i).partId with
        | none =>
          -- the plan has an entry for every partition in range that has cores here
          refine Follows.lift (fun e he u hsu => Or.inr ⟨(Except.error.inj he).symm, fun hparts => ?_⟩)
            (fun _ h => by cases h)
          subst hsu
          refine absurd hto (planCores_total hg.parts hp (Or.inr ?_) ?_)
          · rw [List.mem_range]
            exact hparts i hu
          · rw [(hg.parts.numaStats n hn _).1, ht.1.partId]
            exact Nat.ne_of_gt (List.length_pos_of_mem (Global.mem_group.mpr ⟨hi, hus, rfl⟩))
        | some j =>
          rw [ht.1.partId] at hto
          obtain ⟨hends, hcross, hj⟩ := planCores_ends hv hn hlevel hp hi hus hto
          refine .perform ?_ (fun _ _ _ h => Or.inl (Or.inr (abtstCombineStreams_error h)))
          intro t' u ht' hcomb
          subst ht'
          refine ⟨.combine (hends.of_shape ht.1) (Or.inr ?_) hcomb,
            ht.1.trans (combine_sameShape hends.ne hcomb), ?_⟩
          · rw [CrossNuma, ht.1.rebalance, ht.1.power]
            exact hcross
          · have hpre : j ∉ pre := fun hm => hj (by rw [hl]; simp [hm])
            exact combine_emptied_append hends.ne hcomb hpre ht.2
      · rw [if_neg hu]
        refine .pure (fun t' ht' => ?_)
        subst ht'
        refine ⟨ht.1, fun c hc huc => ?_⟩
        by_cases hci : c = i
        · subst hci
          exact absurd huc hu
        · exact ht.2 c (by simpa [hci] using hc) huc

theorem rebPowerSaving_follows (hv : cfg.Valid) :
    Follows (RebStep cfg) (fun s => 3 ≤ s.rebalance.rebalanceLevel ∧ Fresh cfg s)
      (abtstRebPowerSaving pf cfg) (fun _ => Fresh cfg) (WideGap cfg) := by
  refine readStats_bind (fun g hg => ⟨.readStats hg.2, ?_⟩)
  have hkeep : ∀ s, s = g → Fresh cfg s := fun s hs => hs ▸ hg.2
  dsimp only
  split_ifs with hps hnum hlen hnum' hlen'
  · exact .pure hkeep
  · exact .pure hkeep
  · rw [entry_of_lt (by omega), entry_of_lt (by omega)]
    refine .lift_bind (fun _ h => by cases h) (fun e0 h0 => ?_)
    refine .lift_bind (fun _ h => by cases h) (fun e1 h1 => ?_)
    rw [← entry_of_lt] at h0 h1
    have hm0 := sortNumas_mem (List.mem_of_getElem? (entry_ok h0))
    have hm1 := sortNumas_mem (List.mem_of_getElem? (entry_ok h1))
    have hne : e0.stream ≠ e1.stream :=
      stream_ne_of_nodup (sortNumas_nodup pf cfg g false true) (entry_ok h0)
        (List.mem_of_getElem? (i := 0) (by rw [List.getElem?_drop]; exact entry_ok h1))
    have hfrom : (if e0.stream = 0 then e1.stream else e0.stream) ≠ 0 ∧
        (if e0.stream = 0 then e1.stream else e0.stream) < cfg.nrNumas ∧
        g.power.psState (if e0.stream = 0 then e1.stream else e0.stream) = false := by
      by_cases hz : e0.stream = 0
      · rw [if_pos hz]
        exact ⟨fun h => hne (hz.trans h.symm), hm1.1, hm1.2 rfl⟩
      · rw [if_neg hz]
        exact ⟨hz, hm0.1, hm0.2 rfl⟩
    generalize (if e0.stream = 0 then e1.stream else e0.stream) = n at hfrom
    refine .bind (rebCombineNumas_follows hv hfrom.2.1 hg.1 hg.2) (fun ok => ?_)
    refine .bind (Q := fun _ _ => True) (.onlyIf ?_ (fun _ _ _ => trivial)) (fun _ => ?_)
    · intro hok
      refine .act (fun s hs => ⟨.sleep hfrom.1 hfrom.2.1 ?_ (hs.2 hok), trivial⟩)
      rw [hs.1.power]
      exact hfrom.2.2
    · exact (refresh_follows updatePowerStats_follows).faults fun _ _ => Or.inl
  · exact .pure hkeep
  · cases hf : (sortNumas pf cfg g false false).reverse.find? fun e => g.power.psState e.stream with
    | none => exact .pure hkeep
    | some e =>
      have hm := sortNumas_mem (List.mem_reverse.mp (List.mem_of_find?_eq_some hf))
      refine .act (fun s hs => ?_)
      subst hs
      have hsleep : s.power.psState e.stream = true := by simpa using List.find?_some hf
      exact ⟨.wake hm.1 hsleep, hg.2.of_streams rfl rfl rfl rfl⟩
  · exact .pure hkeep

theorem rebPowerSaving_keepsLevel (hv : cfg.Valid) :
    Follows (RebStep cfg) (fun s => 3 ≤ s.rebalance.rebalanceLevel ∧ Fresh cfg s)
      (abtstRebPowerSaving pf cfg) (fun _ s => Fresh cfg s ∧ 3 ≤ s.rebalance.rebalanceLevel) (WideGap cfg) := by
  have hkeep : ∀ a s t, RebStep cfg a s t → 3 ≤ s.rebalance.rebalanceLevel →
      3 ≤ t.rebalance.rebalanceLevel := fun a s t h hs => by rw [h.rebalance_eq]; exact hs
  exact ((rebPowerSaving_follows hv).and_invariant hkeep).pre (fun s hs => ⟨hs, hs.1⟩)

def passLevels (pf : Platform) (cfg : Config) : Reb Unit := do
  updatePartitionStats cfg
  abtstUpdateNumaStats pf cfg
  abtstUpdatePowerStats pf cfg
  let g ← Prog.read
  let level := g.rebalance.rebalanceLevel
  Prog.onlyIf (3 ≤ level) do
    abtstRebPowerSaving pf cfg
    abtstRebBetweenNumas pf cfg
  Prog.onlyIf (2 ≤ level) (abtstRebInNumas pf cfg)
  Prog.onlyIf (1 ≤ level) (abtstRebInPartitions pf cfg)
  Prog.act .resetStreamsStat (abtstResetStreamsStat cfg)

theorem rebPass_eq (pf : Platform) (cfg : Config) : rebPass pf cfg =
    Prog.act .updateStreamsStat (abtstUpdateStreamsStat cfg) >>= fun _ => passLevels pf cfg := by
  simp only [rebPass, abtstRebUpdateStat, passLevels, bind_assoc]

theorem passLevels_gaps (pf : Platform) (hv : cfg.Valid) :
    Follows (RebStep cfg) (fun _ => True) (passLevels pf cfg) (fun _ _ => True) (WideGap cfg) := by
  have hwide : ∀ e s, GapFault cfg e s → WideGap cfg e s := fun _ _ => Or.inl
  refine .bind (((updatePartitionStats_follows (I := fun _ => True) (fun _ _ _ _ => trivial))).faults
    hwide) (fun _ => ?_)
  refine .bind ((updateNumaStats_follows.pre (fun _ hs => hs.1)).faults hwide) (fun _ => ?_)
  refine .bind (updatePowerStats_follows.faults hwide) (fun _ => ?_)
  refine .read_bind (fun g hg => ?_)
  dsimp only
  refine .bind (Q := fun _ => Fresh cfg) (.onlyIf ?_ (fun _ s hs => hs ▸ hg)) (fun _ => ?_)
  · intro hlevel
    refine .bind ((rebPowerSaving_keepsLevel hv).pre (fun s hs => ?_)) (fun _ =>
      (rebBetweenNumasTop_follows hv).faults hwide)
    subst hs
    exact ⟨hlevel, hg⟩
  · refine .bind (Q := fun _ => Fresh cfg) (.onlyIf ?_ (fun _ _ hs => hs)) (fun _ => ?_)
    · exact fun _ => (rebInNumas_follows hv).faults hwide
    · refine .bind (Q := fun _ => Fresh cfg) (.onlyIf ?_ (fun _ _ hs => hs)) (fun _ => ?_)
      · exact fun _ => (rebInPartitions_follows hv).faults hwide
      · exact .act (fun s _ => ⟨.resetStreamsStat s, trivial⟩)

theorem Follows.in_range {F : Fault → Global → Prop} {m : Reb Unit}
    (h : Follows (RebStep cfg) (fun _ => True) m (fun _ _ => True)
      (fun e s => F e s ∨ (e = .badIndex ∧ ¬ PartsInRange cfg s))) :
    Follows (RebStep cfg) (PartsInRange cfg) m (fun _ _ => True) F := by
  have hparts : ∀ a s t, RebStep cfg a s t → PartsInRange cfg s → PartsInRange cfg t :=
    fun _ _ _ h => h.partsInRange
  refine ((h.keep hparts).mono (fun _ hs => ⟨trivial, hs⟩) (fun _ _ _ => trivial)).faults ?_
  rintro e s ⟨hf | ⟨_, hr⟩, hp⟩
  · exact hf
  · exact absurd hp hr

theorem rebPass_gaps (pf : Platform) (hv : cfg.Valid) :
    Follows (RebStep cfg) (fun _ => True) (rebPass pf cfg) (fun _ _ => True) (WideGap cfg) := by
  rw [rebPass_eq]
  exact .bind (Q := fun _ _ => True) (.act (fun s _ => ⟨.updateStreamsStat s, trivial⟩))
    (fun _ => passLevels_gaps pf hv)

theorem rebPass_follows_any (pf : Platform) (hv : cfg.Valid) :
    Follows (RebStep cfg) (fun _ => True) (rebPass pf cfg) (fun _ _ => True) (WideFault cfg) :=
  (rebPass_gaps pf hv).faults (fun _ _ hf => hf.imp_left GapFault.pass)

theorem rebPass_follows (pf : Platform) (hv : cfg.Valid) :
    Follows (RebStep cfg) (PartsInRange cfg) (rebPass pf cfg) (fun _ _ => True) PassFault :=
  (rebPass_gaps pf hv).in_range.faults (fun _ _ => GapFault.pass)

theorem rebPass_path (pf : Platform) (hv : cfg.Valid) {g : Global} (hp : PartsInRange cfg g) :
    ∃ l, ((rebPass pf cfg).run g).log = (.updateStreamsStat, abtstUpdateStreamsStat cfg g) :: l ∧
      Path (RebStep cfg) (abtstUpdateStreamsStat cfg g) l ((rebPass pf cfg).run g).st := by
  rw [rebPass_eq]
  exact (passLevels_gaps pf hv).in_range.act_path ((RebStep.updateStreamsStat g).partsInRange hp)

end AbtSt
