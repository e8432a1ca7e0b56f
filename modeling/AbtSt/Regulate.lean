import AbtSt.Coverage
import AbtSt.Idle
import AbtSt.Labels
import AbtSt.Pairing
import AbtSt.Power
import AbtSt.Vacate

/-! Power saving from pass to pass. A pass computes from the sleep times how many nodes
could sleep and switches at most one, so that their number follows that value. -/

namespace AbtSt

/-- The part of the interval that the schedulers of a node slept, in percent. -/
def idleOf (cfg : Config) (g : Global) (n : Nat) : Nat :=
  if g.usedIn (cfg.coresOf n) = [] then 100
  else min 100 (((g.usedIn (cfg.coresOf n)).map fun c => (g.streams c).sleepNsec / 1000000).sum % 2 ^ 32 /
    (g.usedIn (cfg.coresOf n)).length * 100 % 2 ^ 32 / u32 (1000 * g.rebalance.rebalanceInterval))

def work (cfg : Config) (g : Global) : Nat :=
  ((List.range cfg.nrNumas).map fun n => 100 - idleOf cfg g n).sum

/-- As many nodes as can sleep while the work is less than half of what the others can do;
one node is always awake. -/
def idleNumas (cfg : Config) (g : Global) : Nat := cfg.nrNumas - (work cfg g / 50 + 1)

section Estimate

variable {pf : Platform} {cfg : Config} {g s : Global}

theorem Global.Timed.two_le (ht : g.Timed) : 2 ≤ u32 (1000 * g.rebalance.rebalanceInterval) := by
  unfold Global.Timed at ht
  -- the interval in milliseconds is a multiple of 8, also modulo 2 ^ 32
  have heven : (u32 (1000 * g.rebalance.rebalanceInterval) : Int) % 8 = 0 := by
    rw [cast_u32, Int.emod_emod_of_dvd _ (by decide)]
    exact Int.emod_eq_zero_of_dvd (Dvd.dvd.mul_right (by decide) _)
  omega

theorem updatePowerStat_idle {n : Nat} (ht : g.Timed) (h : updatePowerStat pf cfg n g = .ok s) :
    s = abtstSetNumaPsPct g n (idleOf cfg g n) := by
  unfold updatePowerStat at h
  simp only [sleepTotals_eq] at h
  unfold idleOf
  by_cases hnil : g.usedIn (cfg.coresOf n) = []
  · rw [if_neg (by simp [hnil])] at h
    rw [if_pos hnil]
    exact (Except.ok.inj h).symm
  · rw [if_pos (by simpa using hnil)] at h
    rw [if_neg hnil]
    obtain ⟨q, hq, h⟩ := except_bind_eq_ok.mp h
    rw [Platform.div_pos ht, Except.ok.injEq] at hq
    have hlt : q < 2 ^ 31 := by
      rw [← hq]
      refine lt_of_le_of_lt (Nat.div_le_div_left ht.two_le (by decide)) ?_
      exact Nat.div_lt_of_lt_mul (Nat.mod_lt _ (by decide))
    rw [← Except.ok.inj h, cap_pct hlt, hq]

theorem foldl_i32_sum (f : Nat → Nat) (is : List Nat) (acc : Nat) (hf : ∀ i ∈ is, f i ≤ 100)
    (hlt : acc + 100 * is.length < 2 ^ 31) :
    is.foldl (fun pct i => i32 (pct + f i)) (acc : Int) = (acc + (is.map f).sum : Nat) := by
  induction is generalizing acc with
  | nil => simp
  | cons i is ih =>
    have hi := hf i (by simp)
    rw [List.length_cons] at hlt
    rw [List.foldl_cons, i32_of_lt (by omega) (by omega)]
    have hrest := ih (acc + f i) (fun j hj => hf j (by simp [hj])) (by omega)
    rw [Nat.cast_add] at hrest
    rw [hrest, List.map_cons, List.sum_cons]
    congr 1
    omega

theorem sum_map_sub (f : Nat → Nat) (is : List Nat) (hf : ∀ i ∈ is, f i ≤ 100) :
    (is.map fun i => 100 - f i).sum + (is.map f).sum = 100 * is.length := by
  induction is with
  | nil => rfl
  | cons i is ih =>
    have hi := hf i (by simp)
    have hrest := ih (fun j hj => hf j (by simp [hj]))
    simp only [List.map_cons, List.sum_cons, List.length_cons]
    omega

/-- The search for the number of nodes that stay awake, in closed form. -/
theorem abtstEstimatePsNumas_eq (hv : cfg.Valid) {f : Nat → Nat} (hf : ∀ n, f n ≤ 100)
    (hpct : ∀ n < cfg.nrNumas, g.power.psPct n = f n) :
    abtstEstimatePsNumas cfg g =
      ((cfg.nrNumas - (((List.range cfg.nrNumas).map fun n => 100 - f n).sum / 50 + 1) : Nat) : Int) := by
  have hfew : cfg.nrNumas ≤ 8 := hv.nrNumas_le
  have hfold : (List.range cfg.nrNumas).foldl (fun pct i => i32 (pct + g.power.psPct i)) 0 =
      (((List.range cfg.nrNumas).map f).sum : Nat) := by
    have hmap : (List.range cfg.nrNumas).map g.power.psPct = (List.range cfg.nrNumas).map f :=
      List.map_congr_left fun n hn => hpct n (List.mem_range.mp hn)
    have h := foldl_i32_sum g.power.psPct (List.range cfg.nrNumas) 0
      (fun n hn => (hpct n (List.mem_range.mp hn)).trans_le (hf n))
      (by rw [List.length_range]; omega)
    rw [hmap, Nat.zero_add] at h
    exact h
  have hsum := sum_map_sub f (List.range cfg.nrNumas) (fun n _ => hf n)
  rw [List.length_range] at hsum
  have hwork : u32 (cfg.nrNumas * 100 - (((List.range cfg.nrNumas).map f).sum : Nat)) =
      ((List.range cfg.nrNumas).map fun n => 100 - f n).sum := by
    rw [show (cfg.nrNumas * 100 - (((List.range cfg.nrNumas).map f).sum : Nat) : Int) =
      (((List.range cfg.nrNumas).map fun n => 100 - f n).sum : Nat) by omega]
    exact u32_of_lt (by omega)
  unfold abtstEstimatePsNumas
  simp only [hfold, hwork]
  generalize ((List.range cfg.nrNumas).map fun n => 100 - f n).sum = b
  cases hfind : (List.range' 1 (cfg.nrNumas - 1)).find? fun i => decide (b < 50 * i) with
  | none =>
    have hall := List.find?_eq_none.mp hfind
    by_cases hone : cfg.nrNumas ≤ 1
    · dsimp only
      omega
    · have hlast := hall (cfg.nrNumas - 1) (by rw [List.mem_range'_1]; omega)
      rw [decide_eq_true_eq] at hlast
      dsimp only
      omega
  | some i =>
    obtain ⟨hi, hmem, hbefore⟩ := List.find?_range'_eq_some.mp hfind
    rw [decide_eq_true_eq] at hi
    rw [List.mem_range'_1] at hmem
    dsimp only
    by_cases hone : i = 1
    · omega
    · have hprev := hbefore (i - 1) (by omega) (by omega)
      rw [Bool.not_eq_true', decide_eq_false_iff_not] at hprev
      omega

end Estimate

/-- What power saving looks at, the statistics apart. -/
structure SameIdle (g s : Global) : Prop where
  used : ∀ c, (s.streams c).used = (g.streams c).used
  sleepNsec : ∀ c, (s.streams c).sleepNsec = (g.streams c).sleepNsec
  rebalance : s.rebalance = g.rebalance
  psState : s.power.psState = g.power.psState
  nrPsNumas : s.power.nrPsNumas = g.power.nrPsNumas
  psEnabled : s.power.psEnabled = g.power.psEnabled

section Idle

variable {pf : Platform} {cfg : Config} {g s t : Global}

theorem SameIdle.idleOf (h : SameIdle g s) (n : Nat) : idleOf cfg s n = idleOf cfg g n := by
  unfold AbtSt.idleOf
  simp only [Global.usedIn_congr h.used, h.sleepNsec, h.rebalance]

theorem SameIdle.of_eq (h : SameIdle g s) (hs : t.streams = s.streams) (hr : t.rebalance = s.rebalance)
    (hp : t.power = s.power) : SameIdle g t := by
  refine ⟨fun c => ?_, fun c => ?_, hr.trans h.rebalance, ?_, ?_, ?_⟩
  · rw [hs, h.used]
  · rw [hs, h.sleepNsec]
  · rw [hp, h.psState]
  · rw [hp, h.nrPsNumas]
  · rw [hp, h.psEnabled]

theorem updateStreamsStat_sameIdle (cfg : Config) (g : Global) : SameIdle g (abtstUpdateStreamsStat cfg g) := by
  refine ⟨fun c => ?_, fun c => ?_, rfl, rfl, rfl, rfl⟩ <;> unfold abtstUpdateStreamsStat <;> dsimp only <;>
    split_ifs <;> rfl

theorem idleOf_le (cfg : Config) (g : Global) (n : Nat) : idleOf cfg g n ≤ 100 := by
  unfold idleOf
  split_ifs
  · exact Nat.le_refl _
  · exact Nat.min_le_left _ _

theorem abtstRebUpdateStat_idle (pf : Platform) (ht : g.Timed) :
    Follows AnyAct (fun s => s = g) (abtstRebUpdateStat pf cfg)
      (fun _ s => SameIdle g s ∧ ∀ n < cfg.nrNumas, s.power.psPct n = idleOf cfg g n) (fun _ _ => True) := by
  refine .bind (Q := fun _ => SameIdle g) (.act fun s hs => ⟨trivial, ?_⟩) (fun _ => ?_)
  · rw [hs]
    exact updateStreamsStat_sameIdle cfg g
  refine .bind (Q := fun _ => SameIdle g) (.act fun s hs => ⟨trivial, ?_⟩) (fun _ => ?_)
  · obtain ⟨_, _, hf⟩ := abtstUpdatePartitionStats_frame cfg s
    rw [hf]
    exact hs.of_eq rfl rfl rfl
  refine .bind (Q := fun _ => SameIdle g)
    (.forM _ fun n hn => .perform ?_ (fun _ _ _ _ => trivial)) (fun _ => ?_)
  · intro s t hs ht
    obtain ⟨_, rfl, _⟩ := updateNumaStat_ok (List.mem_range.mp hn) ht
    exact ⟨trivial, hs.of_eq rfl rfl rfl⟩
  refine Follows.mono (Follows.forM_prefix (J := fun ns s => SameIdle g s ∧
    ∀ n ∈ ns, s.power.psPct n = idleOf cfg g n) _ ?_) (fun s hs => ⟨hs, by simp⟩)
    (fun _ s hs => ⟨hs.1, fun n hn => hs.2 n (List.mem_range.mpr hn)⟩)
  intro pre i post _
  refine .perform (fun s t hs hst => ⟨trivial, ?_⟩) (fun _ _ _ _ => trivial)
  have htimed : s.Timed := by
    unfold Global.Timed
    rw [hs.1.rebalance]
    exact ht
  rw [updatePowerStat_idle htimed hst, hs.1.idleOf]
  refine ⟨⟨hs.1.used, hs.1.sleepNsec, hs.1.rebalance, hs.1.psState, hs.1.nrPsNumas, hs.1.psEnabled⟩, ?_⟩
  intro n hn
  by_cases hni : n = i
  · subst hni
    simp [abtstSetNumaPsPct]
  · have hpre : n ∈ pre := by simpa [hni] using hn
    simpa [abtstSetNumaPsPct, hni] using hs.2 n hpre

end Idle

def usedCores (cfg : Config) (g : Global) (n : Nat) : Nat := (g.usedIn (cfg.coresOf n)).length

/-- Of the nodes that are awake, node 0 apart, one with the fewest used cores goes to sleep. -/
structure FallsAsleep (cfg : Config) (g s : Global) (n : Nat) : Prop where
  numa : n < cfg.nrNumas
  ne : n ≠ 0
  awake : g.power.psState n = false
  least : ∀ m < cfg.nrNumas, m ≠ 0 → g.power.psState m = false → usedCores cfg g n ≤ usedCores cfg g m
  psState : s.power.psState = Function.update g.power.psState n true
  nrPsNumas : s.power.nrPsNumas = g.power.nrPsNumas + 1

/-- Of the nodes that sleep one with the most used cores wakes up. -/
structure WakesUp (cfg : Config) (g s : Global) (n : Nat) : Prop where
  numa : n < cfg.nrNumas
  asleep : g.power.psState n = true
  most : ∀ m < cfg.nrNumas, g.power.psState m = true → usedCores cfg g m ≤ usedCores cfg g n
  psState : s.power.psState = Function.update g.power.psState n false
  nrPsNumas : s.power.nrPsNumas = g.power.nrPsNumas - 1

structure SamePower (g s : Global) : Prop where
  psState : s.power.psState = g.power.psState
  nrPsNumas : s.power.nrPsNumas = g.power.nrPsNumas

/-- At most one node is switched, towards `k` sleeping nodes. -/
structure Regulated (cfg : Config) (k : Nat) (g s : Global) : Prop where
  sleep : g.power.nrPsNumas < k → ∃ n, FallsAsleep cfg g s n
  wake : k < g.power.nrPsNumas → ∃ n, WakesUp cfg g s n
  stay : g.power.nrPsNumas = k → SamePower g s

section Choice

variable {pf : Platform} {cfg : Config} {g s t : Global}

theorem sortNumas_usedCores (hv : cfg.Valid) (hf : Fresh cfg g) {checkPs : Bool} {e : SortParam}
    (he : e ∈ sortNumas pf cfg g false checkPs) : e.ios = usedCores cfg g e.stream := by
  obtain ⟨n, hn, rfl⟩ := List.mem_map.mp ((sortNumas_entries pf cfg g false checkPs).mem_iff.mp he)
  have hlt := List.mem_range.mp (List.mem_filter.mp hn).1
  have hlen := (hf.numas n (List.mem_range.mpr hlt)).1
  have hle := length_usedIn_le_nrCores hv g hlt
  have hcores := hv.nrCores_lt
  rw [if_neg (by simp), hlen]
  exact i32_of_lt (by omega) (by omega)

theorem sortNumas_ordered (pf : Platform) (hv : cfg.Valid) (hf : Fresh cfg g) (checkPs : Bool) :
    (sortNumas pf cfg g false checkPs).Pairwise fun a b =>
      usedCores cfg g a.stream ≤ usedCores cfg g b.stream := by
  refine (sortNumas_sorted pf cfg g false checkPs).imp_of_mem (fun ha hb hab => ?_)
  rw [sortNumas_usedCores hv hf ha, sortNumas_usedCores hv hf hb] at hab
  exact Int.ofNat_le.mp hab

theorem exists_sortNumas (pf : Platform) {checkPs : Bool} {m : Nat} (hm : m < cfg.nrNumas)
    (hps : checkPs = true → g.power.psState m = false) :
    ∃ e ∈ sortNumas pf cfg g false checkPs, e.stream = m := by
  apply List.mem_map.mp
  rw [(sortNumas_perm pf cfg g false checkPs).mem_iff, List.mem_filter]
  refine ⟨List.mem_range.mpr hm, ?_⟩
  cases checkPs with
  | false => rfl
  | true => simp [hps rfl]

theorem fromNuma_least (hv : cfg.Valid) (hf : Fresh cfg g) {e0 e1 : SortParam}
    (h0 : entry (sortNumas pf cfg g false true) 0 = .ok e0)
    (h1 : entry (sortNumas pf cfg g false true) 1 = .ok e1) {n : Nat}
    (hn : n = if e0.stream = 0 then e1.stream else e0.stream) {m : Nat} (hm : m < cfg.nrNumas) (hm0 : m ≠ 0)
    (hawake : g.power.psState m = false) : usedCores cfg g n ≤ usedCores cfg g m := by
  have hsorted := sortNumas_ordered pf hv hf true
  obtain ⟨e, he, rfl⟩ := exists_sortNumas pf hm (fun _ : true = true => hawake)
  obtain ⟨j, hj, hje⟩ := List.mem_iff_getElem.mp he
  obtain ⟨hlt0, h0'⟩ := List.getElem?_eq_some_iff.mp (entry_ok h0)
  obtain ⟨hlt1, h1'⟩ := List.getElem?_eq_some_iff.mp (entry_ok h1)
  rw [List.pairwise_iff_getElem] at hsorted
  rw [hn]
  by_cases hz : e0.stream = 0
  · rw [if_pos hz]
    rcases Nat.lt_trichotomy j 1 with hj1 | rfl | hj1
    · obtain rfl : j = 0 := by omega
      rw [h0'] at hje
      exact absurd (hje ▸ hz) hm0
    · rw [← hje, h1']
    · have hle := hsorted 1 j hlt1 hj hj1
      rwa [h1', hje] at hle
  · rw [if_neg hz]
    by_cases hj0 : j = 0
    · subst hj0
      rw [← hje, h0']
    · have hle := hsorted 0 j hlt0 hj (Nat.pos_of_ne_zero hj0)
      rwa [h0', hje] at hle

theorem wakes_most (hv : cfg.Valid) (hf : Fresh cfg g) {e : SortParam}
    (he : (sortNumas pf cfg g false false).reverse.find? (fun e => g.power.psState e.stream) = some e) {m : Nat}
    (hm : m < cfg.nrNumas) (hsleep : g.power.psState m = true) :
    usedCores cfg g m ≤ usedCores cfg g e.stream := by
  have hsorted := List.pairwise_reverse.mpr (sortNumas_ordered pf hv hf false)
  obtain ⟨x, hx, rfl⟩ : ∃ x ∈ sortNumas pf cfg g false false, x.stream = m :=
    exists_sortNumas pf hm (fun h => by cases h)
  obtain ⟨_, before, after, hsplit, hbefore⟩ := List.find?_eq_some_iff_append.mp he
  have hx' := List.mem_reverse.mpr hx
  rw [hsplit] at hx' hsorted
  rcases List.mem_append.mp hx' with hin | hin
  · have hnot := hbefore x hin
    simp [hsleep] at hnot
  · rcases List.mem_cons.mp hin with rfl | hin
    · exact Nat.le_refl _
    · exact (List.pairwise_cons.mp (List.pairwise_append.mp hsorted).2.1).1 x hin

theorem sortNumas_awake_length (pf : Platform) (hs : Saving cfg g) :
    (sortNumas pf cfg g false true).length + g.power.nrPsNumas = cfg.nrNumas := by
  have hlen := (sortNumas_perm pf cfg g false true).length_eq
  have hcount := List.length_eq_countP_add_countP g.power.psState (l := List.range cfg.nrNumas)
  rw [List.length_map, ← List.countP_eq_length_filter] at hlen
  rw [hs.count, hlen, sleeping]
  rw [List.length_range] at hcount
  simp only [Bool.true_and] at hlen ⊢
  have hneg : (List.range cfg.nrNumas).countP (fun i => !g.power.psState i) =
      (List.range cfg.nrNumas).countP (fun i => decide ¬ g.power.psState i = true) :=
    List.countP_congr (fun i _ => by simp)
  omega

theorem Saving.exists_asleep (h : Saving cfg g) (hpos : 0 < g.power.nrPsNumas) :
    ∃ m < cfg.nrNumas, m ≠ 0 ∧ g.power.psState m = true := by
  rw [h.count, sleeping] at hpos
  obtain ⟨m, hm, hsleep⟩ := List.countP_pos_iff.mp (Int.ofNat_lt.mp hpos)
  refine ⟨m, List.mem_range.mp hm, fun h0 => ?_, hsleep⟩
  rw [h0, h.node0] at hsleep
  cases hsleep

theorem Saving.find_asleep (pf : Platform) (h : Saving cfg g) (hpos : 0 < g.power.nrPsNumas) :
    ∃ e, (sortNumas pf cfg g false false).reverse.find? (fun e => g.power.psState e.stream) = some e := by
  obtain ⟨m, hm, _, hasleep⟩ := h.exists_asleep hpos
  obtain ⟨e, he, rfl⟩ : ∃ e ∈ sortNumas pf cfg g false false, e.stream = m :=
    exists_sortNumas pf hm (fun h => by cases h)
  apply Option.isSome_iff_exists.mp
  rw [List.find?_isSome]
  exact ⟨e, List.mem_reverse.mpr he, hasleep⟩

/-- With a core of every partition in node 0 there is always somewhere to go. -/
theorem rebCombineNumas_true {n : Nat} (hf : Fresh cfg g) (hs : Saving cfg g) (hbase : Represented cfg g 0)
    (h0 : 0 < cfg.nrNumas) (hne : n ≠ 0) :
    Follows AnyAct (fun s => s = g) (rebCombineNumas cfg n) (fun ok _ => ok = true) (fun _ _ => True) := by
  refine readStats_bind (fun s hs' => ⟨trivial, ?_⟩)
  subst hs'
  split_ifs
  · exact .pure (fun _ _ => rfl)
  · cases hp : planCores cfg s n (List.range cfg.nrPartitions) (fun _ => none) with
    | none =>
      obtain ⟨p, hmem, _, hnone⟩ := (planCores_none_iff _ _).mp hp
      have hzero := hnone 0 h0 (fun h => hne h.symm) hs.node0
      rw [(hf.parts.numaStats 0 h0 p).1, List.length_eq_zero_iff] at hzero
      exact absurd hzero (hbase p (List.mem_range.mp hmem))
    | some toCores =>
      refine .bind (Q := fun _ _ => True) ?_ (fun _ => .pure (fun _ _ => rfl))
      refine .mono (P := fun _ => True) (.forM _ fun i _ => .read_bind (fun t _ => ?_)) (fun _ _ => trivial)
        (fun _ _ _ => trivial)
      split_ifs
      · cases toCores (t.streams i).partId with
        | none => exact .lift (fun _ _ _ _ => trivial) (fun _ _ _ _ => trivial)
        | some j => exact .perform (fun _ _ _ _ => ⟨trivial, trivial⟩) (fun _ _ _ _ => trivial)
      · exact .pure (fun _ _ => trivial)

end Choice

section Regulated

variable {pf : Platform} {cfg : Config} {k : Nat} {g s t : Global}

theorem SamePower.refl (g : Global) : SamePower g g := ⟨rfl, rfl⟩

theorem SamePower.trans (h : SamePower g s) (h' : SamePower s t) : SamePower g t :=
  ⟨h'.psState.trans h.psState, h'.nrPsNumas.trans h.nrPsNumas⟩

theorem RebStep.samePower {a : Act} (h : RebStep cfg a s t) (ha : ¬ a.Switches) : SamePower s t := by
  cases h with
  | updatePartitionStats =>
    obtain ⟨_, _, hf⟩ := abtstUpdatePartitionStats_frame cfg s
    rw [hf]
    exact ⟨rfl, rfl⟩
  | combine he _ hc =>
    have hp := (combine_sameShape he.ne hc).power
    exact ⟨by rw [hp], by rw [hp]⟩
  | rebalance he _ hr =>
    obtain ⟨_, _, _, _, _, rfl⟩ := abtstRebalanceStreams_some he.ne hr
    exact ⟨rfl, rfl⟩
  | sleep => exact absurd trivial ha
  | wake => exact absurd trivial ha
  | _ => exact ⟨rfl, rfl⟩

theorem FallsAsleep.same {n : Nat} (h : FallsAsleep cfg g s n) (hs : SamePower s t) : FallsAsleep cfg g t n :=
  ⟨h.numa, h.ne, h.awake, h.least, hs.psState.trans h.psState, hs.nrPsNumas.trans h.nrPsNumas⟩

theorem WakesUp.same {n : Nat} (h : WakesUp cfg g s n) (hs : SamePower s t) : WakesUp cfg g t n :=
  ⟨h.numa, h.asleep, h.most, hs.psState.trans h.psState, hs.nrPsNumas.trans h.nrPsNumas⟩

theorem Regulated.same (h : Regulated cfg k g s) (hs : SamePower s t) : Regulated cfg k g t :=
  ⟨fun hlt => (h.sleep hlt).imp fun _ hn => hn.same hs, fun hlt => (h.wake hlt).imp fun _ hn => hn.same hs,
    fun he => (h.stay he).trans hs⟩

theorem SameIdle.usedCores (h : SameIdle g s) (n : Nat) : usedCores cfg s n = usedCores cfg g n := by
  unfold AbtSt.usedCores
  rw [Global.usedIn_congr h.used]

theorem FallsAsleep.of_idle {n : Nat} (h : FallsAsleep cfg s t n) (hs : SameIdle g s) :
    FallsAsleep cfg g t n := by
  obtain ⟨hn, hne, hawake, hleast, hstate, hcount⟩ := h
  rw [hs.psState] at hawake hleast hstate
  rw [hs.nrPsNumas] at hcount
  simp only [hs.usedCores] at hleast
  exact ⟨hn, hne, hawake, hleast, hstate, hcount⟩

theorem WakesUp.of_idle {n : Nat} (h : WakesUp cfg s t n) (hs : SameIdle g s) : WakesUp cfg g t n := by
  obtain ⟨hn, hasleep, hmost, hstate, hcount⟩ := h
  rw [hs.psState] at hasleep hmost hstate
  rw [hs.nrPsNumas] at hcount
  simp only [hs.usedCores] at hmost
  exact ⟨hn, hasleep, hmost, hstate, hcount⟩

/-- The statistics of a pass change nothing that the choice of a node depends on. -/
theorem Regulated.of_idle (h : Regulated cfg k s t) (hs : SameIdle g s) : Regulated cfg k g t := by
  obtain ⟨hsleep, hwake, hstay⟩ := h
  rw [hs.nrPsNumas] at hsleep hwake hstay
  refine ⟨fun hlt => ?_, fun hlt => ?_, fun he => ?_⟩
  · exact (hsleep hlt).imp fun _ hn => hn.of_idle hs
  · exact (hwake hlt).imp fun _ hn => hn.of_idle hs
  · exact ⟨(hstay he).psState.trans hs.psState, (hstay he).nrPsNumas.trans hs.nrPsNumas⟩

/-- A node is emptied and goes to sleep; only the statistics change after that. -/
theorem combineNumas_fallsAsleep {n : Nat} (hv : cfg.Valid) (hf : Fresh cfg g) (hs : Saving cfg g)
    (hbase : Represented cfg g 0) (h0 : 0 < cfg.nrNumas) (hlevel : 3 ≤ g.rebalance.rebalanceLevel)
    (hn : n < cfg.nrNumas) (hne : n ≠ 0) (hawake : g.power.psState n = false)
    (hleast : ∀ m < cfg.nrNumas, m ≠ 0 → g.power.psState m = false → usedCores cfg g n ≤ usedCores cfg g m) :
    Follows (RebStep cfg) (fun s => s = g)
      (do
        let ok ← rebCombineNumas cfg n
        Prog.onlyIf (ok = true) (Prog.act (.setPsState n true) (abtstSetNumaPsState n true))
        updatePartitionStats cfg
        abtstUpdateNumaStats pf cfg
        abtstUpdatePowerStats pf cfg)
      (fun _ t => FallsAsleep cfg g t n) (fun _ _ => True) := by
  have hcombine := (rebCombineNumas_follows hv hn hlevel hf).and (rebCombineNumas_true hf hs hbase h0 hne)
  refine .bind ((hcombine.relax (fun _ _ _ h => h.1)).faults (fun _ _ _ => trivial)) (fun ok => ?_)
  refine .bind (Q := fun _ t => True ∧ FallsAsleep cfg g t n) (.onlyIf (fun hok => .act fun t ht => ?_) ?_)
    (fun _ => ?_)
  · refine ⟨.sleep hne hn (by rw [ht.1.1.power]; exact hawake) (ht.1.2 hok), trivial, hn, hne, hawake,
      hleast, ?_, ?_⟩
    · simp [abtstSetNumaPsState, ht.1.1.power]
    · simp [abtstSetNumaPsState, ht.1.1.power]
  · exact fun hok t ht => absurd ht.2 hok
  · have hfresh : Follows (RebStep cfg) (fun _ => True)
        (do updatePartitionStats cfg; abtstUpdateNumaStats pf cfg; abtstUpdatePowerStats pf cfg)
        (fun _ => Fresh cfg) (GapFault cfg) := refresh_follows updatePowerStats_follows
    have hkeep : ∀ a t u, RebStep cfg a t u → ¬ a.Switches → FallsAsleep cfg g t n → FallsAsleep cfg g u n :=
      fun _ _ _ hst ha ht => ht.same (hst.samePower ha)
    exact (hfresh.within hkeep ((refresh_counts pf cfg).mono fun _ h => h.plain.2)).post (fun _ t ht => ht.2)

theorem rebPowerSaving_regulates (hv : cfg.Valid) (hf : Fresh cfg g) (hs : Saving cfg g)
    (hbase : Represented cfg g 0) (h0 : 0 < cfg.nrNumas) (hlevel : 3 ≤ g.rebalance.rebalanceLevel)
    (hon : g.power.psEnabled = true) (hk : abtstEstimatePsNumas cfg g = k) (hlt : k < cfg.nrNumas) :
    Follows (RebStep cfg) (fun s => s = g) (abtstRebPowerSaving pf cfg)
      (fun _ => Regulated cfg k g) (fun _ _ => True) := by
  refine readStats_bind (fun s hs' => ⟨?_, ?_⟩)
  · subst hs'
    exact .readStats hf
  subst hs'
  dsimp only
  rw [hk, if_neg (by simp [hon])]
  have hawake := sortNumas_awake_length pf hs
  split_ifs with hsleep hlen hwake hlen
  -- more nodes can sleep: two are awake at least, and one of them is not node 0
  · omega
  · refine .lift_bind (fun _ _ _ _ => trivial) (fun e0 he0 => ?_)
    refine .lift_bind (fun _ _ _ _ => trivial) (fun e1 he1 => ?_)
    have hm0 := sortNumas_mem (List.mem_of_getElem? (entry_ok he0))
    have hm1 := sortNumas_mem (List.mem_of_getElem? (entry_ok he1))
    have hne : e0.stream ≠ e1.stream :=
      stream_ne_of_nodup (sortNumas_nodup pf cfg s false true) (entry_ok he0)
        (List.mem_of_getElem? (i := 0) (by rw [List.getElem?_drop]; exact entry_ok he1))
    obtain ⟨n, hn⟩ : ∃ n, n = if e0.stream = 0 then e1.stream else e0.stream := ⟨_, rfl⟩
    have hfrom : n ≠ 0 ∧ n < cfg.nrNumas ∧ s.power.psState n = false := by
      rw [hn]
      split_ifs with hz
      · exact ⟨fun h => hne (hz.trans h.symm), hm1.1, hm1.2 rfl⟩
      · exact ⟨hz, hm0.1, hm0.2 rfl⟩
    rw [← hn]
    refine (combineNumas_fallsAsleep hv hf hs hbase h0 hlevel hfrom.2.1 hfrom.1 hfrom.2.2
      (fun m => fromNuma_least hv hf he0 he1 hn)).post (fun _ t ht => ?_)
    exact ⟨fun _ => ⟨n, ht⟩, fun h => by omega, fun h => by omega⟩
  -- fewer can: one that sleeps is found
  · obtain ⟨m, hm, hne, _⟩ := hs.exists_asleep (by omega)
    have hall := (sortNumas_perm pf cfg s false false).length_eq
    simp only [List.length_map, Bool.false_and, Bool.not_false, List.filter_true, List.length_range] at hall
    omega
  · obtain ⟨e, hfind⟩ := hs.find_asleep pf (by omega)
    have hm := sortNumas_mem (List.mem_reverse.mp (List.mem_of_find?_eq_some hfind))
    have hasleep : s.power.psState e.stream = true := by simpa using List.find?_some hfind
    rw [hfind]
    refine .act (fun t ht => ?_)
    subst ht
    refine ⟨.wake hm.1 hasleep, fun h => by omega, fun _ => ⟨e.stream, hm.1, hasleep, ?_, rfl, rfl⟩,
      fun h => by omega⟩
    exact fun m hm hms => wakes_most hv hf hfind hm hms
  · refine .pure (fun t ht => ?_)
    subst ht
    exact ⟨fun h => by omega, fun h => by omega, fun _ => .refl t⟩

theorem rebPowerSaving_off (hf : Fresh cfg g) (hoff : g.power.psEnabled = false) :
    Follows (RebStep cfg) (fun s => s = g) (abtstRebPowerSaving pf cfg) (fun _ s => s = g)
      (fun _ _ => True) := by
  refine readStats_bind (fun s hs => ⟨hs ▸ .readStats hf, ?_⟩)
  subst hs
  dsimp only
  rw [if_pos hoff]
  exact .pure (fun t ht => ht)

/-- What a pass does to the nodes. -/
def Outcome (cfg : Config) (g s : Global) : Prop :=
  if 3 ≤ g.rebalance.rebalanceLevel ∧ g.power.psEnabled = true then Regulated cfg (idleNumas cfg g) g s
  else SamePower g s

theorem Outcome.on (hl : 3 ≤ g.rebalance.rebalanceLevel) (hp : g.power.psEnabled = true)
    (h : Regulated cfg (idleNumas cfg g) g s) : Outcome cfg g s := by
  unfold Outcome
  rwa [if_pos ⟨hl, hp⟩]

theorem Outcome.off (hoff : ¬ (3 ≤ g.rebalance.rebalanceLevel ∧ g.power.psEnabled = true))
    (h : SamePower g s) : Outcome cfg g s := by
  unfold Outcome
  rwa [if_neg hoff]

theorem Outcome.same (h : Outcome cfg g s) (hs : SamePower s t) : Outcome cfg g t := by
  unfold Outcome at h ⊢
  split_ifs at h ⊢
  · exact h.same hs
  · exact h.trans hs

theorem rebPass_outcome (pf : Platform) (hv : cfg.Valid) (h0 : 0 < cfg.nrNumas) (hs : Saving cfg g)
    (hbase : Represented cfg g 0) (ht : g.Timed) :
    Follows (RebStep cfg) (fun s => s = g) (rebPass pf cfg) (fun _ => Outcome cfg g) (fun _ _ => True) := by
  have hsame : ∀ a s t, RebStep cfg a s t → ¬ a.Switches → Outcome cfg g s → Outcome cfg g t :=
    fun _ _ _ hst ha ho => ho.same (hst.samePower ha)
  have hstart : Follows (RebStep cfg) (fun s => s = g) (abtstRebUpdateStat pf cfg) (fun _ s => Fresh cfg s ∧
      s.streams = (abtstUpdateStreamsStat cfg g).streams ∧ s.rebalance = g.rebalance) (fun _ _ => True) :=
    updateStat_follows pf
  have hupdate := ((hstart.and (abtstRebUpdateStat_idle pf ht)).relax (fun _ _ _ h => h.1)).faults
    (fun _ _ _ => trivial)
  refine .bind hupdate (fun _ => .read_bind (fun s hs' => ?_))
  obtain ⟨⟨hf, hstreams, hreb⟩, hidle, hpct⟩ := hs'
  have hqueues := updateStreamsStat_queues cfg g
  have hsaving : Saving cfg s := hs.of_queues (fun c => by rw [hstreams]; exact hqueues.1.loadQ c)
    hidle.psState hidle.nrPsNumas
  have hbased : Represented cfg s 0 := by
    intro p hp
    rw [Global.group_congr hidle.used (fun c => by rw [hstreams]; exact hqueues.2 c)]
    exact hbase p hp
  have hk : abtstEstimatePsNumas cfg s = idleNumas cfg g := abtstEstimatePsNumas_eq hv (idleOf_le cfg g) hpct
  have hlt : idleNumas cfg g < cfg.nrNumas := Nat.sub_lt h0 (Nat.succ_pos _)
  dsimp only
  refine .bind (Q := fun _ t => Fresh cfg t ∧ Outcome cfg g t)
    (.onlyIf (fun hlevel => ?_) (fun hlevel t ht' => ?_))
    (fun _ => ?_)
  · have hsave : Follows (RebStep cfg) (fun t => t = s) (abtstRebPowerSaving pf cfg)
        (fun _ => Outcome cfg g) (fun _ _ => True) := by
      by_cases hon : s.power.psEnabled = true
      · refine (rebPowerSaving_regulates hv hf hsaving hbased h0 hlevel hon hk hlt).post (fun _ t hr => ?_)
        exact Outcome.on (hreb ▸ hlevel) (hidle.psEnabled ▸ hon) (hr.of_idle hidle)
      · refine (rebPowerSaving_off hf (Bool.eq_false_iff.mpr hon)).post (fun _ t hr => ?_)
        exact Outcome.off (fun h => hon (hidle.psEnabled ▸ h.2)) (hr ▸ ⟨hidle.psState, hidle.nrPsNumas⟩)
    have hfresh : Follows (RebStep cfg) (fun t => t = s) (abtstRebPowerSaving pf cfg)
        (fun _ t => Fresh cfg t ∧ 3 ≤ t.rebalance.rebalanceLevel) (WideGap cfg) :=
      (rebPowerSaving_keepsLevel hv).pre (fun t ht' => ht' ▸ ⟨hlevel, hf⟩)
    refine .bind (((hfresh.and hsave).relax (fun _ _ _ h => h.1)).faults (fun _ _ _ => trivial)) (fun _ => ?_)
    exact (rebBetweenNumasTop_follows hv).within hsame
      ((abtstRebBetweenNumas_plain pf cfg).mono fun _ h => h.2)
  · subst ht'
    exact ⟨hf, Outcome.off (fun h => hlevel (hreb ▸ h.1)) ⟨hidle.psState, hidle.nrPsNumas⟩⟩
  · exact lowerLevels_keep hv pf _ hsame (abtstRebInNumas_awake pf cfg)
      ((abtstRebInPartitions_plain pf cfg).mono fun _ h => h.2) id

end Regulated

section IdleRun

variable {cfg : Config} {k m : Nat} {g s t : Global}

theorem Regulated.step (h : Regulated cfg k s t) :
    (t.power.nrPsNumas - k).natAbs = (s.power.nrPsNumas - k).natAbs - 1 ∧
    (s.power.nrPsNumas ≤ k → t.power.nrPsNumas ≤ k ∧
      ∀ n, s.power.psState n = true → t.power.psState n = true) ∧
    (k ≤ s.power.nrPsNumas → k ≤ t.power.nrPsNumas ∧
      ∀ n, t.power.psState n = true → s.power.psState n = true) := by
  rcases lt_trichotomy s.power.nrPsNumas k with hlt | heq | hgt
  · obtain ⟨n, hn⟩ := h.sleep hlt
    have hcount := hn.nrPsNumas
    refine ⟨by omega, fun _ => ⟨by omega, fun i hi => ?_⟩, fun hle => by omega⟩
    rw [hn.psState]
    by_cases hin : i = n
    · rw [hin, Function.update_self]
    · rw [Function.update_of_ne hin]
      exact hi
  · have hstay := h.stay heq
    have hcount := hstay.nrPsNumas
    refine ⟨by omega, fun _ => ⟨by omega, fun i hi => ?_⟩, fun _ => ⟨by omega, fun i hi => ?_⟩⟩
    · rw [hstay.psState]
      exact hi
    · rw [← hstay.psState]
      exact hi
  · obtain ⟨n, hn⟩ := h.wake hgt
    have hcount := hn.nrPsNumas
    refine ⟨by omega, fun hle => by omega, fun _ => ⟨by omega, fun i hi => ?_⟩⟩
    rw [hn.psState] at hi
    by_cases hin : i = n
    · rw [hin, Function.update_self] at hi
      cases hi
    · rwa [Function.update_of_ne hin] at hi

/-- Runs in which every pass saves power and finds the nodes idle enough for `k` of them to
sleep, with the number of passes. -/
inductive IdleRun (cfg : Config) (k : Nat) (g : Global) : Nat → Global → Prop
  | start : IdleRun cfg k g 0 g
  | between {m : Nat} {s t : Global} : IdleRun cfg k g m s → Between s t → IdleRun cfg k g m t
  | pass {m : Nat} {s : Global} {pf : Platform} : IdleRun cfg k g m s → 3 ≤ s.rebalance.rebalanceLevel →
      s.power.psEnabled = true → s.Timed → idleNumas cfg s = k → (rebPass pf cfg).fault s = none →
      IdleRun cfg k g (m + 1) ((rebPass pf cfg).run s).st

theorem IdleRun.run (h : IdleRun cfg k g m s) : RunFrom cfg (fun _ => True) g s := by
  induction h with
  | start => exact .start
  | between _ hb ih => exact .between ih hb
  | pass _ _ _ _ _ hok ih => exact .pass ih trivial hok

theorem RunFrom.reachable {Ok : Global → Prop} (h : RunFrom cfg Ok g s) (hg : Reachable cfg g) :
    Reachable cfg s := by
  induction h with
  | start => exact hg
  | between _ hb ih => exact .between ih hb
  | pass _ _ hok ih => exact .pass ih hok

theorem Reachable.outcome (hv : cfg.Valid) (h0 : 0 < cfg.nrNumas) (h : Reachable cfg g)
    (hbase : Represented cfg g 0) (ht : g.Timed) {pf : Platform} (hok : (rebPass pf cfg).fault g = none) :
    Outcome cfg g ((rebPass pf cfg).run g).st := by
  have hs := Visited.saving hv h0 (.reachable h)
  obtain ⟨_, ho⟩ := (rebPass_outcome pf hv h0 hs hbase ht).of_ok rfl hok
  exact ho

theorem IdleRun.settles (hv : cfg.Valid) (h0 : 0 < cfg.nrNumas) (hg : Reachable cfg g)
    (hbase : Represented cfg g 0) (h : IdleRun cfg k g m s) :
    (s.power.nrPsNumas - k).natAbs = (g.power.nrPsNumas - k).natAbs - m ∧
    (g.power.nrPsNumas ≤ k → s.power.nrPsNumas ≤ k ∧
      ∀ n, g.power.psState n = true → s.power.psState n = true) ∧
    (k ≤ g.power.nrPsNumas → k ≤ s.power.nrPsNumas ∧
      ∀ n, s.power.psState n = true → g.power.psState n = true) := by
  induction h with
  | start => exact ⟨rfl, fun hle => ⟨hle, fun _ hn => hn⟩, fun hle => ⟨hle, fun _ hn => hn⟩⟩
  | between _ hb ih =>
    rw [hb.nrPsNumas, hb.psState]
    exact ih
  | pass hrun hlevel hon ht hk hok ih =>
    have hplaced := Visited.placed hv (.reachable hg)
    have hbase' : Represented cfg _ 0 := fun p hp =>
      (hrun.run.keeps hv hplaced).2.cores 0 h0 p (hbase p hp)
    have hout := (hrun.run.reachable hg).outcome hv h0 hbase' ht hok
    unfold Outcome at hout
    rw [if_pos ⟨hlevel, hon⟩, hk] at hout
    obtain ⟨hdist, hup, hdown⟩ := hout.step
    obtain ⟨hdist', hup', hdown'⟩ := ih
    refine ⟨by rw [hdist, hdist', Nat.sub_sub], fun hle => ?_, fun hle => ?_⟩
    · obtain ⟨hs, hall⟩ := hup' hle
      exact ⟨(hup hs).1, fun n hn => (hup hs).2 n (hall n hn)⟩
    · obtain ⟨hs, hall⟩ := hdown' hle
      exact ⟨(hdown hs).1, fun n hn => hall n ((hdown hs).2 n hn)⟩

end IdleRun

/-- A pass at level 3 with power saving on puts exactly one node to sleep when the work is
less than half of what the awake nodes but one can do, wakes exactly one up when it is half
of what they can do or more, and no other pass switches a node. -/
theorem power_saving_pass {cfg : Config} (hv : cfg.Valid) (h0 : 0 < cfg.nrNumas) {g : Global}
    (h : Reachable cfg g) (hbase : Represented cfg g 0) (ht : g.Timed) {pf : Platform}
    (hok : (rebPass pf cfg).fault g = none) :
    if 3 ≤ g.rebalance.rebalanceLevel ∧ g.power.psEnabled = true then
      if work cfg g < 50 * (cfg.nrNumas - sleeping cfg g - 1) then
        ∃ n, FallsAsleep cfg g ((rebPass pf cfg).run g).st n
      else if 50 * (cfg.nrNumas - sleeping cfg g) ≤ work cfg g ∧ 0 < sleeping cfg g then
        ∃ n, WakesUp cfg g ((rebPass pf cfg).run g).st n
      else SamePower g ((rebPass pf cfg).run g).st
    else SamePower g ((rebPass pf cfg).run g).st := by
  have hout := h.outcome hv h0 hbase ht hok
  have hcount := (Visited.saving hv h0 (.reachable h)).count
  unfold Outcome idleNumas at hout
  split_ifs with hon hless hmore
  · rw [if_pos hon] at hout
    exact hout.sleep (by omega)
  · rw [if_pos hon] at hout
    exact hout.wake (by omega)
  · rw [if_pos hon] at hout
    exact hout.stay (by omega)
  · rw [if_neg hon] at hout
    exact hout

instance (cfg : Config) (g : Global) (n : Nat) : Decidable (Represented cfg g n) :=
  inferInstanceAs (Decidable (∀ p < cfg.nrPartitions, g.group (cfg.coresOf n) p ≠ []))

instance (g : Global) : Decidable g.Timed :=
  inferInstanceAs (Decidable (u32 (1000 * g.rebalance.rebalanceInterval) ≠ 0))

theorem power_saving_pass_nap : ∃ g n, Reachable smallConfig g ∧
    FallsAsleep smallConfig g ((rebPass sortedPlatform smallConfig).run g).st n := by
  have hrun : smallStart.any (fun g => decide (Represented smallConfig (nap g) 0 ∧ (nap g).Timed ∧
      (rebPass sortedPlatform smallConfig).fault (nap g) = none ∧
      work smallConfig (nap g) < 50 * (smallConfig.nrNumas - sleeping smallConfig (nap g) - 1))) = true := by
    decide +kernel
  obtain ⟨g, hg, hrun⟩ := (Option.any_eq_true _ _).mp hrun
  obtain ⟨hbase, ht, hok, hwork⟩ := of_decide_eq_true hrun
  have hr : Reachable smallConfig (nap g) := .between (.mapped (startWith_mapped hg)) (nap_between g)
  have h := power_saving_pass smallConfig_valid (show 0 < 2 by decide) hr hbase ht hok
  rw [if_pos ⟨le_refl 3, rfl⟩, if_pos hwork] at h
  obtain ⟨n, hn⟩ := h
  exact ⟨nap g, n, hr, hn⟩

/-- While the passes find the same number `k` of nodes idle, each brings the number of
sleeping nodes one closer to `k`, where it stays; no node is switched twice. -/
theorem power_saving_settles {cfg : Config} (hv : cfg.Valid) (h0 : 0 < cfg.nrNumas) {g s : Global}
    (hg : Reachable cfg g) (hbase : Represented cfg g 0) {k m : Nat} (h : IdleRun cfg k g m s) :
    (s.power.nrPsNumas - k).natAbs = (g.power.nrPsNumas - k).natAbs - m ∧
    (g.power.nrPsNumas ≤ k → ∀ n, g.power.psState n = true → s.power.psState n = true) ∧
    (k ≤ g.power.nrPsNumas → ∀ n, s.power.psState n = true → g.power.psState n = true) := by
  obtain ⟨hdist, hup, hdown⟩ := h.settles hv h0 hg hbase
  exact ⟨hdist, fun hle => (hup hle).2, fun hle => (hdown hle).2⟩

/-- Two passes over a machine that is idle. -/
theorem power_saving_settles_nap : ∃ g s, Reachable smallConfig g ∧ IdleRun smallConfig 1 g 2 s ∧
    s.power.nrPsNumas = 1 := by
  have hrun : smallStart.any (fun g => decide (Represented smallConfig (nap g) 0 ∧
      g.power.nrPsNumas = 0 ∧ (nap g).Timed ∧ idleNumas smallConfig (nap g) = 1 ∧
      (rebPass sortedPlatform smallConfig).fault (nap g) = none ∧
      (nap ((rebPass sortedPlatform smallConfig).run (nap g)).st).Timed ∧
      idleNumas smallConfig (nap ((rebPass sortedPlatform smallConfig).run (nap g)).st) = 1 ∧
      (rebPass sortedPlatform smallConfig).fault
        (nap ((rebPass sortedPlatform smallConfig).run (nap g)).st) = none)) = true := by
    decide +kernel
  obtain ⟨g, hg, hrun⟩ := (Option.any_eq_true _ _).mp hrun
  obtain ⟨hbase, hzero, ht, hk, hok, ht', hk', hok'⟩ := of_decide_eq_true hrun
  have hr : Reachable smallConfig (nap g) := .between (.mapped (startWith_mapped hg)) (nap_between g)
  have hone : IdleRun smallConfig 1 (nap g) 1 _ := .pass .start (le_refl 3) rfl ht hk hok
  have htwo : IdleRun smallConfig 1 (nap g) 2 _ :=
    .pass (.between hone (nap_between _)) (le_refl 3) rfl ht' hk' hok'
  refine ⟨nap g, _, hr, htwo, ?_⟩
  obtain ⟨hdist, _⟩ := power_saving_settles smallConfig_valid (show 0 < 2 by decide) hr hbase htwo
  have hstart : (nap g).power.nrPsNumas = 0 := hzero
  rw [hstart] at hdist
  omega

end AbtSt
