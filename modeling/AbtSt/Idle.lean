import AbtSt.Runs
import Mathlib.Algebra.Order.BigOperators.Group.List
import Mathlib.Algebra.Order.Ring.Nat
import Mathlib.Algebra.Group.Action.Defs

/-! The idle percentage. A base scheduler sleeps after every turn that ran
nothing, each time twice as long up to a limit, and adds the time to a 32-bit
counter of its stream; the counters of a node are then averaged. -/

namespace AbtSt

/-- The sleep time after a turn that ran `runCnt` units. -/
def nextSleep (runCnt nsec : Nat) : Nat :=
  if runCnt ≠ 0 then 100 else if nsec < 10000 * 100 then nsec * 2 else nsec

/-- What a scheduler records in turns that run the given numbers of units. -/
def sleeps (nsec : Nat) : List Nat → List Nat
  | [] => []
  | r :: rs =>
    if r = 0 then nextSleep r nsec :: sleeps (nextSleep r nsec) rs
    else sleeps (nextSleep r nsec) rs

/-- The turns of a scheduler from its start to the last reset, and those since. -/
structure SleepTurns where
  before : List Nat
  since : List Nat

def SleepTurns.recorded (h : SleepTurns) : List Nat :=
  sleeps (h.before.foldl (fun nsec r => nextSleep r nsec) 100) h.since

def abtstStreamUpdateSleepTime (s : Stream) (nsec : Nat) : Stream :=
  { s with sleepNsec := (s.sleepNsec + nsec) % 2 ^ 32 }

def abtstSetRebalanceIntervall (interval : Int) (g : Global) : Global :=
  { g with rebalance := { g.rebalance with rebalanceInterval := interval } }

/-- The counters are reset, and then the schedulers take their turns. The main
stream has no base scheduler. -/
def sleepSince (cfg : Config) (h : Nat → SleepTurns) (g : Global) : Global :=
  let g := abtstResetStreamsStat cfg g
  { g with streams := fun c =>
      if c ≠ 0 ∧ (g.streams c).used = true
      then (h c).recorded.foldl abtstStreamUpdateSleepTime (g.streams c)
      else g.streams c }

/-- The time that a stream has slept, as it is and not as it is counted. -/
def slept (h : Nat → SleepTurns) (c : Nat) : Nat := if c = 0 then 0 else (h c).recorded.sum

def idlePct (N : Nat) (totals : List Nat) : Nat :=
  min 100 ((totals.map (· / 10 ^ 6)).sum / totals.length * 100 / (1000 * N))

theorem idlePct_map (N : Nat) (cs : List Nat) (f : Nat → Nat) :
    idlePct N (cs.map f) =
      min 100 ((cs.map fun c => f c / 10 ^ 6).sum / cs.length * 100 / (1000 * N)) := by
  rw [idlePct, List.map_map, List.length_map]
  rfl

/-- What is stored for node `n` is computed from the real sleep time, whatever
the turns of the schedulers in an interval of `N` seconds. -/
def IdleExact (cfg : Config) (g : Global) (n N : Nat) : Prop :=
  ∀ pf h, (∀ c ∈ g.usedIn (cfg.coresOf n), slept h c ≤ N * 10 ^ 9) →
    ∃ t, updatePowerStat pf cfg n (sleepSince cfg h (abtstSetRebalanceIntervall N g)) = .ok t ∧
      t.power.psPct n = idlePct N ((g.usedIn (cfg.coresOf n)).map (slept h))

/-- The used streams of a node that have a base scheduler. -/
def sleepers (cfg : Config) (g : Global) (n : Nat) : List Nat :=
  (g.usedIn (cfg.coresOf n)).filter (· ≠ 0)

theorem foldl_updateSleepTime (xs : List Nat) (s : Stream) (hs : s.sleepNsec < 2 ^ 32) :
    (xs.foldl abtstStreamUpdateSleepTime s).sleepNsec = (s.sleepNsec + xs.sum) % 2 ^ 32 := by
  induction xs generalizing s with
  | nil => simpa using (Nat.mod_eq_of_lt hs).symm
  | cons x xs ih =>
    rw [List.foldl_cons, ih _ (Nat.mod_lt _ (by decide)), List.sum_cons]
    simp only [abtstStreamUpdateSleepTime, Nat.mod_add_mod]
    rw [Nat.add_assoc]

theorem foldl_updateSleepTime_used (xs : List Nat) (s : Stream) :
    (xs.foldl abtstStreamUpdateSleepTime s).used = s.used := by
  induction xs generalizing s with
  | nil => rfl
  | cons x xs ih => exact ih _

section Since

variable {cfg : Config} {g : Global} {h : Nat → SleepTurns}

theorem sleepSince_used (c : Nat) :
    ((sleepSince cfg h g).streams c).used = (g.streams c).used := by
  have hreset : ((abtstResetStreamsStat cfg g).streams c).used = (g.streams c).used := by
    simp only [abtstResetStreamsStat]
    split_ifs <;> rfl
  simp only [sleepSince]
  split_ifs
  · rw [foldl_updateSleepTime_used, hreset]
  · exact hreset

/-- The counter of a used stream is its sleep time modulo `2^32`. -/
theorem sleepSince_nsec {c : Nat} (hc : c < cfg.nrCores) (hu : (g.streams c).used = true) :
    ((sleepSince cfg h g).streams c).sleepNsec = slept h c % 2 ^ 32 := by
  have hreset : (abtstResetStreamsStat cfg g).streams c = { g.streams c with sleepNsec := 0 } := by
    simp only [abtstResetStreamsStat]
    exact if_pos ⟨hc, hu⟩
  simp only [sleepSince, hreset, slept]
  by_cases h0 : c = 0
  · simp [h0]
  · rw [if_pos ⟨h0, hu⟩, if_neg h0]
    rw [foldl_updateSleepTime _ _ (by simp), Nat.zero_add]

end Since

theorem cap_pct {q : Nat} (hq : q < 2 ^ 31) :
    u32 (if 100 < i32 q then 100 else i32 q) = min 100 q := by
  have hi : i32 q = q := i32_of_lt (by omega) (by omega)
  rw [hi]
  by_cases hbig : (100 : Int) < q
  · have hcap : u32 (100 : Nat) = 100 := u32_of_lt (by decide)
    rw [if_pos hbig, Nat.min_eq_left (by omega)]
    exact hcap
  · rw [if_neg hbig, u32_of_lt (by omega), Nat.min_eq_right (by omega)]

/-- The stored percentage as the code computes it from the sleep times. -/
theorem updatePowerStat_sleepSince {cfg : Config} (hv : cfg.Valid) {g : Global} {n N : Nat}
    (hn : n < cfg.nrNumas) (hN : 0 < N) (hlt : N < 2 ^ 20)
    (hne : g.usedIn (cfg.coresOf n) ≠ []) (pf : Platform) (h : Nat → SleepTurns) :
    ∃ t, updatePowerStat pf cfg n (sleepSince cfg h (abtstSetRebalanceIntervall N g)) = .ok t ∧
      t.power.psPct n = min 100 (((g.usedIn (cfg.coresOf n)).map
        fun c => slept h c % 2 ^ 32 / 10 ^ 6).sum % 2 ^ 32 / (g.usedIn (cfg.coresOf n)).length
          * 100 % 2 ^ 32 / (1000 * N)) := by
  have hused : (sleepSince cfg h (abtstSetRebalanceIntervall N g)).usedIn (cfg.coresOf n) =
      g.usedIn (cfg.coresOf n) :=
    congrFun (Global.usedIn_congr (fun c => by rw [sleepSince_used]; rfl)) _
  have hmap : ((g.usedIn (cfg.coresOf n)).map fun c =>
      ((sleepSince cfg h (abtstSetRebalanceIntervall N g)).streams c).sleepNsec / 1000000) =
      (g.usedIn (cfg.coresOf n)).map fun c => slept h c % 2 ^ 32 / 10 ^ 6 := by
    refine List.map_congr_left (fun c hc => ?_)
    obtain ⟨hmem, hu⟩ := Global.mem_usedIn.mp hc
    have hnsec := sleepSince_nsec (g := abtstSetRebalanceIntervall N g) (h := h)
      (hv.core_lt hn hmem) hu
    exact congrArg (· / 1000000) hnsec
  have hlen : (g.usedIn (cfg.coresOf n)).length ≠ 0 := by simpa using hne
  have hdiv : u32 (1000 * (sleepSince cfg h
      (abtstSetRebalanceIntervall N g)).rebalance.rebalanceInterval) = 1000 * N :=
    u32_of_lt (n := 1000 * N) (by omega)
  unfold updatePowerStat
  simp only [sleepTotals_eq, hused, hmap, hdiv]
  rw [if_pos hlen, Platform.div_pos (by omega)]
  refine ⟨_, rfl, ?_⟩
  simp only [abtstSetNumaPsPct, Function.update_self]
  refine cap_pct (lt_of_le_of_lt ?_ (by decide : 2 ^ 32 / 1000 < 2 ^ 31))
  refine (Nat.div_le_div_left (by omega : 1000 ≤ 1000 * N) (by decide)).trans ?_
  exact Nat.div_le_div_right (Nat.mod_lt _ (by decide)).le

section Exact

variable {cfg : Config} {g : Global} {n N : Nat} {h : Nat → SleepTurns}

theorem length_sleepers_le (cfg : Config) (g : Global) (n : Nat) :
    (sleepers cfg g n).length ≤ (g.usedIn (cfg.coresOf n)).length :=
  List.length_filter_le _ _

theorem length_usedIn_le : (g.usedIn (cfg.coresOf n)).length ≤ (sleepers cfg g n).length + 1 := by
  have hnd := g.usedIn_nodup cfg n
  have hsplit := List.length_eq_length_filter_add (l := g.usedIn (cfg.coresOf n)) (· ≠ 0)
  have hzero : ((g.usedIn (cfg.coresOf n)).filter fun c => !decide (c ≠ 0)).length ≤ 1 := by
    have hcount := List.nodup_iff_count_le_one.mp hnd 0
    rw [← List.countP_eq_length_filter]
    refine le_trans (le_of_eq ?_) hcount
    exact List.countP_congr (by simp)
  unfold sleepers
  omega

theorem sum_used_eq_sleepers (f : Nat → Nat) (hf : f 0 = 0) :
    ((g.usedIn (cfg.coresOf n)).map f).sum = ((sleepers cfg g n).map f).sum := by
  unfold sleepers
  induction g.usedIn (cfg.coresOf n) with
  | nil => rfl
  | cons c cs ih =>
    by_cases hc : c = 0
    · simpa [hc, hf] using ih
    · simpa [hc] using ih

theorem slept_zero : slept h 0 = 0 := if_pos rfl

/-- The sum of the milliseconds is at most the length of the interval for each
stream that has a base scheduler. -/
theorem sum_slept_le (htot : ∀ c ∈ g.usedIn (cfg.coresOf n), slept h c ≤ N * 10 ^ 9) :
    ((g.usedIn (cfg.coresOf n)).map fun c => slept h c / 10 ^ 6).sum ≤
      1000 * N * (sleepers cfg g n).length := by
  rw [sum_used_eq_sleepers _ (by rw [slept_zero]; rfl)]
  have hle := List.sum_le_card_nsmul ((sleepers cfg g n).map fun c => slept h c / 10 ^ 6) (1000 * N)
    (by
      intro x hx
      obtain ⟨c, hc, rfl⟩ := List.mem_map.mp hx
      have := htot c (List.mem_of_mem_filter hc)
      omega)
  rw [List.length_map, smul_eq_mul, Nat.mul_comm] at hle
  exact hle

theorem idleExact_of_short (hv : cfg.Valid) (hn : n < cfg.nrNumas) (hN : 0 < N) (hlt : N < 2 ^ 20)
    (hne : g.usedIn (cfg.coresOf n) ≠ [])
    (hcond : sleepers cfg g n = [] ∨ N ≤ 4 ∧ 1000 * N * (sleepers cfg g n).length < 2 ^ 32) :
    IdleExact cfg g n N := by
  intro pf h htot
  obtain ⟨t, ht, hpct⟩ := updatePowerStat_sleepSince hv hn hN hlt hne pf h
  refine ⟨t, ht, ?_⟩
  have hcounter : ∀ c ∈ g.usedIn (cfg.coresOf n), slept h c % 2 ^ 32 = slept h c := by
    intro c hc
    refine Nat.mod_eq_of_lt ?_
    rcases hcond with hnil | ⟨hfour, -⟩
    · have hzero : c = 0 := by
        by_contra h0
        have hmem : c ∈ sleepers cfg g n := List.mem_filter.mpr ⟨hc, by simpa using h0⟩
        simp [hnil] at hmem
      rw [hzero, slept_zero]
      decide
    · have := htot c hc
      omega
  have hmap : ((g.usedIn (cfg.coresOf n)).map fun c => slept h c % 2 ^ 32 / 10 ^ 6) =
      (g.usedIn (cfg.coresOf n)).map fun c => slept h c / 10 ^ 6 :=
    List.map_congr_left (fun c hc => by rw [hcounter c hc])
  have hsum := sum_slept_le htot
  have hlen := length_sleepers_le cfg g n
  have hpos : 0 < (g.usedIn (cfg.coresOf n)).length := List.length_pos_iff.mpr hne
  rw [hpct, hmap, idlePct_map]
  generalize ((g.usedIn (cfg.coresOf n)).map fun c => slept h c / 10 ^ 6).sum = S at hsum ⊢
  have hS : S < 2 ^ 32 := by
    rcases hcond with hnil | ⟨-, hfit⟩
    · rw [hnil, List.length_nil, Nat.mul_zero] at hsum
      omega
    · omega
  have havg : S / (g.usedIn (cfg.coresOf n)).length ≤ 1000 * N := by
    refine Nat.div_le_of_le_mul (hsum.trans ?_)
    rw [Nat.mul_comm]
    exact Nat.mul_le_mul_right _ hlen
  have hhundred : S / (g.usedIn (cfg.coresOf n)).length * 100 < 2 ^ 32 := by
    rcases hcond with hnil | ⟨hfour, -⟩
    · rw [hnil, List.length_nil, Nat.mul_zero] at hsum
      obtain rfl : S = 0 := by omega
      simp
    · omega
  rw [Nat.mod_eq_of_lt hS, Nat.mod_eq_of_lt hhundred]

/-- Every stream runs a unit in every other turn and sleeps the shortest time in
between, until it has slept for the whole interval. -/
def idling (N : Nat) : Nat → SleepTurns := fun _ => ⟨[], (List.replicate (5000000 * N) [1, 0]).flatten⟩

theorem sum_sleeps_idling (k nsec : Nat) :
    (sleeps nsec (List.replicate k [1, 0]).flatten).sum = k * 200 := by
  induction k generalizing nsec with
  | zero => rfl
  | succ k ih =>
    rw [List.replicate_succ, List.flatten_cons]
    have hturn : sleeps nsec ([1, 0] ++ (List.replicate k [1, 0]).flatten) =
        200 :: sleeps 200 (List.replicate k [1, 0]).flatten := rfl
    rw [hturn, List.sum_cons, ih]
    omega

theorem slept_idling (N : Nat) {c : Nat} (hc : c ≠ 0) : slept (idling N) c = N * 10 ^ 9 := by
  rw [slept, if_neg hc, SleepTurns.recorded, idling, sum_sleeps_idling]
  omega

theorem slept_idling_le (N c : Nat) : slept (idling N) c ≤ N * 10 ^ 9 := by
  by_cases hc : c = 0
  · rw [hc, slept_zero]
    exact Nat.zero_le _
  · exact (slept_idling N hc).le

theorem sum_idling (f : Nat → Nat) (hf : f 0 = 0) :
    ((g.usedIn (cfg.coresOf n)).map fun c => f (slept (idling N) c)).sum =
      (sleepers cfg g n).length * f (N * 10 ^ 9) := by
  rw [sum_used_eq_sleepers _ (by rw [slept_zero, hf])]
  have hmap : ((sleepers cfg g n).map fun c => f (slept (idling N) c)) =
      (sleepers cfg g n).map fun _ => f (N * 10 ^ 9) := by
    refine List.map_congr_left (fun c hc => ?_)
    rw [slept_idling N (by simpa using (List.mem_filter.mp hc).2)]
  rw [hmap, List.map_const', List.sum_replicate, smul_eq_mul]

theorem pct_lt {S S' u k : Nat} (hN : 0 < N) (hk : 0 < k) (hu : 0 < u) (hle : u ≤ k + 1)
    (hS : S = 1000 * N * k) (hlost : 10 * S' ≤ 9 * S) :
    S' / u * 100 / (1000 * N) < S / u * 100 / (1000 * N) := by
  by_contra hnot
  have hpct : S / u * 100 < S' / u * 100 + 1000 * N := by
    have h1 := Nat.lt_div_mul_add (a := S / u * 100) (b := 1000 * N) (by omega)
    have h2 := Nat.div_mul_le_self (S' / u * 100) (1000 * N)
    have h3 := Nat.mul_le_mul_right (1000 * N) (Nat.le_of_not_lt hnot)
    omega
  have hS' : S' / u * u ≤ S' := Nat.div_mul_le_self S' u
  have hlt : S < S / u * u + u := Nat.lt_div_mul_add hu
  have hmul : (S / u + 1) * u ≤ (S' / u + 10 * N) * u := Nat.mul_le_mul_right u (by omega)
  have hwide : N * u ≤ N * (k + 1) := Nat.mul_le_mul_left N hle
  have hk1 : N * 1 ≤ N * k := Nat.mul_le_mul_left N hk
  rw [Nat.add_mul, Nat.add_mul, Nat.mul_assoc 10] at hmul
  rw [Nat.mul_add] at hwide
  rw [Nat.mul_assoc] at hS
  omega

/-- The counters lose more than a tenth of the time when the schedulers idle
through a long interval, or through any interval on too many streams. -/
theorem lost_time {k : Nat} (hwrap : 4 < N ∨ 2 ^ 32 ≤ 1000 * N * k) :
    10 * ((k * (N * 10 ^ 9 % 2 ^ 32 / 10 ^ 6)) % 2 ^ 32) ≤ 9 * (1000 * N * k) := by
  by_cases hfive : 4 < N
  · have hone : N * 10 ^ 9 % 2 ^ 32 / 10 ^ 6 ≤ 4294 := by omega
    have hsum : k * (N * 10 ^ 9 % 2 ^ 32 / 10 ^ 6) ≤ k * 4294 := Nat.mul_le_mul_left k hone
    have hfive' : 5 * k ≤ N * k := Nat.mul_le_mul_right k hfive
    have hmod := Nat.mod_le (k * (N * 10 ^ 9 % 2 ^ 32 / 10 ^ 6)) (2 ^ 32)
    rw [Nat.mul_assoc]
    omega
  · have hone : N * 10 ^ 9 % 2 ^ 32 / 10 ^ 6 = 1000 * N := by omega
    rw [hone, Nat.mul_comm k]
    have hbig : 2 ^ 32 ≤ 1000 * N * k := hwrap.resolve_left hfive
    generalize 1000 * N * k = S at hbig
    omega

theorem not_idleExact (hv : cfg.Valid) (hn : n < cfg.nrNumas) (hN : 0 < N) (hlt : N < 2 ^ 20)
    (hk : 0 < (sleepers cfg g n).length)
    (hwrap : 4 < N ∨ 2 ^ 32 ≤ 1000 * N * (sleepers cfg g n).length) : ¬ IdleExact cfg g n N := by
  intro hexact
  have hlen := length_sleepers_le cfg g n
  have hne : g.usedIn (cfg.coresOf n) ≠ [] := List.length_pos_iff.mp (by omega)
  obtain ⟨s, hs, hpct⟩ := updatePowerStat_sleepSince hv hn hN hlt hne sortedPlatform (idling N)
  obtain ⟨t, ht, htrue⟩ := hexact sortedPlatform (idling N) (fun c _ => slept_idling_le N c)
  obtain rfl := Except.ok.inj (hs.symm.trans ht)
  rw [hpct, sum_idling (fun x => x % 2 ^ 32 / 10 ^ 6) rfl, idlePct_map] at htrue
  have hsum : ((g.usedIn (cfg.coresOf n)).map fun c => slept (idling N) c / 10 ^ 6).sum =
      (sleepers cfg g n).length * (N * 10 ^ 9 / 10 ^ 6) := sum_idling (fun x => x / 10 ^ 6) rfl
  have hms : N * 10 ^ 9 / 10 ^ 6 = 1000 * N := by omega
  rw [hms, Nat.mul_comm] at hsum
  have hless := pct_lt hN hk (by omega) length_usedIn_le hsum (hsum ▸ lost_time hwrap)
  have hfull : ((g.usedIn (cfg.coresOf n)).map fun c => slept (idling N) c / 10 ^ 6).sum /
      (g.usedIn (cfg.coresOf n)).length * 100 / (1000 * N) ≤ 100 := by
    have havg := Nat.div_le_of_le_mul (hsum.le.trans
      ((Nat.mul_le_mul_left (1000 * N) hlen).trans (Nat.mul_comm _ _).le))
    refine Nat.div_le_of_le_mul ?_
    omega
  have hmod := Nat.div_le_div_right (c := 1000 * N) (Nat.mod_le
    ((sleepers cfg g n).length * (N * 10 ^ 9 % 2 ^ 32 / 10 ^ 6) % 2 ^ 32 /
      (g.usedIn (cfg.coresOf n)).length * 100) (2 ^ 32))
  omega

end Exact

/-- The percentage is right for every history exactly if the node has no base
scheduler, or the interval is of at most four seconds and there are not so many
streams that the sum of their milliseconds overflows. -/
theorem idleExact_iff {cfg : Config} (hv : cfg.Valid) {g : Global} {n N : Nat}
    (hn : n < cfg.nrNumas) (hN : 0 < N) (hlt : N < 2 ^ 20)
    (hne : g.usedIn (cfg.coresOf n) ≠ []) :
    IdleExact cfg g n N ↔
      sleepers cfg g n = [] ∨ N ≤ 4 ∧ 1000 * N * (sleepers cfg g n).length < 2 ^ 32 := by
  constructor
  · intro hexact
    by_contra hcond
    rw [not_or] at hcond
    obtain ⟨hsome, hwrap⟩ := hcond
    refine not_idleExact hv hn hN hlt (List.length_pos_iff.mpr hsome) ?_ hexact
    omega
  · exact idleExact_of_short hv hn hN hlt hne

theorem smallStart_sleepers : ∃ g, smallStart = some g ∧
    g.usedIn (smallConfig.coresOf 1) = [2, 3] ∧ sleepers smallConfig g 1 = [2, 3] := by
  have hsome : smallStart.map (fun g =>
      (g.usedIn (smallConfig.coresOf 1), sleepers smallConfig g 1)) = some ([2, 3], [2, 3]) := by
    decide +kernel
  obtain ⟨g, hg, heq⟩ := Option.map_eq_some_iff.mp hsome
  exact ⟨g, hg, congrArg Prod.fst heq, congrArg Prod.snd heq⟩

theorem idleExact_one_second : ∃ g, smallStart = some g ∧
    g.usedIn (smallConfig.coresOf 1) ≠ [] ∧ IdleExact smallConfig g 1 1 := by
  obtain ⟨g, hg, hused, hsleep⟩ := smallStart_sleepers
  have hne : g.usedIn (smallConfig.coresOf 1) ≠ [] := by simp [hused]
  refine ⟨g, hg, hne, ?_⟩
  refine (idleExact_iff smallConfig_valid (by decide) (by decide) (by decide) hne).mpr (Or.inr ?_)
  rw [hsleep]
  decide

/-- With an interval of five seconds, two streams that have slept all the time
are taken to be idle for 14 percent of it. -/
theorem idle_time_wraps : ∃ g, smallStart = some g ∧ g.usedIn (smallConfig.coresOf 1) = [2, 3] ∧
    (∀ c, slept (idling 5) c ≤ 5 * 10 ^ 9) ∧
    idlePct 5 ((g.usedIn (smallConfig.coresOf 1)).map (slept (idling 5))) = 100 ∧
    (∃ t, updatePowerStat sortedPlatform smallConfig 1
        (sleepSince smallConfig (idling 5) (abtstSetRebalanceIntervall (5 : Nat) g)) = .ok t ∧
      t.power.psPct 1 = 14) ∧ ¬ IdleExact smallConfig g 1 5 := by
  obtain ⟨g, hg, hused, hsleep⟩ := smallStart_sleepers
  refine ⟨g, hg, hused, slept_idling_le 5, ?_, ?_, ?_⟩
  · rw [idlePct_map, sum_idling (fun x => x / 10 ^ 6) rfl, hused, hsleep]
    decide
  · have hne : g.usedIn (smallConfig.coresOf 1) ≠ [] := by simp [hused]
    obtain ⟨t, ht, hpct⟩ := updatePowerStat_sleepSince smallConfig_valid (N := 5)
      (by decide) (by decide) (by decide) hne sortedPlatform (idling 5)
    refine ⟨t, ht, ?_⟩
    rw [hpct, sum_idling (fun x => x % 2 ^ 32 / 10 ^ 6) rfl, hused, hsleep]
    decide
  · refine not_idleExact smallConfig_valid (by decide) (by decide) (by decide) ?_ (Or.inl (by decide))
    rw [hsleep]
    decide

end AbtSt
