import AbtSt.Batch
import Mathlib.Algebra.BigOperators.Intervals

/-! The end of the program: `abtst_finalize_streams` waits for the schedulers one
after another. The units that are still under way, weighted with the hand-overs
that they may make, and the turn of the awaited scheduler bound what is left to
do. -/

namespace AbtSt

/-- Whether the unit of a load will be handed over. -/
def pend (g : Global) (l : LoadId) : Nat := if (g.loads l).currRank = (g.loads l).destRank then 0 else 1

def PoolUnit.weight (g : Global) : PoolUnit → Nat
  | .thread _ => 1
  | .sched l => 1 + pend g l

/-- A unit in the hands of a scheduler. One whose target was read before it changed
is handed over once more. -/
def Pc.weight (g : Global) : Pc → Nat
  | .holding u _ => u.weight g
  | .migrating l _ => 1 + pend g l
  | .confirmed _ _ | .computed _ _ _ => 2
  | .argument l _ _ rank => if rank = (g.loads l).destRank then 2 else 3
  | .updated l _ _ => 2 + pend g l
  | .running _ _ _ | .served _ _ => 1
  | _ => 0

def poolWeight (g : Global) (pool : List PoolUnit) : Nat := (pool.map (PoolUnit.weight g)).sum

def Sys.weight (cfg : Config) (s : Sys) : Nat :=
  ∑ c ∈ Finset.range cfg.nrCores, poolWeight s.g (s.g.streams c).pool +
    ∑ c ∈ Finset.range cfg.nrCores, (s.scheds c).pc.weight s.g

theorem sum_range_replace {n c : Nat} (hc : c < n) {f f' : Nat → Nat} (h : ∀ d, d ≠ c → f' d = f d) :
    ∑ d ∈ Finset.range n, f' d + f c = ∑ d ∈ Finset.range n, f d + f' c := by
  have hmem : c ∈ Finset.range n := Finset.mem_range.mpr hc
  have hrest : ∑ d ∈ (Finset.range n).erase c, f' d = ∑ d ∈ (Finset.range n).erase c, f d :=
    Finset.sum_congr rfl (fun d hd => h d (Finset.ne_of_mem_erase hd))
  rw [← Finset.add_sum_erase _ f' hmem, ← Finset.add_sum_erase _ f hmem, hrest]
  omega

section Weight

variable {cfg : Config} {s t : Sys} {c : Nat} {g g' : Global}

/-- The ranks that a unit's way depends on. -/
def SameRanks (g g' : Global) (l : LoadId) : Prop :=
  (g'.loads l).currRank = (g.loads l).currRank ∧ (g'.loads l).destRank = (g.loads l).destRank

theorem SameRanks.pend {l : LoadId} (h : SameRanks g g' l) : pend g' l = pend g l := by
  rw [AbtSt.pend, AbtSt.pend, h.1, h.2]

theorem PoolUnit.weight_congr {u : PoolUnit} (h : ∀ l, u = .sched l → SameRanks g g' l) :
    u.weight g' = u.weight g := by
  cases u with
  | sched l => rw [PoolUnit.weight, PoolUnit.weight, (h l rfl).pend]
  | thread t => rfl

theorem Pc.weight_congr {pc : Pc} (h : ∀ l, pc.unit = some (.sched l) → SameRanks g g' l) :
    pc.weight g' = pc.weight g := by
  cases pc with
  | holding u n => exact PoolUnit.weight_congr (fun l hl => h l (congrArg some hl))
  | migrating l n => rw [Pc.weight, Pc.weight, (h l rfl).pend]
  | updated l n i => rw [Pc.weight, Pc.weight, (h l rfl).pend]
  | argument l n i r => rw [Pc.weight, Pc.weight, (h l rfl).2]
  | _ => rfl

theorem poolWeight_congr {pool : List PoolUnit} (h : ∀ l, .sched l ∈ pool → SameRanks g g' l) :
    poolWeight g' pool = poolWeight g pool := by
  unfold poolWeight
  rw [List.map_congr_left (fun u hu => PoolUnit.weight_congr (fun l hl => h l (hl ▸ hu)))]

theorem Pc.weight_of_unit_none {pc : Pc} (h : pc.unit = none) (g : Global) : pc.weight g = 0 := by
  cases pc with
  | outer => rfl
  | inner => rfl
  | sized n => rfl
  | pushed n => rfl
  | events => rfl
  | exited => rfl
  | _ => cases h

/-- The units elsewhere weigh what they weighed. -/
def KeepsOthers (c : Nat) (s t : Sys) : Prop :=
  ∀ d, d ≠ c → (t.scheds d).pc = (s.scheds d).pc ∧
    ∀ l, (s.scheds d).pc.unit = some (.sched l) → SameRanks s.g t.g l

/-- The pools hold what they held, and its weight is the same. -/
def KeepsPools (s t : Sys) : Prop :=
  ∀ d, (t.g.streams d).pool = (s.g.streams d).pool ∧
    ∀ l, .sched l ∈ (s.g.streams d).pool → SameRanks s.g t.g l

theorem KeepsOthers.weight (h : KeepsOthers c s t) (hc : c < cfg.nrCores) :
    ∑ d ∈ Finset.range cfg.nrCores, (t.scheds d).pc.weight t.g + (s.scheds c).pc.weight s.g =
      ∑ d ∈ Finset.range cfg.nrCores, (s.scheds d).pc.weight s.g + (t.scheds c).pc.weight t.g := by
  have hother : ∀ d, d ≠ c → (t.scheds d).pc.weight t.g = (s.scheds d).pc.weight s.g := by
    intro d hd
    rw [(h d hd).1]
    exact Pc.weight_congr (h d hd).2
  exact sum_range_replace hc hother

theorem KeepsPools.weight (h : KeepsPools s t) :
    ∑ d ∈ Finset.range cfg.nrCores, poolWeight t.g (t.g.streams d).pool =
      ∑ d ∈ Finset.range cfg.nrCores, poolWeight s.g (s.g.streams d).pool := by
  refine Finset.sum_congr rfl (fun d _ => ?_)
  rw [(h d).1]
  exact poolWeight_congr (h d).2

/-- A step between two places of a scheduler changes the weight by theirs. -/
theorem weight_move (cfg : Config) (hp : KeepsPools s t) (ho : KeepsOthers c s t) (hc : c < cfg.nrCores) :
    t.weight cfg + (s.scheds c).pc.weight s.g = s.weight cfg + (t.scheds c).pc.weight t.g := by
  have hheld := ho.weight hc
  unfold Sys.weight
  rw [hp.weight]
  omega

theorem keeps_setSched (s : Sys) (c : Nat) (q : Sched) :
    KeepsPools s (s.setSched c q) ∧ KeepsOthers c s (s.setSched c q) := by
  refine ⟨fun d => ⟨rfl, fun l _ => ⟨rfl, rfl⟩⟩, fun d hd => ⟨?_, fun l _ => ⟨rfl, rfl⟩⟩⟩
  simp [Sys.setSched, hd]

theorem weight_setSched (cfg : Config) (s : Sys) (hc : c < cfg.nrCores) (q : Sched) :
    (s.setSched c q).weight cfg + (s.scheds c).pc.weight s.g = s.weight cfg + q.pc.weight s.g := by
  have h := weight_move cfg (keeps_setSched s c q).1 (keeps_setSched s c q).2 hc
  simpa [Sys.setSched] using h

theorem sameRanks_setLoad (s : Sys) (l : LoadId) {x : Load} (hx : x.currRank = (s.g.loads l).currRank)
    (hd : x.destRank = (s.g.loads l).destRank) (m : LoadId) : SameRanks s.g (s.setLoad l x).g m := by
  by_cases hm : m = l
  · subst hm
    simpa [SameRanks, Sys.setLoad, Global.setLoad] using ⟨hx, hd⟩
  · simp [SameRanks, Sys.setLoad, Global.setLoad, hm]

theorem weight_setLoad (s : Sys) (l : LoadId) {x : Load} (hx : x.currRank = (s.g.loads l).currRank)
    (hd : x.destRank = (s.g.loads l).destRank) : (s.setLoad l x).weight cfg = s.weight cfg := by
  have hsame := sameRanks_setLoad s l hx hd
  unfold Sys.weight
  congr 1
  · exact Finset.sum_congr rfl (fun d _ => poolWeight_congr (fun m _ => hsame m))
  · exact Finset.sum_congr rfl (fun d _ => Pc.weight_congr (fun m _ => hsame m))

theorem weight_setPool (cfg : Config) (s : Sys) (hc : c < cfg.nrCores) (pool : List PoolUnit) :
    (s.setPool c pool).weight cfg + poolWeight s.g (s.g.streams c).pool =
      s.weight cfg + poolWeight s.g pool := by
  have hat : ((s.setPool c pool).g.streams c).pool = pool := by simp [Sys.setPool, Global.setStream]
  have hother : ∀ d, d ≠ c → poolWeight s.g ((s.setPool c pool).g.streams d).pool =
      poolWeight s.g (s.g.streams d).pool := by
    intro d hd
    simp [Sys.setPool, Global.setStream, hd]
  have hsum := sum_range_replace hc hother
  rw [hat] at hsum
  have hunits : ∀ pc : Pc, pc.weight (s.setPool c pool).g = pc.weight s.g :=
    fun pc => Pc.weight_congr (fun _ _ => ⟨rfl, rfl⟩)
  have hpools : ∀ q, poolWeight (s.setPool c pool).g q = poolWeight s.g q :=
    fun q => poolWeight_congr (fun _ _ => ⟨rfl, rfl⟩)
  unfold Sys.weight
  simp only [hunits, hpools]
  change _ + ∑ d ∈ Finset.range cfg.nrCores, (s.scheds d).pc.weight s.g + _ = _
  omega

theorem weight_pushAt (cfg : Config) (s : Sys) (i : Int) (l : LoadId) :
    (s.pushAt cfg i (.sched l)).weight cfg ≤ s.weight cfg + (1 + pend s.g l) := by
  unfold Sys.pushAt
  split_ifs with hi
  · have hpush := weight_setPool cfg s (c := i.toNat) (by omega)
      ((s.g.streams i.toNat).pool ++ [.sched l])
    have happ : poolWeight s.g ((s.g.streams i.toNat).pool ++ [.sched l]) =
        poolWeight s.g (s.g.streams i.toNat).pool + (1 + pend s.g l) := by
      simp [poolWeight, PoolUnit.weight]
    rw [happ] at hpush
    change (s.setPool i.toNat _).weight cfg ≤ _
    omega
  · exact Nat.le_add_right _ _

/-- In the last phase a step lowers the weight, or moves nothing into another pool. -/
def Weighs (cfg : Config) (c : Nat) (s t : Sys) : Prop :=
  t.weight cfg < s.weight cfg ∨
    t.weight cfg = s.weight cfg ∧ ∀ d, d ≠ c → (t.g.streams d).pool = (s.g.streams d).pool

theorem weighs_setSched (hc : c < cfg.nrCores) {q : Sched}
    (hq : q.pc.weight s.g ≤ (s.scheds c).pc.weight s.g) : Weighs cfg c s (s.setSched c q) := by
  have hw := weight_setSched cfg s hc q
  by_cases he : q.pc.weight s.g = (s.scheds c).pc.weight s.g
  · exact Or.inr ⟨by omega, fun _ _ => rfl⟩
  · exact Or.inl (by omega)

theorem weighs_setPc (hc : c < cfg.nrCores) {pc : Pc} (hq : pc.weight s.g ≤ (s.scheds c).pc.weight s.g) :
    Weighs cfg c s (s.setPc c pc) :=
  weighs_setSched hc hq

theorem weighs_setLoad (hc : c < cfg.nrCores) {q : Sched} (l : LoadId) {x : Load}
    (hx : x.currRank = (s.g.loads l).currRank) (hd : x.destRank = (s.g.loads l).destRank)
    (hq : q.pc.weight s.g ≤ (s.scheds c).pc.weight s.g) :
    Weighs cfg c s ((s.setLoad l x).setSched c q) := by
  have hpc : ∀ pc : Pc, pc.weight (s.setLoad l x).g = pc.weight s.g :=
    fun pc => Pc.weight_congr (fun m _ => sameRanks_setLoad s l hx hd m)
  have hle : q.pc.weight (s.setLoad l x).g ≤ ((s.setLoad l x).scheds c).pc.weight (s.setLoad l x).g := by
    rw [hpc, hpc]
    exact hq
  have hw : Weighs cfg c (s.setLoad l x) ((s.setLoad l x).setSched c q) := weighs_setSched hc hle
  unfold Weighs at hw
  rw [weight_setLoad s l hx hd] at hw
  exact hw

theorem serve_weighs (hc : c < cfg.nrCores) {l : LoadId} (n : Nat)
    (hpc : 1 ≤ (s.scheds c).pc.weight s.g) : Weighs cfg c s (serve c l n s) := by
  unfold serve
  split_ifs
  · exact weighs_setLoad hc l rfl rfl hpc
  · exact weighs_setPc hc hpc

theorem pushBack_weighs (hstop : s.stopping = true) (hc : c < cfg.nrCores) {l : LoadId} {n : Nat}
    (hpc : (s.scheds c).pc = .served l n) : (pushBack c l n s).weight cfg < s.weight cfg := by
  have hw := weight_setSched cfg { s with dropped := l :: s.dropped } hc
    { s.scheds c with pc := .pushed n, runSubpool := (s.scheds c).runSubpool + 1 }
  have hone : (s.scheds c).pc.weight s.g = 1 := by rw [hpc]; rfl
  unfold pushBack
  rw [if_pos hstop]
  change _ + (s.scheds c).pc.weight s.g = s.weight cfg + 0 at hw
  omega

theorem baseStep_weighs (hstop : s.stopping = true) (hc : c < cfg.nrCores) (h : BaseStep c s t) :
    Weighs cfg c s t := by
  cases h with
  | @idle q hpc hq => exact weighs_setSched hc (by rw [Pc.weight_of_unit_none hq]; exact Nat.zero_le _)
  | @pop u rest n hpc hp =>
    refine Or.inr ⟨?_, fun d hd => by simp [Sys.setPc, Sys.setSched, Sys.setPool, Global.setStream, hd]⟩
    have hpool := weight_setPool cfg s hc rest
    have hw := weight_setSched cfg (s.setPool c rest) hc
      { (s.setPool c rest).scheds c with pc := .holding u n }
    have hzero : ((s.setPool c rest).scheds c).pc.weight (s.setPool c rest).g = 0 := by
      change (s.scheds c).pc.weight _ = 0
      rw [hpc]
      rfl
    have hunit : (Pc.holding u n).weight (s.setPool c rest).g = u.weight s.g :=
      PoolUnit.weight_congr (fun _ _ => ⟨rfl, rfl⟩)
    have hcons : poolWeight s.g (s.g.streams c).pool = u.weight s.g + poolWeight s.g rest := by
      rw [hp]
      rfl
    rw [hzero] at hw
    change _ + 0 = _ + (Pc.holding u n).weight (s.setPool c rest).g at hw
    rw [hunit] at hw
    change ((s.setPool c rest).setSched c
      { (s.setPool c rest).scheds c with pc := .holding u n }).weight cfg = _
    omega
  | @run l k n hpc =>
    have hone : (s.scheds c).pc.weight s.g = 1 := by rw [hpc]; rfl
    have hstep := subSchedRun_cases c l k n s
    generalize subSchedRun c l k n s = u at hstep ⊢
    cases hstep with
    | full => exact weighs_setPc hc (by rw [hone]; rfl)
    | idle => exact weighs_setPc hc (by rw [hone]; rfl)
    | again => exact weighs_setPc hc (by rw [hone]; rfl)
    | run => exact weighs_setLoad hc l rfl rfl (by rw [hone]; rfl)
  | back hpc => exact Or.inl (pushBack_weighs hstop hc hpc)

theorem Exclusive.elsewhere (hx : Exclusive s) {l : LoadId}
    (hu : (s.scheds c).pc.unit = some (.sched l)) :
    (∀ d, .sched l ∉ (s.g.streams d).pool) ∧
      ∀ d, d ≠ c → (s.scheds d).pc.unit ≠ some (.sched l) := by
  refine ⟨fun d hd => ?_, fun d hd hud => hd (hx.unique l d c (located_held hud) (located_held hu))⟩
  have hcount : 0 < (s.g.streams d).pool.count (.sched l) := List.count_pos_iff.mpr hd
  have hdc := hx.unique l d c (Nat.lt_of_lt_of_le hcount (Nat.le_add_right _ _)) (located_held hu)
  have hone := hx.le_one l c
  rw [hdc] at hcount
  simp only [Sys.located, Pc.holds, hu, if_true] at hone
  omega

theorem update_weighs (hx : Exclusive s) (hc : c < cfg.nrCores) {l : LoadId} {n r : Nat} {i : Int}
    (hpc : (s.scheds c).pc = .argument l n i r) :
    Weighs cfg c s ((updateCurrRank s l r).setPc c (.updated l n i)) := by
  obtain ⟨hpools, hothers⟩ := hx.elsewhere (c := c) (l := l) (by rw [hpc]; rfl)
  have hsame : ∀ m, m ≠ l → SameRanks s.g (updateCurrRank s l r).g m := by
    intro m hm
    simp [SameRanks, updateCurrRank, Sys.setLoad, Global.setLoad, hm]
  have hp : KeepsPools s ((updateCurrRank s l r).setPc c (.updated l n i)) := by
    refine fun d => ⟨rfl, fun m hm => hsame m ?_⟩
    rintro rfl
    exact hpools d hm
  have ho : KeepsOthers c s ((updateCurrRank s l r).setPc c (.updated l n i)) := by
    refine fun d hd => ⟨?_, fun m hm => hsame m ?_⟩
    · simp [Sys.setPc, Sys.setSched, updateCurrRank, Sys.setLoad, hd]
    · rintro rfl
      exact hothers d hd hm
  have hw := weight_move cfg hp ho hc
  have hat : (((updateCurrRank s l r).setPc c (.updated l n i)).scheds c).pc = .updated l n i := by
    simp [Sys.setPc, Sys.setSched]
  have hpend : pend ((updateCurrRank s l r).setPc c (.updated l n i)).g l =
      if r = (s.g.loads l).destRank then 0 else 1 := by
    simp [pend, Sys.setPc, Sys.setSched, updateCurrRank, Sys.setLoad, Global.setLoad]
  rw [hat, hpc, Pc.weight, Pc.weight, hpend] at hw
  refine Or.inr ⟨?_, fun d _ => rfl⟩
  split_ifs at hw <;> omega

theorem push_weighs (hc : c < cfg.nrCores) {l : LoadId} {n : Nat} {i : Int}
    (hpc : (s.scheds c).pc = .updated l n i) :
    ((s.pushAt cfg i (.sched l)).setPc c .inner).weight cfg < s.weight cfg := by
  obtain ⟨hscheds, hloads, _⟩ := pushAt_frame cfg s i (.sched l)
  have hpush := weight_pushAt cfg s i l
  have hw := weight_setSched cfg (s.pushAt cfg i (.sched l)) hc
    { (s.pushAt cfg i (.sched l)).scheds c with pc := .inner }
  have hpend : pend (s.pushAt cfg i (.sched l)).g l = pend s.g l := by
    rw [pend, pend, hloads]
  rw [hscheds, hpc, Pc.weight, hpend] at hw
  change ((s.pushAt cfg i (.sched l)).setSched c
    { (s.pushAt cfg i (.sched l)).scheds c with pc := .inner }).weight cfg < _
  rw [hscheds]
  change _ + _ = _ + 0 at hw
  omega

theorem splitStep_weighs {b : Bool} (hx : Exclusive s) (hstop : s.stopping = true) (hc : c < cfg.nrCores)
    (h : splitStep cfg c b s = some t) : Weighs cfg c s t := by
  have hbase : baseStep c b s = some t → Weighs cfg c s t :=
    fun hb => baseStep_weighs hstop hc (baseStep_cases hb)
  unfold splitStep at h
  cases hpc : (s.scheds c).pc with
  | holding u n =>
    rw [hpc] at h
    cases u with
    | thread x => exact hbase h
    | sched l =>
      rw [← Option.some.inj h]
      split_ifs
      · exact weighs_setPc hc (by rw [hpc]; exact Nat.le_refl _)
      · exact serve_weighs hc n (by rw [hpc]; exact Nat.le_add_right 1 _)
  | migrating l n =>
    rw [hpc] at h
    rw [← Option.some.inj h]
    split_ifs with hne
    · refine weighs_setPc hc ?_
      rw [hpc, Pc.weight, Pc.weight, pend, if_neg hne]
    · exact serve_weighs hc n (by rw [hpc]; exact Nat.le_add_right 1 _)
  | confirmed l n =>
    rw [hpc] at h
    rw [← Option.some.inj h]
    exact weighs_setPc hc (by rw [hpc]; exact Nat.le_refl _)
  | computed l n i =>
    rw [hpc] at h
    rw [← Option.some.inj h]
    exact weighs_setPc hc (by rw [hpc, Pc.weight, Pc.weight, if_pos rfl])
  | argument l n i r =>
    rw [hpc] at h
    rw [← Option.some.inj h]
    exact update_weighs hx hc hpc
  | updated l n i =>
    rw [hpc] at h
    rw [← Option.some.inj h]
    exact Or.inl (push_weighs hc hpc)
  | _ =>
    rw [hpc] at h
    exact hbase h

end Weight

/-- Steps from the end of a turn that finds the pool empty to the exit; a turn that
has done something is followed by a full count of turns. -/
def Sched.idle (q : Sched) : Nat :=
  if q.runCnt = 0 ∧ q.runSubpool = 0 then 4 * (eventFreq - q.workCount) else 4 * eventFreq + 4

/-- Steps until the weight falls or the scheduler has exited. -/
def Sched.turn (g : Global) (empty : Bool) (q : Sched) : Nat :=
  match q.pc with
  | .outer => if empty then 4 * (eventFreq - q.workCount) + 4 else 33
  | .inner => if empty then q.idle + 3 else 32
  | .sized _ => if empty then q.idle + 2 else 31
  | .events => if empty then q.idle + 1 else 34
  | .pushed _ => if empty then 48 else 35
  | .holding _ _ => 30
  | .migrating _ _ => 29
  | .confirmed _ _ => 28
  | .computed _ _ _ => 27
  | .argument _ _ _ _ => 26
  | .updated _ _ _ => 25
  | .running l k _ =>
    if (g.loads l).pool = [] then if k = 0 then 1 else 2 else 3 + (maxBatchCount - k)
  | .served _ _ => 0
  | .exited => 0

def Sys.turn (s : Sys) (c : Nat) : Nat := (s.scheds c).turn s.g (s.g.streams c).pool.isEmpty

theorem Sched.idle_le (q : Sched) : q.idle ≤ 44 := by
  unfold Sched.idle eventFreq
  split_ifs <;> omega

theorem Sched.idle_setPc (q : Sched) (pc : Pc) : Sched.idle { q with pc := pc } = q.idle := rfl

theorem Sched.turn_le (g : Global) (empty : Bool) (q : Sched) : q.turn g empty ≤ 48 := by
  have hidle := q.idle_le
  unfold Sched.turn
  cases q.pc with
  | running l k n =>
    dsimp only
    unfold maxBatchCount
    split_ifs <;> omega
  | outer =>
    dsimp only
    unfold eventFreq
    split_ifs <;> omega
  | _ =>
    dsimp only
    try split_ifs
    all_goals omega

section Turn

variable {cfg : Config} {s t : Sys} {c : Nat}

theorem turn_setSched (s : Sys) (c : Nat) (q : Sched) :
    (s.setSched c q).turn c = q.turn s.g (s.g.streams c).pool.isEmpty := by
  simp [Sys.turn, Sys.setSched]

theorem turn_other (hs : t.scheds c = s.scheds c) (hp : (t.g.streams c).pool = (s.g.streams c).pool)
    (hl : ∀ l, (s.g.loads l).pool = [] → (t.g.loads l).pool = []) : t.turn c ≤ s.turn c := by
  unfold Sys.turn
  rw [hs, hp]
  unfold Sched.turn
  cases (s.scheds c).pc with
  | running l k n =>
    dsimp only
    by_cases he : (s.g.loads l).pool = []
    · rw [if_pos he, if_pos (hl l he)]
    · rw [if_neg he]
      split_ifs <;> omega
  | _ => exact Nat.le_refl _

theorem serve_turn {l : LoadId} (n : Nat) : (serve c l n s).turn c ≤ 19 := by
  unfold serve
  split_ifs
  · rw [turn_setSched]
    simp only [Sched.turn, maxBatchCount]
    split_ifs <;> omega
  · rw [Sys.setPc, turn_setSched]
    simp [Sched.turn]

theorem subSchedRun_turn {l : LoadId} {k n : Nat} (hpc : (s.scheds c).pc = .running l k n) :
    (subSchedRun c l k n s).turn c < s.turn c := by
  have hstep := subSchedRun_cases c l k n s
  generalize subSchedRun c l k n s = u at hstep ⊢
  have hold : s.turn c = if (s.g.loads l).pool = [] then if k = 0 then 1 else 2
      else 3 + (maxBatchCount - k) := by
    rw [Sys.turn, Sched.turn, hpc]
  rw [hold]
  cases hstep with
  | full hk =>
    rw [Sys.setPc, turn_setSched]
    simp only [Sched.turn]
    split_ifs <;> omega
  | idle hk hp =>
    rw [Sys.setPc, turn_setSched]
    simp [Sched.turn, hk, hp]
  | again hk _ hp =>
    rw [Sys.setPc, turn_setSched]
    simp [Sched.turn, hk, hp]
  | run hk hp =>
    rw [Sys.setPc, turn_setSched]
    simp only [Sched.turn, hp, List.cons_ne_nil, if_false]
    split_ifs <;> omega

theorem checkEvents_turn {b : Bool} (hpc : (s.scheds c).pc = .events)
    (hb : b = (s.g.streams c).pool.isEmpty) : (checkEvents c b s).turn c < s.turn c := by
  have hold : s.turn c = if (s.g.streams c).pool.isEmpty then (s.scheds c).idle + 1 else 34 := by
    rw [Sys.turn, Sched.turn, hpc]
  rw [hold, ← hb]
  unfold checkEvents
  cases b with
  | false =>
    rw [if_neg Bool.false_ne_true]
    dsimp only
    split_ifs
    · rw [turn_setSched, ← hb]
      simp [Sched.turn]
    · rw [turn_setSched]
      simp [Sched.turn]
    · rw [turn_setSched, ← hb]
      simp [Sched.turn]
  | true =>
    rw [if_pos rfl]
    dsimp only
    split_ifs with hw hexit
    · rw [turn_setSched, ← hb]
      simp only [Sched.turn, if_true, Sched.idle]
      unfold eventFreq at hw ⊢
      split_ifs <;> omega
    · rw [turn_setSched]
      simp [Sched.turn]
    · have hdirty : ¬ ((s.scheds c).runCnt = 0 ∧ (s.scheds c).runSubpool = 0) := by
        rintro ⟨h1, h2⟩
        exact hexit ⟨h1, h2, by simp⟩
      rw [turn_setSched, ← hb]
      simp only [Sched.turn, if_true, Sched.idle, if_neg hdirty]
      unfold eventFreq
      omega

/-- A step of the awaited scheduler, which may stop when its pool is empty. -/
theorem splitStep_turn {b : Bool} (hstop : s.stopping = true) (hopen : (s.g.streams c).blocking = false)
    (hc : c < cfg.nrCores) (hb : b = (s.g.streams c).pool.isEmpty)
    (h : splitStep cfg c b s = some t) : t.turn c < s.turn c ∨ t.weight cfg < s.weight cfg := by
  have hold : s.turn c = (s.scheds c).turn s.g (s.g.streams c).pool.isEmpty := rfl
  rw [hold]
  unfold splitStep baseStep at h
  cases hpc : (s.scheds c).pc with
  | outer =>
    rw [hpc] at h
    rw [← Option.some.inj h, turn_setSched]
    refine Or.inl ?_
    simp only [Sched.turn, hpc, Sched.idle, and_self, if_true]
    split_ifs <;> omega
  | inner =>
    rw [hpc] at h
    rw [← Option.some.inj h, Sys.setPc, turn_setSched, hopen]
    refine Or.inl ?_
    simp only [Sched.turn, Sched.idle, hpc, Bool.false_eq_true, if_false]
    split_ifs <;> omega
  | sized n =>
    rw [hpc] at h
    dsimp only at h
    cases hp : (s.g.streams c).pool with
    | nil =>
      rw [hp] at h
      rw [← Option.some.inj h, Sys.setPc, turn_setSched, hp]
      refine Or.inl ?_
      simp only [Sched.turn, Sched.idle, hpc, List.isEmpty_nil, if_true]
      omega
    | cons u rest =>
      rw [hp] at h
      rw [← Option.some.inj h, Sys.setPc, turn_setSched]
      refine Or.inl ?_
      simp [Sched.turn, hpc]
  | holding u n =>
    rw [hpc] at h
    cases u with
    | thread x =>
      refine Or.inr ?_
      rw [← Option.some.inj h]
      have hw := weight_setSched cfg s hc { s.scheds c with pc := .events, runCnt := (s.scheds c).runCnt + 1 }
      have hone : (s.scheds c).pc.weight s.g = 1 := by rw [hpc]; rfl
      change _ + _ = _ + 0 at hw
      omega
    | sched l =>
      refine Or.inl ?_
      rw [← Option.some.inj h]
      have hserve := serve_turn (s := s) (c := c) (l := l) n
      split_ifs
      · rw [Sys.setPc, turn_setSched]
        simp [Sched.turn, hpc]
      · simp only [Sched.turn, hpc]
        omega
  | migrating l n =>
    rw [hpc] at h
    refine Or.inl ?_
    rw [← Option.some.inj h]
    have hserve := serve_turn (s := s) (c := c) (l := l) n
    split_ifs
    · rw [Sys.setPc, turn_setSched]
      simp [Sched.turn, hpc]
    · simp only [Sched.turn, hpc]
      omega
  | confirmed l n =>
    rw [hpc] at h
    rw [← Option.some.inj h, Sys.setPc, turn_setSched]
    exact Or.inl (by simp [Sched.turn, hpc])
  | computed l n i =>
    rw [hpc] at h
    rw [← Option.some.inj h, Sys.setPc, turn_setSched]
    exact Or.inl (by simp [Sched.turn, hpc])
  | argument l n i r =>
    rw [hpc] at h
    rw [← Option.some.inj h, Sys.setPc, turn_setSched]
    exact Or.inl (by simp [Sched.turn, hpc])
  | updated l n i =>
    rw [hpc] at h
    rw [← Option.some.inj h]
    exact Or.inr (push_weighs hc hpc)
  | running l k n =>
    rw [hpc] at h
    rw [← Option.some.inj h]
    exact Or.inl (subSchedRun_turn hpc)
  | served l n =>
    rw [hpc] at h
    rw [← Option.some.inj h]
    exact Or.inr (pushBack_weighs hstop hc hpc)
  | pushed n =>
    rw [hpc] at h
    rw [← Option.some.inj h, Sys.setPc, turn_setSched]
    have hidle := (s.scheds c).idle_le
    refine Or.inl ?_
    split_ifs
    · simp only [Sched.turn, hpc, Sched.idle_setPc]
      split_ifs <;> omega
    · simp only [Sched.turn, hpc, Sched.idle_setPc]
      split_ifs <;> omega
  | events =>
    rw [hpc] at h
    dsimp only at h
    split_ifs at h
    rw [← Option.some.inj h]
    exact Or.inl (checkEvents_turn hpc hb)
  | exited =>
    rw [hpc] at h
    cases h

end Turn

/-- The rest of the system, and the stream whose end the main thread awaits. -/
structure Closing where
  sys : Sys
  joining : Nat

/-- What `ABT_sched_has_to_stop` reports to the scheduler of a stream, and whether
`ABT_xstream_join` on the awaited stream returns. -/
structure Argobots where
  hasToStop : Closing → Nat → Bool
  joinReturns : Closing → Bool

/-- A scheduler has to stop only when its pool is empty; one that is joined has to
when it is. The join returns when the scheduler has exited. -/
structure Argobots.AsDocumented (abt : Argobots) : Prop where
  empty : ∀ f c, abt.hasToStop f c = true → (f.sys.g.streams c).pool = []
  asked : ∀ f, (f.sys.g.streams f.joining).pool = [] → abt.hasToStop f f.joining = true
  joined : ∀ f, abt.joinReturns f = true ↔ (f.sys.scheds f.joining).pc = .exited

/-- The label is the stream of the scheduler, or `none` for the main thread. -/
inductive ClosingStep (abt : Argobots) (cfg : Config) : Option Nat → Closing → Closing → Prop
  | sched {f : Closing} {t : Sys} {c : Nat} : Enabled cfg c f.sys →
      splitStep cfg c (abt.hasToStop f c) f.sys = some t →
      ClosingStep abt cfg (some c) f { f with sys := t }
  | joined {f : Closing} : f.joining < cfg.nrCores →
      ((f.sys.g.streams f.joining).used = true → abt.joinReturns f = true) →
      ClosingStep abt cfg none f { f with joining := f.joining + 1 }

/-- A step that the end waits for. -/
def due (e : Option Nat × Closing) : Bool := e.1 == none || e.1 == some e.2.joining

/-- A bound on the steps that the end still waits for. -/
def Closing.toGo (cfg : Config) (f : Closing) : Nat :=
  49 * f.sys.weight cfg + f.sys.turn f.joining + 49 * (cfg.nrCores - f.joining)

structure Ending (cfg : Config) (f : Closing) : Prop where
  exclusive : Exclusive f.sys
  stopping : f.sys.stopping = true
  opened : ∀ c < cfg.nrCores, (f.sys.g.streams c).blocking = false
  joined : ∀ c, 0 < c → c < f.joining → (f.sys.g.streams c).used = true →
    (f.sys.scheds c).pc = .exited
  started : 0 < f.joining

section Ending

variable {abt : Argobots} {cfg : Config} {f f' : Closing} {w : Option Nat}

theorem ClosingStep.split {t : Sys} {c : Nat} {b : Bool} (he : Enabled cfg c f.sys)
    (h : splitStep cfg c b f.sys = some t) : SplitStep cfg (.sched c b) f.sys t := by
  unfold SplitStep
  rw [next]
  exact (if_pos he).trans h

theorem splitStep_stream {α : Type} {f : Stream → α} (hf : ∀ x p, f { x with pool := p } = f x)
    {s t : Sys} {c : Nat} (h : SplitSched cfg c s t) (d : Nat) :
    f (t.g.streams d) = f (s.g.streams d) := by
  have hpool : ∀ (s : Sys) (c : Nat) (pool : List PoolUnit),
      f ((s.setPool c pool).g.streams d) = f (s.g.streams d) := by
    intro s c pool
    by_cases hd : d = c
    · subst hd
      simp [Sys.setPool, Global.setStream, hf]
    · simp [Sys.setPool, Global.setStream, hd]
  cases h with
  | base hb =>
    cases hb with
    | idle => rfl
    | pop => exact hpool s c _
    | @run l k n =>
      have hstep := subSchedRun_cases c l k n s
      generalize subSchedRun c l k n s = u at hstep ⊢
      cases hstep with
      | _ => rfl
    | @back l n =>
      unfold pushBack
      split_ifs
      · rfl
      · exact hpool s c _
  | serve =>
    unfold serve
    split_ifs
    · rfl
    · rfl
  | @push l n i =>
    change f ((s.pushAt cfg i (.sched l)).g.streams d) = _
    unfold Sys.pushAt
    split_ifs
    · exact hpool s _ _
    · rfl
  | _ => rfl

theorem Argobots.AsDocumented.awaited (hd : abt.AsDocumented) (f : Closing) :
    abt.hasToStop f f.joining = (f.sys.g.streams f.joining).pool.isEmpty := by
  by_cases hp : (f.sys.g.streams f.joining).pool = []
  · simp [hp, hd.asked f hp]
  · have hno : abt.hasToStop f f.joining ≠ true := fun hs => hp (hd.empty f _ hs)
    simp [hp, hno]

theorem Ending.step (hd : abt.AsDocumented) (hf : Ending cfg f) (hst : ClosingStep abt cfg w f f') :
    Ending cfg f' := by
  cases hst with
  | @sched _ t c he h =>
    have hsplit := ClosingStep.split he h
    have hmove := hsplit.move
    have hscheds := hsplit.localStep.2.others
    refine ⟨hf.exclusive.step hmove, hmove.stopping hf.stopping, fun d hlt => ?_, fun d h0 hd hu => ?_,
      hf.started⟩
    · exact (splitStep_stream (f := Stream.blocking) (fun _ _ => rfl) (splitStep_cases h) d).trans
        (hf.opened d hlt)
    · have hexit := hf.joined d h0 hd (by rw [← hmove.used d]; exact hu)
      by_cases hdc : d = c
      · subst hdc
        simp [splitStep, baseStep, hexit] at h
      · dsimp only
        rw [hscheds d hdc]
        exact hexit
  | joined hlt hexit =>
    refine ⟨hf.exclusive, hf.stopping, hf.opened, fun d h0 hlt hu => ?_, Nat.succ_pos _⟩
    by_cases hdj : d = f.joining
    · rw [hdj] at hu ⊢
      exact (hd.joined f).mp (hexit hu)
    · exact hf.joined d h0 (by dsimp only at hlt; omega) hu

theorem ClosingStep.toGo (hd : abt.AsDocumented) (hf : Ending cfg f) (hst : ClosingStep abt cfg w f f') :
    f'.toGo cfg + (if due (w, f') then 1 else 0) ≤ f.toGo cfg := by
  cases hst with
  | @sched _ t c he h =>
    have hsplit := ClosingStep.split he h
    have hturn : t.turn f.joining ≤ 48 := Sched.turn_le _ _ _
    unfold Closing.toGo
    dsimp only
    rcases splitStep_weighs hf.exclusive hf.stopping he.2.1 h with hw | ⟨hw, hpools⟩
    · split_ifs <;> omega
    · by_cases hc : c = f.joining
      · have hb : abt.hasToStop f c = (f.sys.g.streams c).pool.isEmpty := by
          rw [hc]
          exact hd.awaited f
        rcases splitStep_turn hf.stopping (hf.opened c he.2.1) he.2.1 hb h with hlt | hlt
        · rw [hc] at hlt
          split_ifs <;> omega
        · omega
      · have hdue : due (some c, (⟨t, f.joining⟩ : Closing)) = false := by
          simp [due, hc]
        have hscheds := hsplit.localStep.2.others f.joining (Ne.symm hc)
        have hle : t.turn f.joining ≤ f.sys.turn f.joining :=
          turn_other hscheds (hpools _ (Ne.symm hc)) (fun l hp => hsplit.pool_nil hp (by simp))
        rw [hdue, if_neg Bool.false_ne_true]
        omega
  | joined hlt _ =>
    have hturn : f.sys.turn (f.joining + 1) ≤ 48 := Sched.turn_le _ _ _
    unfold Closing.toGo
    dsimp only
    split_ifs <;> omega

theorem splitStep_exists {s : Sys} {c : Nat} {b : Bool} (hpc : (s.scheds c).pc ≠ .exited)
    (hb : b = true → (s.g.streams c).pool = []) : ∃ t, splitStep cfg c b s = some t := by
  unfold splitStep baseStep
  cases h : (s.scheds c).pc with
  | holding u n =>
    cases u with
    | sched l => exact ⟨_, rfl⟩
    | thread x => exact ⟨_, rfl⟩
  | sized n =>
    cases hp : (s.g.streams c).pool with
    | nil => exact ⟨_, rfl⟩
    | cons u rest => exact ⟨_, rfl⟩
  | events =>
    have hguard : ¬ (b = true ∧ (s.g.streams c).pool ≠ []) := fun hg => hg.2 (hb hg.1)
    exact ⟨_, if_neg hguard⟩
  | exited => exact absurd h hpc
  | _ => exact ⟨_, rfl⟩

theorem Ending.progress (hd : abt.AsDocumented) (hf : Ending cfg f) (hlt : f.joining < cfg.nrCores) :
    ∃ w f', ClosingStep abt cfg w f f' ∧ due (w, f') = true := by
  by_cases hwait : (f.sys.g.streams f.joining).used = true ∧ (f.sys.scheds f.joining).pc ≠ .exited
  · obtain ⟨t, ht⟩ : ∃ t, splitStep cfg f.joining (abt.hasToStop f f.joining) f.sys = some t :=
      splitStep_exists hwait.2 (hd.empty f _)
    exact ⟨some f.joining, _, .sched ⟨Nat.ne_of_gt hf.started, hlt, hwait.1⟩ ht, by simp [due]⟩
  · refine ⟨none, _, .joined hlt (fun hu => (hd.joined f).mpr ?_), rfl⟩
    by_contra hpc
    exact hwait ⟨hu, hpc⟩

theorem Ending.finishes (hd : abt.AsDocumented) (hf : Ending cfg f) :
    ∃ steps e, Path (ClosingStep abt cfg) f steps e ∧ cfg.nrCores ≤ e.joining := by
  induction hm : f.toGo cfg using Nat.strong_induction_on generalizing f with
  | _ m ih =>
    by_cases hlt : f.joining < cfg.nrCores
    · obtain ⟨w, f', hst, hdue⟩ := hf.progress hd hlt
      have hless := hst.toGo hd hf
      rw [if_pos hdue] at hless
      obtain ⟨steps, e, hp, he⟩ := ih (f'.toGo cfg) (by omega) (hf.step hd hst) rfl
      exact ⟨_, e, .cons hst hp, he⟩
    · exact ⟨[], f, .nil f, Nat.not_lt.mp hlt⟩

end Ending

theorem Ending.start {cfg : Config} {s : Sys} (hx : Exclusive s) (hstop : s.stopping = true)
    (hopen : ∀ c < cfg.nrCores, (s.g.streams c).blocking = false) : Ending cfg ⟨s, 1⟩ :=
  ⟨hx, hstop, hopen, fun c h0 h1 _ => absurd h0 (by dsimp only at h1; omega), Nat.one_pos⟩

/-- `abtst_finalize_streams` returns. After the stop, in every interleaving, the
steps of the main thread and of the scheduler that it awaits are bounded by the
units that are under way, and one of these two can always take a step until every
stream is joined; by then every scheduler has exited. -/
theorem finalize_streams_returns {cfg : Config} (hv : cfg.Valid) {abt : Argobots}
    (hd : abt.AsDocumented) {g : Global} (hg : Mapped cfg g)
    {s : Sys} {log : List (Label × Sys)} (hp : Path (SplitStep cfg) (launch g) log s)
    (hstop : s.stopping = true) (hopen : ∀ c < cfg.nrCores, (s.g.streams c).blocking = false)
    {steps : List (Option Nat × Closing)} {f : Closing} (hf : Path (ClosingStep abt cfg) ⟨s, 1⟩ steps f) :
    steps.countP due + f.toGo cfg ≤
      49 * s.weight cfg + s.turn 1 + 49 * (cfg.nrCores - 1) ∧
    (f.joining < cfg.nrCores → ∃ w f', ClosingStep abt cfg w f f' ∧ due (w, f') = true) ∧
    (cfg.nrCores ≤ f.joining → ∀ c, 0 < c → c < cfg.nrCores → (f.sys.g.streams c).used = true →
      (f.sys.scheds c).pc = .exited) := by
  have hstart : Ending cfg ⟨s, 1⟩ := .start (.run (hg.initial hv) hp) hstop hopen
  have hkeep : ∀ w f f', ClosingStep abt cfg w f f' → Ending cfg f → Ending cfg f' :=
    fun _ _ _ hst hf => hf.step hd hst
  have hend := (hf.invariant hkeep hstart).2
  refine ⟨hf.countP_le hkeep (fun _ _ _ hst hf => hst.toGo hd hf) hstart, hend.progress hd, ?_⟩
  exact fun hle c h0 hc hu => hend.joined c h0 (by omega) hu

/-- The streams are asked to stop one after another. -/
def oneByOne : Argobots where
  hasToStop f c := decide (c ≤ f.joining) && (f.sys.g.streams c).pool.isEmpty
  joinReturns f := decide ((f.sys.scheds f.joining).pc = .exited)

theorem oneByOne_asDocumented : oneByOne.AsDocumented := by
  refine ⟨fun f c h => ?_, fun f h => ?_, fun f => decide_eq_true_iff⟩
  · rw [oneByOne, Bool.and_eq_true] at h
    exact List.isEmpty_iff.mp h.2
  · simp [oneByOne, h]

theorem smallStart_open : (smallStart.all fun g =>
    (List.range 4).all fun c => !(g.streams c).blocking && (c == 0 || (g.streams c).used)) = true := by
  decide +kernel

/-- All three streams are joined, and their schedulers have exited. -/
theorem finalize_streams_returns_small : ∃ g s steps f, Mapped smallConfig g ∧ g.Created ⟨0, 1⟩ ∧
    s = { launch g with stopping := true } ∧ Path (ClosingStep oneByOne smallConfig) ⟨s, 1⟩ steps f ∧
    4 ≤ f.joining ∧ steps.countP due ≤ 49 * s.weight smallConfig + s.turn 1 + 49 * 3 ∧
    ∀ c, 0 < c → c < 4 → (f.sys.scheds c).pc = .exited := by
  obtain ⟨g, hg, hl⟩ := smallStart_created
  have hm := startWith_mapped hg
  have hall : ∀ c < 4, (g.streams c).blocking = false ∧ (0 < c → (g.streams c).used = true) := by
    have hopen := smallStart_open
    rw [hg] at hopen
    intro c hc
    have hc := List.all_eq_true.mp hopen c (List.mem_range.mpr hc)
    simp only [Bool.and_eq_true, Bool.not_eq_true', Bool.or_eq_true, beq_iff_eq] at hc
    exact ⟨hc.1, fun h0 => hc.2.resolve_left (Nat.ne_of_gt h0)⟩
  have hopen : ∀ c < smallConfig.nrCores,
      (({ launch g with stopping := true } : Sys).g.streams c).blocking = false := fun c hc => (hall c hc).1
  have hp : Path (SplitStep smallConfig) (launch g) [(.stop, { launch g with stopping := true })]
      { launch g with stopping := true } := .single rfl
  have hstart : Ending smallConfig ⟨{ launch g with stopping := true }, 1⟩ :=
    .start (.run (hm.initial smallConfig_valid) hp) rfl hopen
  obtain ⟨steps, f, hf, hlast⟩ := hstart.finishes oneByOne_asDocumented
  have hused : ∀ c, (f.sys.g.streams c).used = (g.streams c).used :=
    (hf.invariant (I := fun f => ∀ c, (f.sys.g.streams c).used = (g.streams c).used)
      (fun w f f' hst h c => by
        cases hst with
        | sched he ht => exact ((ClosingStep.split he ht).move.used c).trans (h c)
        | joined => exact h c) (fun c => rfl)).2
  obtain ⟨hbound, -, hexit⟩ :=
    finalize_streams_returns smallConfig_valid oneByOne_asDocumented hm hp rfl hopen hf
  refine ⟨g, _, steps, f, hm, hl, rfl, hf, hlast, Nat.le_of_add_right_le hbound, fun c h0 hc => ?_⟩
  exact hexit hlast c h0 hc (by rw [hused]; exact (hall c hc).2 h0)

end AbtSt
