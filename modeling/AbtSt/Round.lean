import AbtSt.Batch
import AbtSt.Lap
import AbtSt.Retarget

/-! One round of `sched_run` over the pool of its stream: the inner loop from its
first test to the check for events. Other parties take steps in between, but
nothing is pushed into this pool, and the targets of its units stay as they are.
The index of the stream that a unit is sent to rests on the rank of its load. -/

namespace AbtSt

/-- A round with what its scheduler has popped and sent away, the number of steps it
has taken, and whether the last pop of the sub-scheduler that it runs found the
pool empty; no step reads these. A unit that is sent is recorded with the stream
whose pool gets it and the rank of its load. -/
structure Round where
  sys : Sys
  popped : List PoolUnit
  sent : List (LoadId × Nat × Nat)
  steps : Nat
  dry : Bool

def enterRound (s : Sys) : Round := ⟨s, [], [], 0, false⟩

/-- The round after a step of the scheduler of stream `c` itself. -/
def Round.ownStep (c : Nat) (v : Round) (t : Sys) : Round :=
  match (v.sys.scheds c).pc with
  | .running l k _ =>
    ⟨t, v.popped, v.sent, v.steps + 1, decide (k < maxBatchCount ∧ (v.sys.g.loads l).pool = [])⟩
  | .sized _ => ⟨t, v.popped ++ (v.sys.g.streams c).pool.head?.toList, v.sent, v.steps + 1, false⟩
  | .updated l _ i =>
    let d := i.toNat
    ⟨t, v.popped,
      if (t.g.streams d).pool = (v.sys.g.streams d).pool ++ [.sched l]
      then v.sent ++ [(l, d, (t.g.loads l).currRank)] else v.sent, v.steps + 1, false⟩
  | _ => ⟨t, v.popped, v.sent, v.steps + 1, false⟩

/-- One step of any party during a round over the units of `ls`. -/
inductive RoundStep (cfg : Config) (c : Nat) (ls : List LoadId) : Label → Round → Round → Prop
  | own {v : Round} {t : Sys} {b : Bool} : (v.sys.scheds c).pc ≠ .events →
      SplitStep cfg (.sched c b) v.sys t → RoundStep cfg c ls (.sched c b) v (v.ownStep c t)
  | other {v : Round} {t : Sys} {a : Label} : (v.sys.scheds c).pc ≠ .events →
      SplitStep cfg a v.sys t → (∀ b, a ≠ .sched c b) →
      (t.g.streams c).pool = (v.sys.g.streams c).pool →
      (∀ l ∈ ls, (t.g.loads l).destRank = (v.sys.g.loads l).destRank) →
      t.stopping = false → (t.g.streams c).blocking = false →
      RoundStep cfg c ls a v { v with sys := t }

/-- No work arrives at a load between a pop of its sub-scheduler that finds the pool
empty and the next pop of the same call. -/
def Round.Undisturbed (c : Nat) (a : Label) (v : Round) : Prop :=
  ∀ l x k n, a = .create l x → (v.sys.scheds c).pc = .running l k n → v.dry = false

def CalmRoundStep (cfg : Config) (c : Nat) (ls : List LoadId) (a : Label) (v w : Round) : Prop :=
  RoundStep cfg c ls a v w ∧ v.Undisturbed c a

/-- The scheduler of stream `c` is about to enter the loop, and its pool holds the
units of `ls`. The ranks of a load are 32-bit words. -/
structure RoundStart (cfg : Config) (c : Nat) (ls : List LoadId) (s : Sys) : Prop where
  enabled : Enabled cfg c s
  pc : (s.scheds c).pc = .inner
  runSubpool : (s.scheds c).runSubpool = 0
  pool : (s.g.streams c).pool = ls.map .sched
  words : ∀ l ∈ ls, (s.g.loads l).currRank < 2 ^ 32 ∧ (s.g.loads l).destRank < 2 ^ 32
  exclusive : Exclusive s
  stopping : s.stopping = false
  blocking : (s.g.streams c).blocking = false

def remains (g : Global) (l : LoadId) : Bool := !abtstLoadIsMigrating g l

/-- The units that leave and reach a pool, each with the stream that its index
points to and with its new rank. -/
def sentOf (cfg : Config) (c : Nat) (s : Sys) (ls : List LoadId) : List (LoadId × Nat × Nat) :=
  (ls.filter (abtstLoadIsMigrating s.g)).filterMap fun l =>
    if 0 ≤ newStream s c l ∧ newStream s c l < cfg.nrCores
    then some (l, (newStream s c l).toNat, (s.g.loads l).destRank) else none

section Phases

variable (cfg : Config) (c : Nat) (ls : List LoadId) (s : Sys) (v : Round) (q : List LoadId)

def MidLap : Prop :=
  ∃ p, Lap (remains s.g) ls q (v.sys.scheds c).runSubpool p ∧ v.popped = p.map .sched ∧
    v.sent = sentOf cfg c s p

/-- The scheduler holds `l`, whose load has the given rank. -/
def Holds (l : LoadId) (n rank : Nat) : Prop :=
  ∃ p, Held (remains s.g) ls l q (v.sys.scheds c).runSubpool p ∧ n = q.length + 1 ∧
    v.popped = (p ++ [l]).map .sched ∧ v.sent = sentOf cfg c s p ∧ (v.sys.g.loads l).currRank = rank

def HoldsSame (l : LoadId) (n : Nat) : Prop := Holds cfg c ls s v q l n (s.g.loads l).currRank

def Decided (n : Nat) : Prop :=
  ∃ p, v.popped = p.map .sched ∧ v.sent = sentOf cfg c s p ∧
    (n ≤ (v.sys.scheds c).runSubpool → LapOver (remains s.g) ls q p) ∧
    (¬ n ≤ (v.sys.scheds c).runSubpool → Lap (remains s.g) ls q (v.sys.scheds c).runSubpool p)

/-- Where the lap is at each point of the loop; `s` is the state at its start. -/
def Phase : Pc → Prop
  | .inner => MidLap cfg c ls s v q
  | .sized n => n = q.length ∧ MidLap cfg c ls s v q
  | .holding u n => ∃ l, u = .sched l ∧ HoldsSame cfg c ls s v q l n
  | .migrating l n => HoldsSame cfg c ls s v q l n ∧ remains s.g l = false
  | .confirmed l n => HoldsSame cfg c ls s v q l n ∧ remains s.g l = false
  | .computed l n i => HoldsSame cfg c ls s v q l n ∧ remains s.g l = false ∧ i = newStream s c l
  | .argument l n i r => HoldsSame cfg c ls s v q l n ∧ remains s.g l = false ∧
      i = newStream s c l ∧ r = (s.g.loads l).destRank
  | .updated l n i => Holds cfg c ls s v q l n (s.g.loads l).destRank ∧ remains s.g l = false ∧
      i = newStream s c l
  | .running l k n => HoldsSame cfg c ls s v q l n ∧ remains s.g l = true ∧
      (v.dry = true → k = 0 ∧ (v.sys.g.loads l).pool = [])
  | .served l n => HoldsSame cfg c ls s v q l n ∧ remains s.g l = true
  | .pushed n => Decided cfg c ls s v q n
  | .events => ∃ p, v.popped = p.map .sched ∧ v.sent = sentOf cfg c s p ∧ LapOver (remains s.g) ls q p
  | .outer => False
  | .exited => False

end Phases

/-- The steps to the end of the loop if nothing else is popped. A call of the
sub-scheduler runs its batch to the end, or its second pop in a row is its last. -/
def Pc.toGo (dry : Bool) : Pc → Nat
  | .holding _ _ => 23
  | .running _ k _ => if dry then 5 else 6 + (maxBatchCount - k)
  | .migrating _ _ => 7
  | .confirmed _ _ => 6
  | .computed _ _ _ => 5
  | .argument _ _ _ _ => 4
  | .served _ _ => 4
  | .updated _ _ _ => 3
  | .pushed _ => 3
  | .inner => 2
  | .sized _ => 1
  | _ => 0

/-- At most one more unit is popped than there are. -/
def Round.toGo (c : Nat) (ls : List LoadId) (v : Round) : Nat :=
  23 * (ls.length + 1 - v.popped.length) + (v.sys.scheds c).pc.toGo v.dry

/-- The pool holds the units of `q`, whose loads have the rank they began with. -/
structure AtLap (c : Nat) (ls : List LoadId) (s : Sys) (v : Round) (q : List LoadId) : Prop where
  pool : (v.sys.g.streams c).pool = q.map .sched
  here : ∀ l ∈ q, l ∈ ls ∧ (v.sys.g.loads l).currRank = (s.g.loads l).currRank

def OnLap (cfg : Config) (c : Nat) (ls : List LoadId) (s : Sys) (v : Round) : Prop :=
  ∃ q, AtLap c ls s v q ∧ Phase cfg c ls s v q (v.sys.scheds c).pc

/-- What a step of the scheduler itself achieves. -/
structure Advances (cfg : Config) (c : Nat) (ls : List LoadId) (s : Sys) (v w : Round) : Prop where
  onLap : OnLap cfg c ls s w
  steps : w.steps = v.steps + 1
  toGo : w.toGo c ls < v.toGo c ls

/-- A scheduler leaves alone what the others may change during a round. -/
structure SameOrders (s t : Sys) : Prop where
  dest : ∀ l, (t.g.loads l).destRank = (s.g.loads l).destRank
  stopping : t.stopping = s.stopping
  blocking : ∀ d, (t.g.streams d).blocking = (s.g.streams d).blocking

theorem SameOrders.setSched {s x : Sys} (h : SameOrders s x) (c : Nat) (q : Sched) :
    SameOrders s (x.setSched c q) := ⟨h.dest, h.stopping, h.blocking⟩

theorem SameOrders.refl (s : Sys) : SameOrders s s := ⟨fun _ => rfl, rfl, fun _ => rfl⟩

theorem sameOrders_setPool (s : Sys) (c : Nat) (pool : List PoolUnit) :
    SameOrders s (s.setPool c pool) := by
  refine ⟨fun _ => rfl, rfl, fun d => ?_⟩
  by_cases hd : d = c
  · subst hd
    simp [Sys.setPool, Global.setStream]
  · simp [Sys.setPool, Global.setStream, hd]

theorem sameOrders_setLoad (s : Sys) (l : LoadId) (x : Load)
    (hx : x.destRank = (s.g.loads l).destRank) : SameOrders s (s.setLoad l x) := by
  refine ⟨fun m => ?_, rfl, fun _ => rfl⟩
  by_cases hm : m = l
  · subst hm
    simpa [Sys.setLoad, Global.setLoad] using hx
  · simp [Sys.setLoad, Global.setLoad, hm]

theorem serve_sameOrders (c : Nat) (l : LoadId) (n : Nat) (s : Sys) : SameOrders s (serve c l n s) := by
  unfold serve
  split_ifs
  · refine SameOrders.setSched (sameOrders_setLoad s l _ ?_) c _
    rfl
  · exact (SameOrders.refl s).setSched c _

theorem subSchedRun_sameOrders (c : Nat) (l : LoadId) (k n : Nat) (s : Sys) :
    SameOrders s (subSchedRun c l k n s) := by
  have hstep := subSchedRun_cases c l k n s
  generalize subSchedRun c l k n s = t at hstep ⊢
  cases hstep with
  | run =>
    refine SameOrders.setSched (sameOrders_setLoad s l _ ?_) c _
    rfl
  | _ => exact (SameOrders.refl s).setSched c _

theorem splitSched_sameOrders {cfg : Config} {c : Nat} {s t : Sys} (h : SplitSched cfg c s t) :
    SameOrders s t := by
  cases h with
  | base hb =>
    cases hb with
    | idle => exact (SameOrders.refl s).setSched c _
    | pop => exact (sameOrders_setPool s c _).setSched c _
    | run => exact subSchedRun_sameOrders c _ _ _ s
    | back =>
      unfold pushBack
      dsimp only
      split_ifs
      · exact ⟨fun _ => rfl, rfl, fun _ => rfl⟩
      · exact (sameOrders_setPool s c _).setSched c _
  | serve => exact serve_sameOrders c _ _ s
  | @update l n r i =>
    have hload : SameOrders s (updateCurrRank s l r) := by
      obtain ⟨hdest, hstop, hblock⟩ := sameOrders_setLoad s l
        { s.g.loads l with currRank := r } rfl
      exact ⟨hdest, hstop, hblock⟩
    exact hload.setSched c _
  | @push l n i =>
    unfold Sys.pushAt
    split_ifs
    · exact (sameOrders_setPool s _ _).setSched c _
    · exact ⟨fun _ => rfl, rfl, fun _ => rfl⟩
  | _ => exact (SameOrders.refl s).setSched c _

section Own

variable {cfg : Config} {c : Nat} {ls : List LoadId} {s : Sys} {v w : Round} {q : List LoadId}

/-- The phase reads the count, the records, the rank of the load in hand and, after
an empty pop, its pool. -/
theorem Phase.congr {pc : Pc} (h : Phase cfg c ls s v q pc)
    (hrun : (w.sys.scheds c).runSubpool = (v.sys.scheds c).runSubpool) (hpop : w.popped = v.popped)
    (hsent : w.sent = v.sent)
    (hcurr : ∀ l, pc.unit = some (.sched l) →
      (w.sys.g.loads l).currRank = (v.sys.g.loads l).currRank)
    (hdry : ∀ l k n, pc = .running l k n → w.dry = true →
      v.dry = true ∧ ((v.sys.g.loads l).pool = [] → (w.sys.g.loads l).pool = [])) :
    Phase cfg c ls s w q pc := by
  have hholds : ∀ l n r, pc.unit = some (.sched l) → Holds cfg c ls s v q l n r →
      Holds cfg c ls s w q l n r := by
    intro l n r hl hh
    unfold Holds at hh ⊢
    rw [hrun, hpop, hsent, hcurr l hl]
    exact hh
  cases pc with
  | inner =>
    unfold Phase MidLap at h ⊢
    rw [hrun, hpop, hsent]
    exact h
  | sized n =>
    unfold Phase MidLap at h ⊢
    rw [hrun, hpop, hsent]
    exact h
  | holding u n =>
    obtain ⟨l, rfl, hh⟩ := h
    exact ⟨l, rfl, hholds l n _ rfl hh⟩
  | migrating l n => exact ⟨hholds l n _ rfl h.1, h.2⟩
  | confirmed l n => exact ⟨hholds l n _ rfl h.1, h.2⟩
  | computed l n i => exact ⟨hholds l n _ rfl h.1, h.2⟩
  | argument l n i r => exact ⟨hholds l n _ rfl h.1, h.2⟩
  | updated l n i => exact ⟨hholds l n _ rfl h.1, h.2⟩
  | running l k n =>
    refine ⟨hholds l n _ rfl h.1, h.2.1, fun hd => ?_⟩
    obtain ⟨hd', hp⟩ := hdry l k n rfl hd
    obtain ⟨hk, hnil⟩ := h.2.2 hd'
    exact ⟨hk, hp hnil⟩
  | served l n => exact ⟨hholds l n _ rfl h.1, h.2⟩
  | pushed n =>
    unfold Phase Decided at h ⊢
    rw [hrun, hpop, hsent]
    exact h
  | events =>
    unfold Phase at h ⊢
    rw [hpop, hsent]
    exact h
  | outer => exact h
  | exited => exact h

theorem Advances.onward {t : Sys} {sent : List (LoadId × Nat × Nat)}
    (hown : v.ownStep c t = ⟨t, v.popped, sent, v.steps + 1, false⟩)
    (hlap : OnLap cfg c ls s ⟨t, v.popped, sent, v.steps + 1, false⟩)
    (hlt : (t.scheds c).pc.toGo false < (v.sys.scheds c).pc.toGo v.dry) :
    Advances cfg c ls s v (v.ownStep c t) := by
  rw [hown]
  refine ⟨hlap, rfl, ?_⟩
  unfold Round.toGo
  dsimp only
  omega

theorem Advances.setPc {pc' : Pc} (hat : AtLap c ls s v q) (hφ : Phase cfg c ls s v q pc')
    (hown : v.ownStep c (v.sys.setPc c pc') =
      ⟨v.sys.setPc c pc', v.popped, v.sent, v.steps + 1, false⟩)
    (hlt : pc'.toGo false < (v.sys.scheds c).pc.toGo v.dry) :
    Advances cfg c ls s v (v.ownStep c (v.sys.setPc c pc')) := by
  have hpc : ((v.sys.setPc c pc').scheds c).pc = pc' := by simp [Sys.setPc, Sys.setSched]
  refine .onward hown ⟨q, ⟨hat.pool, hat.here⟩, ?_⟩ (by rw [hpc]; exact hlt)
  dsimp only
  rw [hpc]
  exact hφ.congr (by simp [Sys.setPc, Sys.setSched]) rfl rfl (fun _ _ => rfl) (fun _ _ _ _ hd => by cases hd)

theorem lap_inner (hat : AtLap c ls s v q)
    (hblock : (v.sys.g.streams c).blocking = false) (hpc : (v.sys.scheds c).pc = .inner)
    (h : MidLap cfg c ls s v q) {b : Bool} {t : Sys} (ht : splitStep cfg c b v.sys = some t) :
    Advances cfg c ls s v (v.ownStep c t) := by
  have hstep : splitStep cfg c b v.sys = some (v.sys.setPc c (.sized q.length)) := by
    simp [splitStep, baseStep, hpc, hblock, hat.pool]
  obtain rfl := Option.some.inj (hstep.symm.trans ht)
  exact .setPc hat ⟨rfl, h⟩ (by simp [Round.ownStep, hpc]) (by simp [hpc, Pc.toGo])

theorem lap_sized {n : Nat} (hat : AtLap c ls s v q) (hpc : (v.sys.scheds c).pc = .sized n)
    (hn : n = q.length) (h : MidLap cfg c ls s v q) {b : Bool} {t : Sys}
    (ht : splitStep cfg c b v.sys = some t) : Advances cfg c ls s v (v.ownStep c t) := by
  obtain ⟨p, hlap, hpop, hsent⟩ := h
  cases q with
  | nil =>
    have hstep : splitStep cfg c b v.sys = some (v.sys.setPc c .events) := by
      simp [splitStep, baseStep, hpc, hat.pool]
    obtain rfl := Option.some.inj (hstep.symm.trans ht)
    exact .setPc hat ⟨p, hpop, hsent, hlap.empty⟩ (by simp [Round.ownStep, hpc, hat.pool])
      (by simp [hpc, Pc.toGo])
  | cons l rest =>
    have hstep : splitStep cfg c b v.sys =
        some ((v.sys.setPool c (rest.map .sched)).setPc c (.holding (.sched l) n)) := by
      simp [splitStep, baseStep, hpc, hat.pool]
    obtain rfl := Option.some.inj (hstep.symm.trans ht)
    have hown : v.ownStep c ((v.sys.setPool c (rest.map .sched)).setPc c (.holding (.sched l) n)) =
        ⟨(v.sys.setPool c (rest.map .sched)).setPc c (.holding (.sched l) n),
          v.popped ++ [.sched l], v.sent, v.steps + 1, false⟩ := by
      simp [Round.ownStep, hpc, hat.pool]
    have hle := hlap.length_le
    rw [hown]
    refine ⟨⟨rest, ⟨?_, fun m hm => hat.here m (List.mem_cons_of_mem l hm)⟩, ?_⟩, rfl, ?_⟩
    · simp [Sys.setPc, Sys.setSched, Sys.setPool, Global.setStream]
    · have hpc' : (((v.sys.setPool c (rest.map .sched)).setPc c (.holding (.sched l) n)).scheds c).pc =
          .holding (.sched l) n := by simp [Sys.setPc, Sys.setSched]
      dsimp only
      rw [hpc']
      refine ⟨l, rfl, p, ?_, by rw [hn]; rfl, by simp [hpop], hsent, (hat.here l List.mem_cons_self).2⟩
      simpa [Sys.setPc, Sys.setSched, Sys.setPool] using hlap.pop
    · simp only [Round.toGo, Sys.setPc, Sys.setSched, Function.update_self, hpc, Pc.toGo, hpop,
        List.length_append, List.length_map, List.length_cons, List.length_nil]
      omega

theorem lap_pushed {n : Nat} (hat : AtLap c ls s v q) (hpc : (v.sys.scheds c).pc = .pushed n)
    (h : Decided cfg c ls s v q n) {b : Bool} {t : Sys} (ht : splitStep cfg c b v.sys = some t) :
    Advances cfg c ls s v (v.ownStep c t) := by
  obtain ⟨p, hpop, hsent, hover, hlap⟩ := h
  by_cases hn : n ≤ (v.sys.scheds c).runSubpool
  · have hstep : splitStep cfg c b v.sys = some (v.sys.setPc c .events) := by
      simp [splitStep, baseStep, hpc, hn]
    obtain rfl := Option.some.inj (hstep.symm.trans ht)
    exact .setPc hat ⟨p, hpop, hsent, hover hn⟩ (by simp [Round.ownStep, hpc])
      (by simp [hpc, Pc.toGo])
  · have hstep : splitStep cfg c b v.sys = some (v.sys.setPc c .inner) := by
      simp [splitStep, baseStep, hpc, hn]
    obtain rfl := Option.some.inj (hstep.symm.trans ht)
    exact .setPc hat ⟨p, hlap hn, hpop, hsent⟩ (by simp [Round.ownStep, hpc])
      (by simp [hpc, Pc.toGo])

theorem Holds.mem {l : LoadId} {n r : Nat} (h : Holds cfg c ls s v q l n r) : l ∈ ls := by
  obtain ⟨p, hheld, -⟩ := h
  exact hheld.mem

/-- The test on a popped unit gives what it would have given at the start. -/
theorem HoldsSame.isMigrating {l : LoadId} {n : Nat} (h : HoldsSame cfg c ls s v q l n)
    (hdest : ∀ l ∈ ls, (v.sys.g.loads l).destRank = (s.g.loads l).destRank) :
    abtstLoadIsMigrating v.sys.g l = !remains s.g l := by
  have hmem := Holds.mem h
  obtain ⟨p, -, -, -, -, hcurr⟩ := h
  rw [remains, Bool.not_not, abtstLoadIsMigrating, abtstLoadIsMigrating, hcurr, hdest l hmem]

/-- The unit stays: its sub-scheduler is run, or there is nothing to run. -/
theorem lap_serve {l : LoadId} {n : Nat} (hat : AtLap c ls s v q)
    (hpc : (v.sys.scheds c).pc = .holding (.sched l) n) (h : HoldsSame cfg c ls s v q l n)
    (hstay : remains s.g l = true) : Advances cfg c ls s v (v.ownStep c (serve c l n v.sys)) := by
  unfold serve
  by_cases hwork : (v.sys.g.loads l).pool ≠ [] ∨ (v.sys.g.loads l).used = false
  · rw [if_pos hwork]
    set t : Sys := (v.sys.setLoad l { v.sys.g.loads l with used := true }).setSched c
      { v.sys.scheds c with pc := .running l 0 n, runCnt := (v.sys.scheds c).runCnt + 1 } with ht
    have hsched : t.scheds c =
        { v.sys.scheds c with pc := .running l 0 n, runCnt := (v.sys.scheds c).runCnt + 1 } := by
      simp [ht, Sys.setSched]
    have hcurr : ∀ m, (t.g.loads m).currRank = (v.sys.g.loads m).currRank := by
      intro m
      by_cases hm : m = l
      · subst hm
        simp [ht, Sys.setSched, Sys.setLoad, Global.setLoad]
      · simp [ht, Sys.setSched, Sys.setLoad, Global.setLoad, hm]
    have hown : v.ownStep c t = ⟨t, v.popped, v.sent, v.steps + 1, false⟩ := by
      simp [Round.ownStep, hpc]
    refine .onward hown ⟨q, ⟨hat.pool, fun m hm => ?_⟩, ?_⟩ ?_
    · dsimp only
      rw [hcurr]
      exact hat.here m hm
    · dsimp only
      rw [hsched]
      have hφ : Phase cfg c ls s v q (.served l n) := ⟨h, hstay⟩
      have hheld := (hφ.congr (by dsimp only; rw [hsched]) rfl rfl (fun m _ => hcurr m)
        (fun _ _ _ _ hd => by cases hd) : Phase cfg c ls s ⟨t, v.popped, v.sent, v.steps + 1, false⟩ q _)
      exact ⟨hheld.1, hheld.2, fun hd => by cases hd⟩
    · simp [hsched, hpc, Pc.toGo, maxBatchCount]
  · rw [if_neg hwork]
    exact .setPc hat ⟨h, hstay⟩ (by simp [Round.ownStep, hpc]) (by simp [hpc, Pc.toGo])

/-- Where a step of the sub-scheduler leads, with the pool of the load after it if it
was found empty. -/
theorem subSchedRun_moves (c : Nat) (l : LoadId) (k n : Nat) (s : Sys) :
    ∃ pc', (subSchedRun c l k n s).scheds c = { s.scheds c with pc := pc' } ∧
      (subSchedRun c l k n s).g.streams = s.g.streams ∧
      (pc' = .served l n ∨
        k < maxBatchCount ∧ (s.g.loads l).pool ≠ [] ∧ pc' = .running l (k + 1) n ∨
        k ≠ 0 ∧ k < maxBatchCount ∧ (s.g.loads l).pool = [] ∧
          ((subSchedRun c l k n s).g.loads l).pool = [] ∧ pc' = .running l 0 n) := by
  have hstep := subSchedRun_cases c l k n s
  generalize subSchedRun c l k n s = t at hstep ⊢
  cases hstep with
  | full => exact ⟨.served l n, by simp [Sys.setPc, Sys.setSched], rfl, Or.inl rfl⟩
  | idle => exact ⟨.served l n, by simp [Sys.setPc, Sys.setSched], rfl, Or.inl rfl⟩
  | again hz hk hp =>
    exact ⟨.running l 0 n, by simp [Sys.setPc, Sys.setSched], rfl, Or.inr (Or.inr ⟨hz, hk, hp, hp, rfl⟩)⟩
  | run hk hp =>
    exact ⟨.running l (k + 1) n, by simp [Sys.setPc, Sys.setSched, Sys.setLoad], rfl,
      Or.inr (Or.inl ⟨hk, by simp [hp], rfl⟩)⟩

theorem lap_running {l : LoadId} {k n : Nat} (hat : AtLap c ls s v q)
    (hpc : (v.sys.scheds c).pc = .running l k n) (h : HoldsSame cfg c ls s v q l n)
    (hstay : remains s.g l = true)
    (hdry : v.dry = true → k = 0 ∧ (v.sys.g.loads l).pool = []) :
    Advances cfg c ls s v (v.ownStep c (subSchedRun c l k n v.sys)) := by
  have hown : v.ownStep c (subSchedRun c l k n v.sys) = ⟨subSchedRun c l k n v.sys, v.popped, v.sent,
      v.steps + 1, decide (k < maxBatchCount ∧ (v.sys.g.loads l).pool = [])⟩ := by
    simp [Round.ownStep, hpc]
  obtain ⟨pc', hsched, hstreams, hpc'⟩ := subSchedRun_moves c l k n v.sys
  have hsites := subSchedRun_sites hpc
  have hheld : HoldsSame cfg c ls s (v.ownStep c (subSchedRun c l k n v.sys)) q l n := by
    rw [hown]
    unfold HoldsSame Holds at h ⊢
    dsimp only
    rw [hsched, hsites.currRank]
    exact h
  rw [hown] at hheld ⊢
  refine ⟨⟨q, ⟨by dsimp only; rw [hstreams, hat.pool], fun m hm => ?_⟩, ?_⟩, rfl, ?_⟩
  · dsimp only
    rw [hsites.currRank]
    exact hat.here m hm
  · dsimp only
    rw [hsched]
    rcases hpc' with rfl | ⟨hk, hp, rfl⟩ | ⟨hz, hk, hp, hp', rfl⟩
    · exact ⟨hheld, hstay⟩
    · exact ⟨hheld, hstay, fun hd => absurd (of_decide_eq_true hd).2 hp⟩
    · exact ⟨hheld, hstay, fun _ => ⟨rfl, hp'⟩⟩
  · unfold Round.toGo
    dsimp only
    rw [hsched, hpc]
    rcases hpc' with rfl | ⟨hk, hp, rfl⟩ | ⟨hz, hk, hp, -, rfl⟩
    · simp only [Pc.toGo]
      split_ifs <;> omega
    · have hwet : v.dry = false := by
        by_contra hd
        exact hp (hdry (by simpa using hd)).2
      simp only [Pc.toGo, hwet, hp]
      simp
      omega
    · have hwet : v.dry = false := by
        by_contra hd
        exact hz (hdry (by simpa using hd)).1
      simp only [Pc.toGo, hwet, hp, hk]
      simp
      omega

theorem lap_served {l : LoadId} {n : Nat} (hat : AtLap c ls s v q) (hstop : v.sys.stopping = false)
    (hpc : (v.sys.scheds c).pc = .served l n) (h : HoldsSame cfg c ls s v q l n)
    (hstay : remains s.g l = true) : Advances cfg c ls s v (v.ownStep c (pushBack c l n v.sys)) := by
  have hmem := Holds.mem h
  obtain ⟨p, hheld, hn, hpop, hsent, hcurr⟩ := h
  have hback : pushBack c l n v.sys = (v.sys.push c (.sched l)).setSched c
      { v.sys.scheds c with pc := .pushed n, runSubpool := (v.sys.scheds c).runSubpool + 1 } := by
    simp [pushBack, hstop]
  have hsched : (pushBack c l n v.sys).scheds c =
      { v.sys.scheds c with pc := .pushed n, runSubpool := (v.sys.scheds c).runSubpool + 1 } := by
    simp [hback, Sys.setSched]
  have hpool' : ((pushBack c l n v.sys).g.streams c).pool = (q ++ [l]).map .sched := by
    simp [hback, Sys.setSched, Sys.push, Sys.setPool, Global.setStream, hat.pool]
  have hloads : (pushBack c l n v.sys).g.loads = v.sys.g.loads := by rw [hback]; rfl
  have hown : v.ownStep c (pushBack c l n v.sys) =
      ⟨pushBack c l n v.sys, v.popped, v.sent, v.steps + 1, false⟩ := by simp [Round.ownStep, hpc]
  refine .onward hown ⟨q ++ [l], ⟨hpool', fun m hm => ?_⟩, ?_⟩ ?_
  · dsimp only
    rw [hloads]
    rcases List.mem_append.mp hm with hm | hm
    · exact hat.here m hm
    · obtain rfl : m = l := by simpa using hm
      exact ⟨hmem, hcurr⟩
  · obtain ⟨hover, hlap⟩ := hheld.keep hstay
    dsimp only
    rw [hsched]
    refine ⟨p ++ [l], hpop, ?_, ?_, ?_⟩
    · have hnot : abtstLoadIsMigrating s.g l = false := by simpa [remains] using hstay
      rw [hsent, sentOf, sentOf, List.filter_append]
      simp [hnot]
    · dsimp only
      rw [hsched, hn]
      exact hover
    · dsimp only
      rw [hsched, hn]
      exact hlap
  · simp [hsched, hpc, Pc.toGo]

theorem lap_holding {u : PoolUnit} {n : Nat} (hat : AtLap c ls s v q)
    (hdest : ∀ l ∈ ls, (v.sys.g.loads l).destRank = (s.g.loads l).destRank)
    (hpc : (v.sys.scheds c).pc = .holding u n) (h : ∃ l, u = .sched l ∧ HoldsSame cfg c ls s v q l n)
    {b : Bool} {t : Sys} (ht : splitStep cfg c b v.sys = some t) :
    Advances cfg c ls s v (v.ownStep c t) := by
  obtain ⟨l, rfl, h⟩ := h
  have htest := h.isMigrating hdest
  cases hstay : remains s.g l with
  | true =>
    have hstep : splitStep cfg c b v.sys = some (serve c l n v.sys) := by
      simp [splitStep, hpc, htest, hstay]
    obtain rfl := Option.some.inj (hstep.symm.trans ht)
    exact lap_serve hat hpc h hstay
  | false =>
    have hstep : splitStep cfg c b v.sys = some (v.sys.setPc c (.migrating l n)) := by
      simp [splitStep, hpc, htest, hstay]
    obtain rfl := Option.some.inj (hstep.symm.trans ht)
    exact .setPc hat ⟨h, hstay⟩ (by simp [Round.ownStep, hpc]) (by simp [hpc, Pc.toGo])

theorem lap_migrating {l : LoadId} {n : Nat} (hat : AtLap c ls s v q)
    (hdest : ∀ l ∈ ls, (v.sys.g.loads l).destRank = (s.g.loads l).destRank)
    (hpc : (v.sys.scheds c).pc = .migrating l n) (h : HoldsSame cfg c ls s v q l n)
    (hleave : remains s.g l = false) {b : Bool} {t : Sys} (ht : splitStep cfg c b v.sys = some t) :
    Advances cfg c ls s v (v.ownStep c t) := by
  have hne : (v.sys.g.loads l).currRank ≠ (v.sys.g.loads l).destRank := by
    simpa [abtstLoadIsMigrating, hleave] using h.isMigrating hdest
  have hstep : splitStep cfg c b v.sys = some (v.sys.setPc c (.confirmed l n)) := by
    simp [splitStep, hpc, hne]
  obtain rfl := Option.some.inj (hstep.symm.trans ht)
  exact .setPc hat ⟨h, hleave⟩ (by simp [Round.ownStep, hpc]) (by simp [hpc, Pc.toGo])

theorem lap_confirmed {l : LoadId} {n : Nat} (hat : AtLap c ls s v q)
    (hdest : ∀ l ∈ ls, (v.sys.g.loads l).destRank = (s.g.loads l).destRank)
    (hpc : (v.sys.scheds c).pc = .confirmed l n) (h : HoldsSame cfg c ls s v q l n)
    (hleave : remains s.g l = false) {b : Bool} {t : Sys} (ht : splitStep cfg c b v.sys = some t) :
    Advances cfg c ls s v (v.ownStep c t) := by
  have hindex : newStream v.sys c l = newStream s c l := by
    have hcurr : (v.sys.g.loads l).currRank = (s.g.loads l).currRank := by
      obtain ⟨p, -, -, -, -, hcurr⟩ := h
      exact hcurr
    rw [newStream, newStream, hcurr, hdest l (Holds.mem h)]
  have hstep : splitStep cfg c b v.sys =
      some (v.sys.setPc c (.computed l n (newStream v.sys c l))) := by
    simp [splitStep, hpc]
  obtain rfl := Option.some.inj (hstep.symm.trans ht)
  exact .setPc hat ⟨h, hleave, hindex⟩ (by simp [Round.ownStep, hpc]) (by simp [hpc, Pc.toGo])

theorem lap_computed {l : LoadId} {n : Nat} {i : Int} (hat : AtLap c ls s v q)
    (hdest : ∀ l ∈ ls, (v.sys.g.loads l).destRank = (s.g.loads l).destRank)
    (hpc : (v.sys.scheds c).pc = .computed l n i) (h : HoldsSame cfg c ls s v q l n)
    (hleave : remains s.g l = false) (hi : i = newStream s c l) {b : Bool} {t : Sys}
    (ht : splitStep cfg c b v.sys = some t) : Advances cfg c ls s v (v.ownStep c t) := by
  have hstep : splitStep cfg c b v.sys =
      some (v.sys.setPc c (.argument l n i (v.sys.g.loads l).destRank)) := by
    simp [splitStep, hpc]
  obtain rfl := Option.some.inj (hstep.symm.trans ht)
  exact .setPc hat ⟨h, hleave, hi, hdest l (Holds.mem h)⟩ (by simp [Round.ownStep, hpc])
    (by simp [hpc, Pc.toGo])

theorem not_mem_of_held (hx : Exclusive v.sys) {l : LoadId}
    (hu : (v.sys.scheds c).pc.unit = some (.sched l))
    (hat : AtLap c ls s v q) : l ∉ q := by
  intro hmem
  have hle := hx.le_one l c
  have hcount : 0 < (v.sys.g.streams c).pool.count (.sched l) := by
    rw [hat.pool]
    exact List.count_pos_iff.mpr (List.mem_map_of_mem hmem)
  rw [Sys.located, Pc.holds, if_pos hu] at hle
  omega

theorem lap_argument {l : LoadId} {n r : Nat} {i : Int} (hx : Exclusive v.sys)
    (hat : AtLap c ls s v q)
    (hpc : (v.sys.scheds c).pc = .argument l n i r) (h : HoldsSame cfg c ls s v q l n)
    (hleave : remains s.g l = false) (hi : i = newStream s c l) (hr : r = (s.g.loads l).destRank)
    {b : Bool} {t : Sys} (ht : splitStep cfg c b v.sys = some t) :
    Advances cfg c ls s v (v.ownStep c t) := by
  have hstep : splitStep cfg c b v.sys =
      some ((updateCurrRank v.sys l r).setPc c (.updated l n i)) := by
    simp [splitStep, hpc]
  obtain rfl := Option.some.inj (hstep.symm.trans ht)
  have hnot := not_mem_of_held hx (by rw [hpc]; rfl) hat
  have hown : v.ownStep c ((updateCurrRank v.sys l r).setPc c (.updated l n i)) =
      ⟨(updateCurrRank v.sys l r).setPc c (.updated l n i), v.popped, v.sent, v.steps + 1, false⟩ := by
    simp [Round.ownStep, hpc]
  have hsched : ((updateCurrRank v.sys l r).setPc c (.updated l n i)).scheds c =
      { v.sys.scheds c with pc := .updated l n i } := by
    simp [Sys.setPc, Sys.setSched, updateCurrRank, Sys.setLoad]
  have hcurr : ∀ m, m ≠ l → (((updateCurrRank v.sys l r).setPc c (.updated l n i)).g.loads m).currRank =
      (v.sys.g.loads m).currRank := by
    intro m hm
    simp [Sys.setPc, Sys.setSched, updateCurrRank, Sys.setLoad, Global.setLoad, hm]
  have hself : (((updateCurrRank v.sys l r).setPc c (.updated l n i)).g.loads l).currRank = r := by
    simp [Sys.setPc, Sys.setSched, updateCurrRank, Sys.setLoad, Global.setLoad]
  refine .onward hown ⟨q, ⟨hat.pool, fun m hm => ?_⟩, ?_⟩ ?_
  · dsimp only
    rw [hcurr m (fun he => hnot (he ▸ hm))]
    exact hat.here m hm
  · obtain ⟨p, hheld, hn, hpop, hsent, -⟩ := h
    dsimp only
    rw [hsched]
    refine ⟨⟨p, ?_, hn, hpop, hsent, hself.trans hr⟩, hleave, hi⟩
    dsimp only
    rw [hsched]
    exact hheld
  · simp [hsched, hpc, Pc.toGo]

theorem newStream_ne {l : LoadId} (hword : (s.g.loads l).currRank < 2 ^ 32 ∧ (s.g.loads l).destRank < 2 ^ 32)
    (hmig : abtstLoadIsMigrating s.g l = true) : newStream s c l ≠ c := by
  have hne : (s.g.loads l).currRank ≠ (s.g.loads l).destRank := by
    simpa [abtstLoadIsMigrating] using hmig
  have hmod := i32_emod (((s.g.loads l).destRank : Int) - (s.g.loads l).currRank)
  unfold newStream
  intro heq
  omega

/-- The unit that leaves goes to another stream, or to none, so this pool stays as
it is. -/
theorem lap_updated {l : LoadId} {n : Nat} {i : Int} (hat : AtLap c ls s v q)
    (hwords : ∀ l ∈ ls, (s.g.loads l).currRank < 2 ^ 32 ∧ (s.g.loads l).destRank < 2 ^ 32)
    (hpc : (v.sys.scheds c).pc = .updated l n i)
    (h : Holds cfg c ls s v q l n (s.g.loads l).destRank) (hleave : remains s.g l = false)
    (hi : i = newStream s c l) {b : Bool} {t : Sys} (ht : splitStep cfg c b v.sys = some t) :
    Advances cfg c ls s v (v.ownStep c t) := by
  have hmem := h.mem
  obtain ⟨p, hheld, hn, hpop, hsent, hcurr⟩ := h
  have hmig : abtstLoadIsMigrating s.g l = true := by simpa [remains] using hleave
  have hother := newStream_ne (c := c) (hwords l hmem) hmig
  rw [← hi] at hother
  have hstep : splitStep cfg c b v.sys = some ((v.sys.pushAt cfg i (.sched l)).setPc c .inner) := by
    simp [splitStep, hpc]
  obtain rfl := Option.some.inj (hstep.symm.trans ht)
  obtain ⟨hscheds, hloads, -⟩ := pushAt_frame cfg v.sys i (.sched l)
  have hpool' : ((v.sys.pushAt cfg i (.sched l)).g.streams c).pool = (v.sys.g.streams c).pool := by
    unfold Sys.pushAt
    split_ifs with hin
    · have hne : c ≠ i.toNat := by omega
      simp [Sys.push, Sys.setPool, Global.setStream, hne]
    · rfl
  have hown : v.ownStep c ((v.sys.pushAt cfg i (.sched l)).setPc c .inner) =
      ⟨(v.sys.pushAt cfg i (.sched l)).setPc c .inner, v.popped, sentOf cfg c s (p ++ [l]),
        v.steps + 1, false⟩ := by
    have hlast : sentOf cfg c s (p ++ [l]) = sentOf cfg c s p ++
        (if 0 ≤ i ∧ i < cfg.nrCores then [(l, i.toNat, (s.g.loads l).destRank)] else []) := by
      rw [sentOf, sentOf, List.filter_append, List.filterMap_append, hi]
      congr 1
      split_ifs with hin <;> simp [hmig, hin]
    rw [hlast, ← hsent, ← hcurr]
    unfold Sys.pushAt
    split_ifs with hin
    · simp [Round.ownStep, hpc, Sys.push, Sys.setPool, Sys.setPc, Sys.setSched, Global.setStream]
    · simp [Round.ownStep, hpc, Sys.setPc, Sys.setSched]
  have hsched : ((v.sys.pushAt cfg i (.sched l)).setPc c .inner).scheds c =
      { v.sys.scheds c with pc := .inner } := by
    simp [Sys.setPc, Sys.setSched, hscheds]
  refine .onward hown ⟨q, ⟨hpool'.trans hat.pool, fun m hm => ?_⟩, ?_⟩ ?_
  · have hsame : ((v.sys.pushAt cfg i (.sched l)).setPc c .inner).g.loads = v.sys.g.loads := hloads
    dsimp only
    rw [hsame]
    exact hat.here m hm
  · dsimp only
    rw [hsched]
    refine ⟨p ++ [l], ?_, hpop, rfl⟩
    dsimp only
    rw [hsched]
    exact hheld.leave hleave
  · simp [hsched, hpc, Pc.toGo]

end Own

/-- A state of a round over `ls` that was entered in state `s`. -/
structure InRound (cfg : Config) (c : Nat) (ls : List LoadId) (s : Sys) (v : Round) : Prop where
  enabled : Enabled cfg c v.sys
  exclusive : Exclusive v.sys
  stopping : v.sys.stopping = false
  blocking : (v.sys.g.streams c).blocking = false
  dest : ∀ l ∈ ls, (v.sys.g.loads l).destRank = (s.g.loads l).destRank
  onLap : OnLap cfg c ls s v
  steps : v.steps + v.toGo c ls ≤ 23 * ls.length + 25

section Run

variable {cfg : Config} {c : Nat} {ls : List LoadId} {s : Sys} {v : Round}

theorem RoundStart.inRound (h : RoundStart cfg c ls s) : InRound cfg c ls s (enterRound s) := by
  refine ⟨h.enabled, h.exclusive, h.stopping, h.blocking, fun _ _ => rfl, ?_, ?_⟩
  · refine ⟨ls, ⟨h.pool, fun l hl => ⟨hl, rfl⟩⟩, ?_⟩
    have hpc : ((enterRound s).sys.scheds c).pc = .inner := h.pc
    have hrun : ((enterRound s).sys.scheds c).runSubpool = 0 := h.runSubpool
    rw [hpc]
    refine ⟨[], ?_, rfl, rfl⟩
    rw [hrun]
    exact .start ls
  · simp [Round.toGo, enterRound, h.pc, Pc.toGo]
    omega

theorem ownStep_sys (t : Sys) : (v.ownStep c t).sys = t := by
  unfold Round.ownStep
  split <;> rfl

theorem InRound.advances (hs : RoundStart cfg c ls s) (h : InRound cfg c ls s v)
    (hgo : (v.sys.scheds c).pc ≠ .events) {b : Bool} {t : Sys}
    (ht : splitStep cfg c b v.sys = some t) : Advances cfg c ls s v (v.ownStep c t) := by
  obtain ⟨q, hat, hφ⟩ := h.onLap
  cases hpc : (v.sys.scheds c).pc with
  | outer => rw [hpc] at hφ; exact hφ.elim
  | exited => rw [hpc] at hφ; exact hφ.elim
  | events => exact absurd hpc hgo
  | inner =>
    rw [hpc] at hφ
    exact lap_inner hat h.blocking hpc hφ ht
  | sized n =>
    rw [hpc] at hφ
    exact lap_sized hat hpc hφ.1 hφ.2 ht
  | holding u n =>
    rw [hpc] at hφ
    exact lap_holding hat h.dest hpc hφ ht
  | migrating l n =>
    rw [hpc] at hφ
    exact lap_migrating hat h.dest hpc hφ.1 hφ.2 ht
  | confirmed l n =>
    rw [hpc] at hφ
    exact lap_confirmed hat h.dest hpc hφ.1 hφ.2 ht
  | computed l n i =>
    rw [hpc] at hφ
    exact lap_computed hat h.dest hpc hφ.1 hφ.2.1 hφ.2.2 ht
  | argument l n i r =>
    rw [hpc] at hφ
    exact lap_argument h.exclusive hat hpc hφ.1 hφ.2.1 hφ.2.2.1 hφ.2.2.2 ht
  | updated l n i =>
    rw [hpc] at hφ
    exact lap_updated hat hs.words hpc hφ.1 hφ.2.1 hφ.2.2 ht
  | running l k n =>
    rw [hpc] at hφ
    have hstep : splitStep cfg c b v.sys = some (subSchedRun c l k n v.sys) := by
      simp [splitStep, baseStep, hpc]
    obtain rfl := Option.some.inj (hstep.symm.trans ht)
    exact lap_running hat hpc hφ.1 hφ.2.1 hφ.2.2
  | served l n =>
    rw [hpc] at hφ
    have hstep : splitStep cfg c b v.sys = some (pushBack c l n v.sys) := by
      simp [splitStep, baseStep, hpc]
    obtain rfl := Option.some.inj (hstep.symm.trans ht)
    exact lap_served hat h.stopping hpc hφ.1 hφ.2
  | pushed n =>
    rw [hpc] at hφ
    exact lap_pushed hat hpc hφ ht

theorem Enabled.splitStep_iff {t u : Sys} (h : Enabled cfg c t) {b : Bool} :
    SplitStep cfg (.sched c b) t u ↔ splitStep cfg c b t = some u := by
  have hnext : next cfg (splitStep cfg) (.sched c b) t = splitStep cfg c b t := if_pos h
  unfold SplitStep
  rw [hnext]

theorem InRound.own (hs : RoundStart cfg c ls s) (h : InRound cfg c ls s v)
    (hgo : (v.sys.scheds c).pc ≠ .events) {b : Bool} {t : Sys}
    (ht : SplitStep cfg (.sched c b) v.sys t) : InRound cfg c ls s (v.ownStep c t) := by
  have hstep : splitStep cfg c b v.sys = some t := h.enabled.splitStep_iff.mp ht
  have hsame := splitSched_sameOrders (splitStep_cases hstep)
  have hadv := h.advances hs hgo hstep
  refine ⟨?_, ?_, ?_, ?_, ?_, hadv.onLap, ?_⟩
  · rw [ownStep_sys]
    exact h.enabled.step ht
  · rw [ownStep_sys]
    exact h.exclusive.step ht.move
  · rw [ownStep_sys, hsame.stopping]
    exact h.stopping
  · rw [ownStep_sys, hsame.blocking]
    exact h.blocking
  · intro l hl
    rw [ownStep_sys, hsame.dest]
    exact h.dest l hl
  · have hlt := hadv.toGo
    have hle := h.steps
    rw [hadv.steps]
    omega

/-- The rank of a load changes only in the hands of the scheduler that has its unit. -/
theorem SplitStep.currRank {a : Label} {t u : Sys} (h : SplitStep cfg a t u) (hx : Exclusive t)
    (ha : ∀ b, a ≠ .sched c b) {l : LoadId} (hl : 0 < t.located l c) :
    (u.g.loads l).currRank = (t.g.loads l).currRank := by
  cases h.move with
  | same hs => exact hs.currRank l
  | @update d n r b m i hpc =>
    by_cases hm : l = m
    · subst hm
      have hheld : 0 < t.located l d := located_held (by rw [hpc]; rfl)
      exact absurd (by rw [hx.unique l d c hheld hl]) (ha b)
    · simp [Sys.setPc, Sys.setSched, updateCurrRank, Sys.setLoad, Global.setLoad, hm]
  | @push d n b m i hpc =>
    have hloads := (pushAt_frame cfg t i (.sched m)).2.1
    exact congrArg (fun loads => (loads l).currRank) hloads
  | @setDest m r hr =>
    by_cases hm : l = m
    · subst hm
      simp [abtstLoadSetMigrating, Global.setLoad]
    · simp [abtstLoadSetMigrating, Global.setLoad, hm]
  | _ => rfl

theorem InRound.other (h : InRound cfg c ls s v) {a : Label} {t : Sys}
    (ht : SplitStep cfg a v.sys t) (ha : ∀ b, a ≠ .sched c b)
    (hpool : (t.g.streams c).pool = (v.sys.g.streams c).pool)
    (hdest : ∀ l ∈ ls, (t.g.loads l).destRank = (v.sys.g.loads l).destRank)
    (hstop : t.stopping = false) (hblock : (t.g.streams c).blocking = false)
    (hcalm : v.Undisturbed c a) : InRound cfg c ls s { v with sys := t } := by
  have hsched : t.scheds c = v.sys.scheds c := ht.scheds_of_ne ha
  obtain ⟨q, hat, hφ⟩ := h.onLap
  have hin : ∀ l ∈ q, 0 < v.sys.located l c := by
    intro l hl
    have hmem : PoolUnit.sched l ∈ (v.sys.g.streams c).pool := hat.pool ▸ List.mem_map_of_mem hl
    have := List.count_pos_iff.mpr hmem
    unfold Sys.located
    omega
  refine ⟨h.enabled.step ht, h.exclusive.step ht.move, hstop, hblock, ?_, ⟨q, ⟨?_, ?_⟩, ?_⟩, ?_⟩
  · exact fun l hl => (hdest l hl).trans (h.dest l hl)
  · exact hpool.trans hat.pool
  · intro l hl
    refine ⟨(hat.here l hl).1, ?_⟩
    dsimp only
    rw [ht.currRank h.exclusive ha (hin l hl)]
    exact (hat.here l hl).2
  · dsimp only
    rw [hsched]
    refine hφ.congr (by dsimp only; rw [hsched]) rfl rfl (fun l hu => ?_) (fun l k n hrun hd => ⟨hd, ?_⟩)
    · exact ht.currRank h.exclusive ha (located_held hu)
    · intro hnil
      have hdry : v.dry = true := hd
      exact ht.pool_nil hnil (fun x hx => by simpa [hdry] using hcalm l x k n hx hrun)
  · unfold Round.toGo
    dsimp only
    rw [hsched]
    exact h.steps

theorem InRound.step (hs : RoundStart cfg c ls s) {a : Label} {w : Round}
    (hst : CalmRoundStep cfg c ls a v w) (h : InRound cfg c ls s v) : InRound cfg c ls s w := by
  obtain ⟨hst, hcalm⟩ := hst
  cases hst with
  | own hgo ht => exact h.own hs hgo ht
  | other _ ht ha hpool hdest hstop hblock => exact h.other ht ha hpool hdest hstop hblock hcalm

theorem InRound.can_step (h : InRound cfg c ls s v) (hgo : (v.sys.scheds c).pc ≠ .events) :
    ∃ t, splitStep cfg c false v.sys = some t := by
  obtain ⟨q, hat, hφ⟩ := h.onLap
  unfold splitStep baseStep
  cases hpc : (v.sys.scheds c).pc with
  | outer => rw [hpc] at hφ; exact hφ.elim
  | exited => rw [hpc] at hφ; exact hφ.elim
  | events => exact absurd hpc hgo
  | holding u n =>
    rw [hpc] at hφ
    obtain ⟨l, rfl, -⟩ := hφ
    exact ⟨_, rfl⟩
  | sized n =>
    dsimp only
    cases (v.sys.g.streams c).pool with
    | nil => exact ⟨_, rfl⟩
    | cons u rest => exact ⟨_, rfl⟩
  | _ => exact ⟨_, rfl⟩

theorem InRound.finishes (hs : RoundStart cfg c ls s) (h : InRound cfg c ls s v) :
    ∃ log w, Path (CalmRoundStep cfg c ls) v log w ∧ InRound cfg c ls s w ∧
      (w.sys.scheds c).pc = .events := by
  induction hm : v.toGo c ls using Nat.strong_induction_on generalizing v with
  | _ m ih =>
    by_cases hgo : (v.sys.scheds c).pc = .events
    · exact ⟨[], v, .nil v, h, hgo⟩
    · obtain ⟨t, ht⟩ := h.can_step hgo
      have hround : CalmRoundStep cfg c ls (.sched c false) v (v.ownStep c t) :=
        ⟨.own hgo (h.enabled.splitStep_iff.mpr ht), fun _ _ _ _ he => by cases he⟩
      have hlt := (h.advances hs hgo ht).toGo
      obtain ⟨log, w, hp, hw, hend⟩ := ih _ (hm ▸ hlt) (h.step hs hround) rfl
      exact ⟨_, w, .cons hround hp, hw, hend⟩

theorem RoundStart.nodup (h : RoundStart cfg c ls s) : ls.Nodup := by
  refine List.nodup_iff_count_le_one.mpr (fun l => ?_)
  have hle := h.exclusive.le_one l c
  have hmap := List.count_le_count_map (f := PoolUnit.sched) (l := ls) (x := l)
  rw [Sys.located, h.pool] at hle
  omega

end Run

/-- Every unit of `ls` has been popped, one that stays possibly twice; those that
migrate went once to the pool of their target, with the rank changed; the others
are in the pool. -/
structure RoundServed (c : Nat) (ls : List LoadId) (g : Global) (v : Round) : Prop where
  nodup : ls.Nodup
  popped : v.popped = ls.map .sched ∨ ∃ l ∈ ls, abtstLoadIsMigrating g l = false ∧
    v.popped = (ls ++ [l]).map .sched
  sent : v.sent = (ls.filter (abtstLoadIsMigrating g)).map fun l =>
    (l, (g.loads l).destRank, (g.loads l).destRank)
  pool : (v.sys.g.streams c).pool.Perm ((ls.filter (remains g)).map .sched)

/-- The scheduler has taken a bounded number of steps, it can take another one until
the round is over, and then the round has served all units. -/
structure Serves (cfg : Config) (c : Nat) (ls : List LoadId) (g : Global) (v : Round) : Prop where
  steps : v.steps ≤ 23 * ls.length + 25
  next : (v.sys.scheds c).pc ≠ .events → ∃ w, RoundStep cfg c ls (.sched c false) v w
  served : (v.sys.scheds c).pc = .events → RoundServed c ls g v

/-- The units that are to leave have this stream as their rank, and their targets exist. -/
def Addressed (cfg : Config) (c : Nat) (ls : List LoadId) (g : Global) : Prop :=
  ∀ l ∈ ls, abtstLoadIsMigrating g l = true →
    (g.loads l).currRank = c ∧ (g.loads l).destRank < cfg.nrCores

theorem filterMap_eq_map_iff {α β : Type} {f : α → Option β} {h : α → β} {xs : List α} :
    xs.filterMap f = xs.map h ↔ ∀ x ∈ xs, f x = some (h x) := by
  induction xs with
  | nil => simp
  | cons x xs ih =>
    cases hx : f x with
    | none =>
      rw [List.filterMap_cons_none hx, List.map_cons]
      refine ⟨fun he => ?_, fun hall => ?_⟩
      · have hle := List.length_filterMap_le f xs
        rw [he, List.length_cons, List.length_map] at hle
        omega
      · have hself := hall x List.mem_cons_self
        rw [hx] at hself
        cases hself
    | some y =>
      rw [List.filterMap_cons_some hx, List.map_cons, List.cons.injEq, ih]
      simp [hx]

section Run

variable {cfg : Config} {c : Nat} {ls : List LoadId} {s : Sys} {v : Round}

/-- The index of a unit that leaves is that of its target exactly if its rank is
that of the stream. -/
theorem reaches_target_iff (hv : cfg.Valid) (hc : c < cfg.nrCores) {l : LoadId}
    (hword : (s.g.loads l).currRank < 2 ^ 32 ∧ (s.g.loads l).destRank < 2 ^ 32) :
    (0 ≤ newStream s c l ∧ newStream s c l < cfg.nrCores ∧
        (newStream s c l).toNat = (s.g.loads l).destRank) ↔
      (s.g.loads l).currRank = c ∧ (s.g.loads l).destRank < cfg.nrCores := by
  have hnr := hv.nrCores_lt
  have hmod := i32_emod (((s.g.loads l).destRank : Int) - (s.g.loads l).currRank)
  unfold newStream
  constructor
  · rintro ⟨h0, hlt, heq⟩
    omega
  · rintro ⟨hcurr, hlt⟩
    rw [i32_of_lt (by omega) (by omega)]
    omega

theorem sentOf_eq_iff (hv : cfg.Valid) (hs : RoundStart cfg c ls s) :
    sentOf cfg c s ls = (ls.filter (abtstLoadIsMigrating s.g)).map (fun l =>
      (l, (s.g.loads l).destRank, (s.g.loads l).destRank)) ↔ Addressed cfg c ls s.g := by
  have hone : ∀ l ∈ ls, ((if 0 ≤ newStream s c l ∧ newStream s c l < cfg.nrCores
      then some (l, (newStream s c l).toNat, (s.g.loads l).destRank) else none) =
        some (l, (s.g.loads l).destRank, (s.g.loads l).destRank)) ↔
      (s.g.loads l).currRank = c ∧ (s.g.loads l).destRank < cfg.nrCores := by
    intro l hl
    rw [← reaches_target_iff hv hs.enabled.2.1 (hs.words l hl)]
    split_ifs with hin <;> simp [hin]
    exact fun h0 hlt => absurd ⟨h0, hlt⟩ hin
  rw [sentOf, filterMap_eq_map_iff]
  unfold Addressed
  constructor
  · intro h l hl hmig
    exact (hone l hl).mp (h l (List.mem_filter.mpr ⟨hl, hmig⟩))
  · intro h l hl
    obtain ⟨hl, hmig⟩ := List.mem_filter.mp hl
    exact (hone l hl).mpr (h l hl hmig)

/-- At the end of the round all is served but for where the units that leave went. -/
theorem InRound.over (h : InRound cfg c ls s v) (hpc : (v.sys.scheds c).pc = .events) :
    (v.popped = ls.map .sched ∨ ∃ l ∈ ls, abtstLoadIsMigrating s.g l = false ∧
      v.popped = (ls ++ [l]).map .sched) ∧ v.sent = sentOf cfg c s ls ∧
    (v.sys.g.streams c).pool.Perm ((ls.filter (remains s.g)).map .sched) := by
  obtain ⟨q, hat, hφ⟩ := h.onLap
  rw [hpc] at hφ
  obtain ⟨p, hpop, hsent, hover⟩ := hφ
  have hpool : (v.sys.g.streams c).pool.Perm ((ls.filter (remains s.g)).map .sched) := by
    rw [hat.pool]
    exact hover.queue.map _
  rcases hover.popped with rfl | ⟨l, hl, hstay, rfl⟩
  · exact ⟨Or.inl hpop, hsent, hpool⟩
  · have hnot : abtstLoadIsMigrating s.g l = false := by simpa [remains] using hstay
    refine ⟨Or.inr ⟨l, hl, hnot, hpop⟩, ?_, hpool⟩
    rw [hsent, sentOf, sentOf, List.filter_append]
    simp [hnot]

theorem InRound.served_iff (hv : cfg.Valid) (hs : RoundStart cfg c ls s) (h : InRound cfg c ls s v)
    (hpc : (v.sys.scheds c).pc = .events) : RoundServed c ls s.g v ↔ Addressed cfg c ls s.g := by
  obtain ⟨hpop, hsent, hpool⟩ := h.over hpc
  rw [← sentOf_eq_iff hv hs, ← hsent]
  exact ⟨fun hr => hr.sent, fun hsent' => ⟨hs.nodup, hpop, hsent', hpool⟩⟩

theorem InRound.serves (hv : cfg.Valid) (hs : RoundStart cfg c ls s) (h : InRound cfg c ls s v)
    (hto : Addressed cfg c ls s.g) : Serves cfg c ls s.g v := by
  refine ⟨(Nat.le_add_right _ _).trans h.steps, fun hgo => ?_, fun hpc => (h.served_iff hv hs hpc).mpr hto⟩
  obtain ⟨t, ht⟩ := h.can_step hgo
  exact ⟨_, .own hgo (h.enabled.splitStep_iff.mpr ht)⟩

end Run

/-- The sub-scheduler of `l` has run `k` units of its batch, in a round that goes on. -/
structure Serving (cfg : Config) (c : Nat) (l : LoadId) (k n : Nat) (pool : List Nat) (v : Round) :
    Prop where
  enabled : Enabled cfg c v.sys
  pc : (v.sys.scheds c).pc = .running l k n
  pool : (v.sys.g.loads l).pool = pool
  stopping : v.sys.stopping = false
  blocking : (v.sys.g.streams c).blocking = false

section Endless

variable {cfg : Config} {c : Nat} {ls : List LoadId} {l : LoadId} {k n : Nat} {v : Round}

variable (ls) in
theorem Serving.step {pool : List Nat} (h : Serving cfg c l k n pool v) :
    RoundStep cfg c ls (.sched c false) v (v.ownStep c (subSchedRun c l k n v.sys)) ∧
      (v.ownStep c (subSchedRun c l k n v.sys)).steps = v.steps + 1 :=
  ⟨.own (by simp [h.pc]) ((running_step h.pc).mpr ⟨h.enabled, rfl⟩), by simp [Round.ownStep, h.pc]⟩

theorem Serving.ownStep {pool pool' : List Nat} {k' : Nat} (h : Serving cfg c l k n pool v)
    (hpc : ((subSchedRun c l k n v.sys).scheds c).pc = .running l k' n)
    (hpool : ((subSchedRun c l k n v.sys).g.loads l).pool = pool') :
    Serving cfg c l k' n pool' (v.ownStep c (subSchedRun c l k n v.sys)) := by
  have hsame := subSchedRun_sameOrders c l k n v.sys
  have hstep : SplitStep cfg (.sched c false) v.sys (subSchedRun c l k n v.sys) :=
    (running_step h.pc).mpr ⟨h.enabled, rfl⟩
  refine ⟨?_, ?_, ?_, ?_, ?_⟩ <;> rw [ownStep_sys]
  · exact h.enabled.step hstep
  · exact hpc
  · exact hpool
  · rw [hsame.stopping, h.stopping]
  · rw [hsame.blocking, h.blocking]

variable (ls) in
theorem Serving.create {pool : List Nat} (h : Serving cfg c l k n pool v) (x : Nat) :
    ∃ w, RoundStep cfg c ls (.create l x) v w ∧ Serving cfg c l k n (pool ++ [x]) w ∧
      w.steps = v.steps := by
  set t : Sys := v.sys.setLoad l { v.sys.g.loads l with pool := (v.sys.g.loads l).pool ++ [x] } with ht
  have hstep : SplitStep cfg (.create l x) v.sys t := rfl
  have hdest := (sameOrders_setLoad v.sys l
    { v.sys.g.loads l with pool := (v.sys.g.loads l).pool ++ [x] } rfl).dest
  refine ⟨{ v with sys := t }, ?_, ?_, rfl⟩
  · exact .other (by simp [h.pc]) hstep (fun b he => by cases he) rfl (fun m _ => hdest m) h.stopping
      h.blocking
  · refine ⟨h.enabled.step hstep, h.pc, ?_, h.stopping, h.blocking⟩
    simp [ht, Sys.setLoad, Global.setLoad, h.pool]

variable (ls) in
/-- If each unit that runs is followed by another one only after the next pop, the
call does not return. -/
theorem Serving.endless (m : Nat) {x : Nat} (h : Serving cfg c l 0 n [x] v) :
    ∃ log w, Path (RoundStep cfg c ls) v log w ∧ v.steps + m ≤ w.steps ∧
      (w.sys.scheds c).pc ≠ .events := by
  induction m generalizing v x with
  | zero => exact ⟨[], v, .nil v, Nat.le_refl _, by simp [h.pc]⟩
  | succ m ih =>
    obtain ⟨hrun, hsteps⟩ := h.step ls
    have hran : Serving cfg c l 1 n [] (v.ownStep c (subSchedRun c l 0 n v.sys)) := by
      apply h.ownStep
      · simp [subSchedRun, maxBatchCount, h.pool, Sys.setPc, Sys.setSched]
      · simp [subSchedRun, maxBatchCount, h.pool, Sys.setPc, Sys.setSched, Sys.setLoad, Global.setLoad]
    generalize v.ownStep c (subSchedRun c l 0 n v.sys) = u at hrun hsteps hran
    obtain ⟨hempty, hsteps'⟩ := hran.step ls
    have hreset : Serving cfg c l 0 n [] (u.ownStep c (subSchedRun c l 1 n u.sys)) := by
      apply hran.ownStep
      · simp [subSchedRun, maxBatchCount, hran.pool, Sys.setPc, Sys.setSched]
      · simp [subSchedRun, maxBatchCount, hran.pool, Sys.setPc, Sys.setSched]
    obtain ⟨w, hcreate, hw, hsteps''⟩ := hreset.create ls 0
    obtain ⟨log, z, hp, hm, hz⟩ := ih hw
    exact ⟨_, z, .cons hrun (.cons hempty (.cons hcreate hp)), by omega, hz⟩

/-- Work that arrives after an empty pop lets the call go on. -/
theorem InRound.disturbed {s : Sys} {a : Label} {w : Round} (h : InRound cfg c ls s v)
    (hst : RoundStep cfg c ls a v w) (hdist : ¬ v.Undisturbed c a) :
    ∃ l n x, Serving cfg c l 0 n [x] w := by
  obtain ⟨l, x, k, n, rfl, hpc, hdry⟩ : ∃ l x k n, a = .create l x ∧
      (v.sys.scheds c).pc = .running l k n ∧ v.dry = true := by
    simpa [Round.Undisturbed] using hdist
  obtain ⟨q, -, hφ⟩ := h.onLap
  rw [hpc] at hφ
  obtain ⟨rfl, hnil⟩ := hφ.2.2 hdry
  cases hst with
  | @other _ t _ _ ht ha _ _ hstop hblock =>
    have hsched : t.scheds c = v.sys.scheds c := ht.scheds_of_ne ha
    have hpool : (t.g.loads l).pool = [x] := by
      rw [← Option.some.inj ht]
      simp [Sys.setLoad, Global.setLoad, hnil]
    exact ⟨l, n, x, h.enabled.step ht, by dsimp only; rw [hsched, hpc], hpool, hstop, hblock⟩

end Endless

/-- One round serves every load, in every interleaving with the other parties in
which no work arrives after an empty pop of a sub-scheduler, exactly if the units
that are to leave have this stream as their rank and an existing stream as their
target. After any such arrival the round can go on for any number of steps. -/
theorem round_serves_all {cfg : Config} (hv : cfg.Valid) {c : Nat} {ls : List LoadId} {s : Sys}
    (hs : RoundStart cfg c ls s) :
    ((∀ log v, Path (CalmRoundStep cfg c ls) (enterRound s) log v → Serves cfg c ls s.g v) ↔
      Addressed cfg c ls s.g) ∧
    ∀ log v a w, Path (CalmRoundStep cfg c ls) (enterRound s) log v → RoundStep cfg c ls a v w →
      ¬ v.Undisturbed c a →
      ∀ m, ∃ log' u, Path (RoundStep cfg c ls) w log' u ∧ m ≤ u.steps ∧
        (u.sys.scheds c).pc ≠ .events := by
  have hrun : ∀ {log v}, Path (CalmRoundStep cfg c ls) (enterRound s) log v → InRound cfg c ls s v :=
    fun hp => (hp.invariant (fun _ _ _ hst h => h.step hs hst) hs.inRound).2
  refine ⟨⟨fun hall => ?_, fun hto log v hp => (hrun hp).serves hv hs hto⟩, ?_⟩
  · obtain ⟨log, w, hp, hw, hend⟩ := hs.inRound.finishes hs
    exact (hw.served_iff hv hs hend).mp ((hall log w hp).served hend)
  · intro log v a w hp hst hdist m
    obtain ⟨l, n, x, hserve⟩ := (hrun hp).disturbed hst hdist
    obtain ⟨log', u, hp', hm, hu⟩ := hserve.endless ls m
    exact ⟨log', u, hp', by omega, hu⟩

/-- The load of stream 2 is sent to stream 1, whose own load is to go to stream 3. -/
def gather : List Label :=
  [.relink ⟨0, 1⟩ 2 1, .setDest] ++ List.replicate 10 (.sched 2 false) ++
    [.relink ⟨0, 0⟩ 1 3, .setDest, .sched 1 false]

theorem gather_result : (smallStart.any fun g =>
    (play (next smallConfig (splitStep smallConfig)) gather (launch g)).any fun s =>
      decide ((s.scheds 1).pc = .inner ∧ (s.scheds 1).runSubpool = 0 ∧
        (s.g.streams 1).pool = [.sched ⟨0, 0⟩, .sched ⟨0, 1⟩] ∧ (s.g.streams 1).used = true ∧
        (s.g.loads ⟨0, 0⟩).currRank = 1 ∧ (s.g.loads ⟨0, 0⟩).destRank = 3 ∧
        (s.g.loads ⟨0, 1⟩).currRank = 1 ∧ (s.g.loads ⟨0, 1⟩).destRank = 1 ∧
        s.stopping = false ∧ (s.g.streams 1).blocking = false)) = true := by
  decide +kernel

theorem round_serves_all_small : ∃ g log s log' w, Mapped smallConfig g ∧
    Path (SplitStep smallConfig) (launch g) log s ∧
    RoundStart smallConfig 1 [⟨0, 0⟩, ⟨0, 1⟩] s ∧ abtstLoadIsMigrating s.g ⟨0, 0⟩ = true ∧
    abtstLoadIsMigrating s.g ⟨0, 1⟩ = false ∧
    Path (CalmRoundStep smallConfig 1 [⟨0, 0⟩, ⟨0, 1⟩]) (enterRound s) log' w ∧
    (w.sys.scheds 1).pc = .events ∧ Serves smallConfig 1 [⟨0, 0⟩, ⟨0, 1⟩] s.g w := by
  obtain ⟨g, hg, hres⟩ := (Option.any_eq_true _ _).mp gather_result
  rw [Option.any_eq_true] at hres
  obtain ⟨s, hs, hres⟩ := hres
  obtain ⟨hpc, hrun, hpool, hused, hcurr0, hdest0, hcurr1, hdest1, hstop, hblock⟩ :=
    of_decide_eq_true hres
  obtain ⟨log, _, hp⟩ := play_path hs
  have hp : Path (SplitStep smallConfig) (launch g) log s := hp
  have hm := startWith_mapped hg
  have hranks : ∀ l ∈ [LoadId.mk 0 0, LoadId.mk 0 1],
      (s.g.loads l).currRank = 1 ∧ (s.g.loads l).destRank < 4 := by
    simp [hcurr0, hcurr1, hdest0, hdest1]
  have hstart : RoundStart smallConfig 1 [⟨0, 0⟩, ⟨0, 1⟩] s := by
    refine ⟨⟨by decide, by decide, hused⟩, hpc, hrun, hpool, ?_, .run (hm.initial smallConfig_valid) hp,
      hstop, hblock⟩
    intro l hl
    have := hranks l hl
    omega
  have hto : Addressed smallConfig 1 [⟨0, 0⟩, ⟨0, 1⟩] s.g := fun l hl _ => hranks l hl
  obtain ⟨log', w, hp', -, hw⟩ := hstart.inRound.finishes hstart
  refine ⟨g, log, s, log', w, hm, hp, hstart, ?_, ?_, hp', hw, ?_⟩
  · rw [abtstLoadIsMigrating, hcurr0, hdest0]
    decide
  · rw [abtstLoadIsMigrating, hcurr1, hdest1]
    decide
  · exact (round_serves_all smallConfig_valid hstart).1.mpr hto log' w hp'

/-- The unit that landed on stream 3 with current rank 1 is to go to stream 2. -/
def sendAstray : List Label := callBack ++ [.relink ⟨0, 0⟩ 1 2, .setDest, .sched 3 false]

theorem sendAstray_result : (smallStart.any fun g =>
    (play (next smallConfig (splitStep smallConfig)) sendAstray (launch g)).any fun s =>
      decide ((s.scheds 3).pc = .inner ∧ (s.scheds 3).runSubpool = 0 ∧
        (s.g.streams 3).pool = [.sched ⟨0, 0⟩] ∧ (s.g.streams 3).used = true ∧
        (s.g.loads ⟨0, 0⟩).currRank = 1 ∧ (s.g.loads ⟨0, 0⟩).destRank = 2 ∧
        s.stopping = false ∧ (s.g.streams 3).blocking = false)) = true := by
  decide +kernel

/-- One round pops the unit and puts it into no pool, as its index is 4. -/
theorem round_loses_unit : ∃ g log s log' w, Mapped smallConfig g ∧
    Path (SplitStep smallConfig) (launch g) log s ∧ RoundStart smallConfig 3 [⟨0, 0⟩] s ∧
    (s.g.loads ⟨0, 0⟩).currRank = 1 ∧ (s.g.loads ⟨0, 0⟩).destRank = 2 ∧
    Path (CalmRoundStep smallConfig 3 [⟨0, 0⟩]) (enterRound s) log' w ∧
    (w.sys.scheds 3).pc = .events ∧ w.popped = [.sched ⟨0, 0⟩] ∧ w.sent = [] ∧
    (w.sys.g.streams 3).pool = [] ∧ ¬ RoundServed 3 [⟨0, 0⟩] s.g w := by
  obtain ⟨g, hg, hres⟩ := (Option.any_eq_true _ _).mp sendAstray_result
  rw [Option.any_eq_true] at hres
  obtain ⟨s, hs, hres⟩ := hres
  obtain ⟨hpc, hrun, hpool, hused, hcurr, hdest, hstop, hblock⟩ := of_decide_eq_true hres
  obtain ⟨log, _, hp⟩ := play_path hs
  have hp : Path (SplitStep smallConfig) (launch g) log s := hp
  have hm := startWith_mapped hg
  have hstart : RoundStart smallConfig 3 [⟨0, 0⟩] s := by
    refine ⟨⟨by decide, by decide, hused⟩, hpc, hrun, hpool, ?_, .run (hm.initial smallConfig_valid) hp,
      hstop, hblock⟩
    simp [hcurr, hdest]
  have hmig : abtstLoadIsMigrating s.g ⟨0, 0⟩ = true := by
    rw [abtstLoadIsMigrating, hcurr, hdest]
    decide
  have hindex : newStream s 3 ⟨0, 0⟩ = 4 := by
    rw [newStream, hcurr, hdest, i32_of_lt (by decide) (by decide)]
    rfl
  obtain ⟨log', w, hp', hin, hw⟩ := hstart.inRound.finishes hstart
  obtain ⟨hpop, hsent, hpool'⟩ := hin.over hw
  have hsent : w.sent = [] := by
    rw [hsent]
    simp [sentOf, hmig, hindex, smallConfig]
  refine ⟨g, log, s, log', w, hm, hp, hstart, hcurr, hdest, hp', hw, ?_, hsent, ?_, ?_⟩
  · simpa [hmig] using hpop
  · simpa [remains, hmig] using hpool'
  · intro hserved
    have := hserved.sent
    simp [hsent, hmig] at this

end AbtSt
