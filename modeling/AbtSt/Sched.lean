import AbtSt.Startup

/-! The base schedulers and their sub-schedulers. Each stream other than the
main one runs `sched_run`; the steps of a scheduler, of the rebalancer and of
the application interleave in any order. Pools are queues with atomic push and
pop. A unit that migrates is handed over in one step, or with every read of the
target rank as a step of its own. -/

namespace AbtSt

def eventFreq : Nat := 10
def maxBatchCount : Nat := 16

/-- Where a scheduler is in `sched_run`; `n` is the value of `pool_size`. -/
inductive Pc
  | outer
  | inner
  | sized (n : Nat)
  | holding (u : PoolUnit) (n : Nat)
  | migrating (l : LoadId) (n : Nat)
  | confirmed (l : LoadId) (n : Nat)
  | computed (l : LoadId) (n : Nat) (index : Int)
  | argument (l : LoadId) (n : Nat) (index : Int) (rank : Nat)
  | updated (l : LoadId) (n : Nat) (index : Int)
  | running (l : LoadId) (k n : Nat)
  | served (l : LoadId) (n : Nat)
  | pushed (n : Nat)
  | events
  | exited
  deriving DecidableEq

/-- The unit that a scheduler has popped and not yet passed on. -/
def Pc.unit : Pc → Option PoolUnit
  | .holding u _ => some u
  | .migrating l _ => some (.sched l)
  | .confirmed l _ => some (.sched l)
  | .computed l _ _ => some (.sched l)
  | .argument l _ _ _ => some (.sched l)
  | .updated l _ _ => some (.sched l)
  | .running l _ _ => some (.sched l)
  | .served l _ => some (.sched l)
  | _ => none

def Pc.handing : Pc → Bool
  | .migrating _ _ => true
  | .confirmed _ _ => true
  | .computed _ _ _ => true
  | .argument _ _ _ _ => true
  | .updated _ _ _ => true
  | _ => false

structure Sched where
  pc : Pc := .outer
  runCnt : Nat := 0
  runSubpool : Nat := 0
  workCount : Nat := 0
  stop : Bool := false

/-- The rebalancer keeps a load that it has relinked and whose `dest_rank` it
has yet to write. Units that were not pushed back and the number of hand-overs
of each load are recorded; no step reads them. `wild` tells that a unit was
pushed through a pointer outside of the streams. -/
structure Sys where
  g : Global
  scheds : Nat → Sched
  reb : Option (LoadId × Nat)
  stopping : Bool
  dropped : List LoadId
  forwards : LoadId → Nat
  wild : Bool

namespace Sys

def setSched (s : Sys) (c : Nat) (q : Sched) : Sys :=
  { s with scheds := Function.update s.scheds c q }

def setPc (s : Sys) (c : Nat) (pc : Pc) : Sys := s.setSched c { s.scheds c with pc := pc }

def setPool (s : Sys) (c : Nat) (pool : List PoolUnit) : Sys :=
  { s with g := s.g.setStream c { s.g.streams c with pool := pool } }

def push (s : Sys) (c : Nat) (u : PoolUnit) : Sys := s.setPool c ((s.g.streams c).pool ++ [u])

def setLoad (s : Sys) (l : LoadId) (x : Load) : Sys := { s with g := s.g.setLoad l x }

def pushAt (cfg : Config) (s : Sys) (index : Int) (u : PoolUnit) : Sys :=
  if 0 ≤ index ∧ index < cfg.nrCores then s.push index.toNat u else { s with wild := true }

end Sys

def abtstLoadIsMigrating (g : Global) (l : LoadId) : Bool :=
  (g.loads l).currRank != (g.loads l).destRank

/-- `stream + (int)(load->dest_rank - load->curr_rank)`, as an index. -/
def newStream (s : Sys) (c : Nat) (l : LoadId) : Int :=
  c + i32 ((s.g.loads l).destRank - (s.g.loads l).currRank)

def updateCurrRank (s : Sys) (l : LoadId) (rank : Nat) : Sys :=
  { s.setLoad l { s.g.loads l with currRank := rank } with
    forwards := Function.update s.forwards l (s.forwards l + 1) }

def forward (cfg : Config) (c : Nat) (l : LoadId) (s : Sys) : Sys :=
  ((updateCurrRank s l (s.g.loads l).destRank).pushAt cfg (newStream s c l) (.sched l)).setPc c .inner

/-- A unit that stays: its sub-scheduler runs if there is work, or the first time. -/
def serve (c : Nat) (l : LoadId) (n : Nat) (s : Sys) : Sys :=
  if (s.g.loads l).pool ≠ [] ∨ (s.g.loads l).used = false then
    (s.setLoad l { s.g.loads l with used := true }).setSched c
      { s.scheds c with pc := .running l 0 n, runCnt := (s.scheds c).runCnt + 1 }
  else s.setPc c (.served l n)

/-- One step of `sub_sched_run`, which has run `k` units since it last reset its
counter. -/
def subSchedRun (c : Nat) (l : LoadId) (k n : Nat) (s : Sys) : Sys :=
  if maxBatchCount ≤ k then s.setPc c (.served l n)
  else
    match (s.g.loads l).pool with
    | [] => s.setPc c (if k = 0 then .served l n else .running l 0 n)
    | _ :: rest => (s.setLoad l { s.g.loads l with pool := rest }).setPc c (.running l (k + 1) n)

def pushBack (c : Nat) (l : LoadId) (n : Nat) (s : Sys) : Sys :=
  let q := { s.scheds c with pc := .pushed n, runSubpool := (s.scheds c).runSubpool + 1 }
  if s.stopping then { s with dropped := l :: s.dropped }.setSched c q
  else (s.push c (.sched l)).setSched c q

/-- The check for events every few turns; `hasToStop` is what
`ABT_sched_has_to_stop` reports. -/
def checkEvents (c : Nat) (hasToStop : Bool) (s : Sys) : Sys :=
  let q := s.scheds c
  if q.workCount + 1 < eventFreq then
    s.setSched c { q with pc := .outer, workCount := q.workCount + 1 }
  else
    let stop := q.stop || hasToStop
    if q.runCnt = 0 ∧ q.runSubpool = 0 ∧ stop = true then s.setSched c { q with pc := .exited, stop := stop }
    else s.setSched c { q with pc := .outer, stop := stop, workCount := 0 }

/-- The steps of `sched_run` other than the decision on a popped sub-scheduler.
`ABT_sched_has_to_stop` is true only for an empty pool. -/
def baseStep (c : Nat) (hasToStop : Bool) (s : Sys) : Option Sys :=
  match (s.scheds c).pc with
  | .outer => some (s.setSched c { s.scheds c with pc := .inner, runCnt := 0, runSubpool := 0 })
  | .inner =>
    some (s.setPc c (if (s.g.streams c).blocking then .events else .sized (s.g.streams c).pool.length))
  | .sized n =>
    match (s.g.streams c).pool with
    | [] => some (s.setPc c .events)
    | u :: rest => some ((s.setPool c rest).setPc c (.holding u n))
  | .holding (.thread _) _ =>
    some (s.setSched c { s.scheds c with pc := .events, runCnt := (s.scheds c).runCnt + 1 })
  | .running l k n => some (subSchedRun c l k n s)
  | .served l n => some (pushBack c l n s)
  | .pushed n => some (s.setPc c (if n ≤ (s.scheds c).runSubpool then .events else .inner))
  | .events =>
    if hasToStop = true ∧ (s.g.streams c).pool ≠ [] then none else some (checkEvents c hasToStop s)
  | _ => none

def atomicStep (cfg : Config) (c : Nat) (hasToStop : Bool) (s : Sys) : Option Sys :=
  match (s.scheds c).pc with
  | .holding (.sched l) n =>
    some (if abtstLoadIsMigrating s.g l then forward cfg c l s else serve c l n s)
  | _ => baseStep c hasToStop s

/-- A scheduler that takes one step for each read of `dest_rank`: two tests, the
computation of `new_stream` and the argument of `abtst_load_update_curr_rank`. -/
def splitStep (cfg : Config) (c : Nat) (hasToStop : Bool) (s : Sys) : Option Sys :=
  match (s.scheds c).pc with
  | .holding (.sched l) n =>
    some (if abtstLoadIsMigrating s.g l then s.setPc c (.migrating l n) else serve c l n s)
  | .migrating l n =>
    some (if (s.g.loads l).currRank ≠ (s.g.loads l).destRank then s.setPc c (.confirmed l n)
      else serve c l n s)
  | .confirmed l n => some (s.setPc c (.computed l n (newStream s c l)))
  | .computed l n index => some (s.setPc c (.argument l n index (s.g.loads l).destRank))
  | .argument l n index rank => some ((updateCurrRank s l rank).setPc c (.updated l n index))
  | .updated l _ index => some ((s.pushAt cfg index (.sched l)).setPc c .inner)
  | _ => baseStep c hasToStop s

inductive Label
  | sched (c : Nat) (hasToStop : Bool)
  | relink (l : LoadId) (src dst : Nat)
  | setDest
  | create (l : LoadId) (t : Nat)
  | addThread (c t : Nat)
  | setBlocking (c : Nat) (blocking : Bool)
  | stop
  deriving DecidableEq

def Label.isReb : Label → Bool
  | .relink _ _ _ => true
  | .setDest => true
  | _ => false

/-- One step of any party. -/
def next (cfg : Config) (schedStep : Nat → Bool → Sys → Option Sys) : Label → Sys → Option Sys
  | .sched c b, s =>
    if c ≠ 0 ∧ c < cfg.nrCores ∧ (s.g.streams c).used = true then schedStep c b s else none
  | .relink l src dst, s =>
    if s.reb = none ∧ l ∈ (s.g.streams src).loadQ ∧ dst < cfg.nrCores ∧
        (s.g.streams dst).used = true ∧ src ≠ dst then
      some { s with
        g := abtstAddLoadToStream (abtstRemoveLoadFromStream s.g src l) dst l
        reb := some (l, (s.g.streams dst).rank) }
    else none
  | .setDest, s =>
    match s.reb with
    | none => none
    | some (l, rank) => some { s with g := abtstLoadSetMigrating s.g l rank, reb := none }
  | .create l t, s => some (s.setLoad l { s.g.loads l with pool := (s.g.loads l).pool ++ [t] })
  | .addThread c t, s => some (s.push c (.thread t))
  | .setBlocking c b, s =>
    some { s with g := s.g.setStream c { s.g.streams c with blocking := b } }
  | .stop, s => some { s with stopping := true }

def AtomicStep (cfg : Config) (a : Label) (s t : Sys) : Prop := next cfg (atomicStep cfg) a s = some t

def SplitStep (cfg : Config) (a : Label) (s t : Sys) : Prop := next cfg (splitStep cfg) a s = some t

def launch (g : Global) : Sys where
  g := g
  scheds _ := {}
  reb := none
  stopping := false
  dropped := []
  forwards _ := 0
  wild := false

/-- What one step of `sub_sched_run` can do. -/
inductive SubStep (c : Nat) (l : LoadId) (k n : Nat) (s : Sys) : Sys → Prop
  | full : maxBatchCount ≤ k → SubStep c l k n s (s.setPc c (.served l n))
  | idle : k = 0 → (s.g.loads l).pool = [] → SubStep c l k n s (s.setPc c (.served l n))
  | again : k ≠ 0 → k < maxBatchCount → (s.g.loads l).pool = [] →
      SubStep c l k n s (s.setPc c (.running l 0 n))
  | run {x : Nat} {rest : List Nat} : k < maxBatchCount → (s.g.loads l).pool = x :: rest →
      SubStep c l k n s
        ((s.setLoad l { s.g.loads l with pool := rest }).setPc c (.running l (k + 1) n))

theorem subSchedRun_cases (c : Nat) (l : LoadId) (k n : Nat) (s : Sys) :
    SubStep c l k n s (subSchedRun c l k n s) := by
  unfold subSchedRun
  by_cases hk : maxBatchCount ≤ k
  · rw [if_pos hk]
    exact .full hk
  · rw [if_neg hk]
    cases hp : (s.g.loads l).pool with
    | nil =>
      by_cases hz : k = 0
      · simp only [if_pos hz]
        exact .idle hz hp
      · simp only [if_neg hz]
        exact .again hz (Nat.lt_of_not_le hk) hp
    | cons x rest => exact .run (Nat.lt_of_not_le hk) hp

/-- What `baseStep` can do. -/
inductive BaseStep (c : Nat) (s : Sys) : Sys → Prop
  | idle {q : Sched} : (∀ l, (s.scheds c).pc.unit ≠ some (.sched l)) → q.pc.unit = none →
      BaseStep c s (s.setSched c q)
  | pop {u : PoolUnit} {rest : List PoolUnit} {n : Nat} : (s.scheds c).pc = .sized n →
      (s.g.streams c).pool = u :: rest → BaseStep c s ((s.setPool c rest).setPc c (.holding u n))
  | run {l : LoadId} {k n : Nat} : (s.scheds c).pc = .running l k n →
      BaseStep c s (subSchedRun c l k n s)
  | back {l : LoadId} {n : Nat} : (s.scheds c).pc = .served l n → BaseStep c s (pushBack c l n s)

theorem baseStep_cases {s t : Sys} {c : Nat} {b : Bool} (h : baseStep c b s = some t) :
    BaseStep c s t := by
  unfold baseStep at h
  cases hpc : (s.scheds c).pc with
  | outer =>
    rw [hpc] at h
    rw [← Option.some.inj h]
    exact .idle (by simp [hpc, Pc.unit]) rfl
  | inner =>
    rw [hpc] at h
    rw [← Option.some.inj h]
    refine .idle (by simp [hpc, Pc.unit]) ?_
    dsimp only
    split_ifs <;> rfl
  | sized n =>
    rw [hpc] at h
    dsimp only at h
    cases hp : (s.g.streams c).pool with
    | nil =>
      rw [hp] at h
      rw [← Option.some.inj h]
      exact .idle (by simp [hpc, Pc.unit]) rfl
    | cons u rest =>
      rw [hp] at h
      rw [← Option.some.inj h]
      exact .pop hpc hp
  | holding u n =>
    rw [hpc] at h
    cases u with
    | sched l => cases h
    | thread x =>
      rw [← Option.some.inj h]
      exact .idle (by simp [hpc, Pc.unit]) rfl
  | running l k n =>
    rw [hpc] at h
    rw [← Option.some.inj h]
    exact .run hpc
  | served l n =>
    rw [hpc] at h
    rw [← Option.some.inj h]
    exact .back hpc
  | pushed n =>
    rw [hpc] at h
    rw [← Option.some.inj h]
    refine .idle (by simp [hpc, Pc.unit]) ?_
    dsimp only
    split_ifs <;> rfl
  | events =>
    rw [hpc] at h
    dsimp only at h
    split_ifs at h
    rw [← Option.some.inj h]
    unfold checkEvents
    dsimp only
    split_ifs <;> exact .idle (by simp [hpc, Pc.unit]) rfl
  | _ =>
    rw [hpc] at h
    cases h

/-- What `splitStep` can do. -/
inductive SplitSched (cfg : Config) (c : Nat) (s : Sys) : Sys → Prop
  | base {t : Sys} : BaseStep c s t → SplitSched cfg c s t
  | serve {l : LoadId} {n : Nat} :
      (s.scheds c).pc = .holding (.sched l) n ∨ (s.scheds c).pc = .migrating l n →
      SplitSched cfg c s (serve c l n s)
  | test {l : LoadId} {n : Nat} : (s.scheds c).pc = .holding (.sched l) n →
      SplitSched cfg c s (s.setPc c (.migrating l n))
  | confirm {l : LoadId} {n : Nat} : (s.scheds c).pc = .migrating l n →
      SplitSched cfg c s (s.setPc c (.confirmed l n))
  | compute {l : LoadId} {n : Nat} : (s.scheds c).pc = .confirmed l n →
      SplitSched cfg c s (s.setPc c (.computed l n (newStream s c l)))
  | readDest {l : LoadId} {n : Nat} {i : Int} : (s.scheds c).pc = .computed l n i →
      SplitSched cfg c s (s.setPc c (.argument l n i (s.g.loads l).destRank))
  | update {l : LoadId} {n r : Nat} {i : Int} : (s.scheds c).pc = .argument l n i r →
      SplitSched cfg c s ((updateCurrRank s l r).setPc c (.updated l n i))
  | push {l : LoadId} {n : Nat} {i : Int} : (s.scheds c).pc = .updated l n i →
      SplitSched cfg c s ((s.pushAt cfg i (.sched l)).setPc c .inner)

theorem splitStep_cases {cfg : Config} {s t : Sys} {c : Nat} {b : Bool}
    (h : splitStep cfg c b s = some t) : SplitSched cfg c s t := by
  unfold splitStep at h
  cases hpc : (s.scheds c).pc with
  | holding u n =>
    cases u with
    | thread x =>
      rw [hpc] at h
      exact .base (baseStep_cases h)
    | sched l =>
      rw [hpc] at h
      rw [← Option.some.inj h]
      split_ifs
      · exact .test hpc
      · exact .serve (Or.inl hpc)
  | migrating l n =>
    rw [hpc] at h
    rw [← Option.some.inj h]
    split_ifs
    · exact .confirm hpc
    · exact .serve (Or.inr hpc)
  | confirmed l n =>
    rw [hpc] at h
    rw [← Option.some.inj h]
    exact .compute hpc
  | computed l n i =>
    rw [hpc] at h
    rw [← Option.some.inj h]
    exact .readDest hpc
  | argument l n i r =>
    rw [hpc] at h
    rw [← Option.some.inj h]
    exact .update hpc
  | updated l n i =>
    rw [hpc] at h
    rw [← Option.some.inj h]
    exact .push hpc
  | _ =>
    rw [hpc] at h
    exact .base (baseStep_cases h)

/-- The state that a sequence of steps leads to, if each of them can be taken. -/
def play (step : Label → Sys → Option Sys) : List Label → Sys → Option Sys
  | [], s => some s
  | a :: as, s =>
    match step a s with
    | none => none
    | some t => play step as t

theorem play_path {step : Label → Sys → Option Sys} {as : List Label} {s t : Sys}
    (h : play step as s = some t) :
    ∃ log, log.map Prod.fst = as ∧ Path (fun a s t => step a s = some t) s log t := by
  induction as generalizing s with
  | nil =>
    obtain rfl : s = t := Option.some.inj h
    exact ⟨[], rfl, .nil s⟩
  | cons a as ih =>
    rw [play] at h
    cases hn : step a s with
    | none =>
      rw [hn] at h
      cases h
    | some u =>
      rw [hn] at h
      obtain ⟨log, hlog, hp⟩ := ih h
      exact ⟨(a, u) :: log, by rw [List.map_cons, hlog], .cons hn hp⟩

end AbtSt
