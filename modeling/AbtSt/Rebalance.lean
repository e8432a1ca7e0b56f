import AbtSt.Stats

/-! The four levels of the rebalancer and one turn of the loop of `reb_func`,
as programs over the global record whose log shows every write. -/

namespace AbtSt

/-- The actions of a pass. `readStats` marks the points where a level reads
statistics; it changes nothing. -/
inductive Act
  | readStats
  | updateStreamsStat
  | updatePartitionStats
  | updateNumaStat (n : Nat)
  | updatePowerStat (n : Nat)
  | combine (src dst : Nat)
  | rebalance (src dst : Nat)
  | setPartition (c p : Nat)
  | setPsState (n : Nat) (state : Bool)
  | resetStreamsStat
  deriving DecidableEq

abbrev Reb := Prog Act Fault Global

def readStats : Reb Global := do
  Prog.act .readStats id
  Prog.read

def combineStreams (src dst : Nat) : Reb Unit :=
  Prog.perform (.combine src dst) (fun g => abtstCombineStreams g src dst)

def updatePartitionStats (cfg : Config) : Reb Unit :=
  Prog.act .updatePartitionStats (abtstUpdatePartitionStats cfg)

def abtstUpdateNumaStats (pf : Platform) (cfg : Config) : Reb Unit :=
  (List.range cfg.nrNumas).forM fun i => Prog.perform (.updateNumaStat i) (updateNumaStat pf cfg i)

def abtstUpdatePowerStats (pf : Platform) (cfg : Config) : Reb Unit :=
  (List.range cfg.nrNumas).forM fun i => Prog.perform (.updatePowerStat i) (updatePowerStat pf cfg i)

/-- The streams that `sort_streams` collects; `none` is the argument -1. -/
def collectStreams (cfg : Config) (g : Global) (numaId partitionId : Option Nat) : List Nat :=
  let cores := match numaId with
    | none => List.range cfg.nrCores
    | some n => if n < cfg.nrNumas then cfg.coresOf n else []
  match partitionId with
  | none => g.usedIn cores
  | some p => g.group cores p

/-- The result is `none` when the source returns `NULL`. -/
def sortStreams (pf : Platform) (cfg : Config) (g : Global) (numaId partitionId : Option Nat) :
    Option (List SortParam) :=
  match collectStreams cfg g numaId partitionId with
  | [] => none
  | c :: cs => some (pf.qsort ((c :: cs).map fun c => ⟨i32 (g.qdepth c), c⟩))

def partitionStat (g : Global) (numaId : Option Nat) (p : Nat) : PartitionStat :=
  match numaId with
  | none => g.stats p
  | some n => g.numaStats p n

def sortPartitions (pf : Platform) (cfg : Config) (g : Global) (numaId : Option Nat) :
    Except Fault (List SortParam) := do
  let params ← (List.range cfg.nrPartitions).mapM fun i => do
    let q ← pf.div (partitionStat g numaId i).qdepth (partitionStat g numaId i).usedCores
    pure ({ ios := i32 q, stream := i } : SortParam)
  pure (pf.qsort params)

def sortNumas (pf : Platform) (cfg : Config) (g : Global) (sortQdepth checkPs : Bool) :
    List SortParam :=
  let numas := (List.range cfg.nrNumas).filter fun i => !(checkPs && g.power.psState i)
  let params := numas.map fun i =>
    ⟨i32 (if sortQdepth then (g.numaStat i).avgQdepth else (g.numaStat i).usedCores), i⟩
  if 1 < params.length then pf.qsort params else params

/-- Level 1 on one partition of a node; the loop of the source runs once. -/
def rebInPartition (pf : Platform) (cfg : Config) (n p : Nat) : Reb Unit := do
  let g ← readStats
  let stat := g.numaStats p n
  match sortStreams pf cfg g (some n) (some p) with
  | none => pure ()
  | some params =>
    let last ← Prog.lift (entry params (u32 (stat.usedCores - 1)))
    let first ← Prog.lift (entry params 0)
    if i32 (last.ios - first.ios) < minIosToStartReb then pure ()
    else if (g.streams first.stream).sleepNsec = 0 then pure ()
    else
      let avg ← Prog.lift (pf.div stat.qdepth stat.usedCores)
      let r ← Prog.lift (abtstRebalanceStreams g first last avg)
      match r with
      | none => pure ()
      | some g' => Prog.act (.rebalance last.stream first.stream) (fun _ => g')

def abtstRebInPartitions (pf : Platform) (cfg : Config) : Reb Unit :=
  (List.range cfg.nrNumas).forM fun i => (List.range cfg.nrPartitions).forM fun j => do
    let g ← readStats
    if (g.numaStats j i).usedCores ≤ 1 ∨ (g.numaStats j i).qdepth = 0 then pure ()
    else rebInPartition pf cfg i j

/-- The donor test: the partition stays at or below the average without one core. -/
def canGive (g : Global) (n p : Nat) : Bool :=
  let stat := g.numaStats p n
  1 < stat.usedCores && stat.qdepth / (stat.usedCores - 1) ≤ (g.numaStat n).avgQdepth

/-- The receiver test: at or above the average with one more core, and busy. -/
def canTake (pf : Platform) (g : Global) (n p : Nat) : Except Fault Bool :=
  let stat := g.numaStats p n
  if (g.numaStat n).avgQdepth ≤ stat.qdepth / (stat.usedCores + 1) then do
    let q ← pf.div stat.qdepth stat.usedCores
    pure (decide (minIosToStartReb < q))
  else pure false

/-- The two scans of `reb_in_numa` over the sorted partitions: the donor from
the front, then the receiver from the back. -/
def choosePartitions (pf : Platform) (g : Global) (n : Nat) (params : List SortParam) :
    Except Fault (Option (Nat × Nat)) := do
  let last := params.length - 1
  match (List.range last).find? fun i => (params[i]?).any fun e => canGive g n e.stream with
  | none => pure none
  | some i =>
    let from_ ← entry params i
    let r ← (params.drop (i + 1)).reverse.findM? fun e => canTake pf g n e.stream
    pure (r.map fun e => (from_.stream, e.stream))

/-- The pair that level 2 combines: the two least loaded streams, unless one of
them is borrowed from another partition, which then is the one to go. -/
def chooseStreams (cfg : Config) (g : Global) (usedCores : Nat) (params : List SortParam) :
    Except Fault (Nat × Nat) := do
  let e0 ← entry params 0
  let e1 ← entry params 1
  let r ← (List.range usedCores).findM? fun i => do
    let e ← entry params i
    let s := g.streams e.stream
    pure (decide ((s.partId : Int) ≠ cfg.partitionMap s.rank))
  match r with
  | none => pure (e0.stream, e1.stream)
  | some i => do
    let e ← entry params i
    pure (e.stream, if 1 ≤ i then e0.stream else e1.stream)

def setPartitionId (c p : Nat) (g : Global) : Global :=
  g.setStream c { g.streams c with partId := p }

def rebInNuma (pf : Platform) (cfg : Config) (n : Nat) : Reb Unit := do
  let g ← readStats
  let params ← Prog.lift (sortPartitions pf cfg g (some n))
  let r ← Prog.lift (choosePartitions pf g n params)
  match r with
  | none => pure ()
  | some (fromPid, toPid) =>
    match sortStreams pf cfg g (some n) (some fromPid) with
    | none => pure ()
    | some params =>
      let r ← Prog.lift (chooseStreams cfg g (g.numaStats fromPid n).usedCores params)
      combineStreams r.1 r.2
      Prog.act (.setPartition r.1 toPid) (setPartitionId r.1 toPid)
      updatePartitionStats cfg

def abtstRebInNumas (pf : Platform) (cfg : Config) : Reb Unit :=
  if cfg.nrPartitions ≤ 1 then pure ()
  else (List.range cfg.nrNumas).forM fun i => do
    let g ← readStats
    if (g.numaStat i).usedCores = 0 ∨ (g.numaStat i).avgQdepth = 0 then pure ()
    else rebInNuma pf cfg i

def chooseMaxDiff (g : Global) (src dst : Nat) (ps : List Nat) : Option Nat × Int :=
  ps.foldl (fun t i =>
    let f := g.numaStats i src
    let s := g.numaStats i dst
    if f.usedCores = 0 then t
    else if s.usedCores = 0 then t
    else if f.qdepth ≤ s.qdepth then t
    else
      let count := i32 (f.qdepth - s.qdepth)
      if t.2 < count then (some i, count) else t) (none, 0)

def migrateStreams (dst budget : Nat) (params : List SortParam) : List Nat → Int → Reb Unit
  | [], _ => pure ()
  | i :: is, count => do
    let e ← Prog.lift (entry params i)
    let g ← Prog.read
    if g.qdepth e.stream = 0 then migrateStreams dst budget params is count
    else if budget < u32 (count + g.qdepth e.stream) then migrateStreams dst budget params is count
    else do
      combineStreams e.stream dst
      migrateStreams dst budget params is (i32 (count + g.qdepth e.stream))

def rebBetweenNumas (pf : Platform) (cfg : Config) (src dst avgQdepth : Nat) : Reb Unit := do
  let g ← readStats
  let iosToMigrate := u32 (((avgQdepth : Int) - (g.numaStat dst).avgQdepth) * (g.numaStat dst).usedCores)
  let t := chooseMaxDiff g src dst (List.range cfg.nrPartitions)
  match t.1 with
  | none => pure ()
  | some partId =>
    match sortStreams pf cfg g (some src) (some partId) with
    | none => pure ()
    | some paramsFrom =>
      match sortStreams pf cfg g (some dst) (some partId) with
      | none => pure ()
      | some paramsTo =>
        let e ← Prog.lift (entry paramsTo 0)
        migrateStreams e.stream (min iosToMigrate (u32 (t.2 / 2))) paramsFrom
          (List.range (g.numaStats partId src).usedCores).reverse 0
        updatePartitionStats cfg
        abtstUpdateNumaStats pf cfg

/-- The two scans of level 3 over the sorted nodes: the target from the front,
then the source from the back. -/
def chooseNumas (g : Global) (avgQdepth : Nat) (params : List SortParam) : Option (Nat × Nat) :=
  let from_ := params.length - 1
  match (List.range from_).find? fun i => (params[i]?).any fun e =>
    0 < (g.numaStat e.stream).usedCores && (g.numaStat e.stream).avgQdepth < avgQdepth with
  | none => none
  | some i =>
    match params[i]? with
    | none => none
    | some t => ((params.drop (i + 1)).reverse.find? fun e =>
        0 < (g.numaStat e.stream).usedCores &&
        u32 (2 * avgQdepth) ≤ (g.numaStat e.stream).avgQdepth &&
        2 * minIosToStartReb < (g.numaStat e.stream).avgQdepth).map fun e => (e.stream, t.stream)

def abtstRebBetweenNumas (pf : Platform) (cfg : Config) : Reb Unit := do
  let g ← readStats
  let avgQdepth := abtstGetAverageQdepth cfg g
  let params := sortNumas pf cfg g true true
  if params.length ≤ 1 then pure ()
  else
    match chooseNumas g avgQdepth params with
    | none => pure ()
    | some (src, dst) => rebBetweenNumas pf cfg src dst avgQdepth

/-- The planning loop of `reb_combine_numas`: `none` is the return value -1, and
`to_cores` keeps `none` where the source leaves it uninitialised. -/
def planCores (cfg : Config) (g : Global) (n : Nat) :
    List Nat → (Nat → Option Nat) → Option (Nat → Option Nat)
  | [], toCores => some toCores
  | i :: is, toCores =>
    if (g.numaStats i n).usedCores = 0 then planCores cfg g n is toCores
    else
      match (List.range cfg.nrNumas).find? fun j =>
        j != n && !g.power.psState j && (g.numaStats i j).usedCores != 0 with
      | none => none
      | some toNuma =>
        match (cfg.coresOf toNuma).find? (g.inPart i) with
        | none => planCores cfg g n is toCores
        | some j => planCores cfg g n is (Function.update toCores i (some j))

/-- The result tells whether the source returns 0. -/
def rebCombineNumas (cfg : Config) (n : Nat) : Reb Bool := do
  let g ← readStats
  if (g.numaStat n).usedCores = 0 then pure true
  else
    match planCores cfg g n (List.range cfg.nrPartitions) (fun _ => none) with
    | none => pure false
    | some toCores => do
      (cfg.coresOf n).forM fun i => do
        let g ← Prog.read
        if (g.streams i).used = true then
          match toCores (g.streams i).partId with
          | none => Prog.lift (.error .badIndex)
          | some toCore => combineStreams i toCore
        else pure ()
      pure true

/-- With `WORK_BALANCE_LEVEL` 0.5 the comparison is against `50 * i`. -/
def abtstEstimatePsNumas (cfg : Config) (g : Global) : Int :=
  let pct := (List.range cfg.nrNumas).foldl (fun pct i => i32 (pct + g.power.psPct i)) 0
  match (List.range' 1 (cfg.nrNumas - 1)).find? fun i =>
    u32 (cfg.nrNumas * 100 - pct) < 50 * i with
  | none => 0
  | some i => (cfg.nrNumas : Int) - i

def abtstSetNumaPsState (n : Nat) (state : Bool) (g : Global) : Global :=
  { g with power := { g.power with
      psState := Function.update g.power.psState n state
      nrPsNumas := if state then g.power.nrPsNumas + 1 else g.power.nrPsNumas - 1 } }

def abtstRebPowerSaving (pf : Platform) (cfg : Config) : Reb Unit := do
  let g ← readStats
  if g.power.psEnabled = false then pure ()
  else
    let num := abtstEstimatePsNumas cfg g
    if g.power.nrPsNumas < num then
      let params := sortNumas pf cfg g false true
      if params.length ≤ 1 then pure ()
      else
        let e0 ← Prog.lift (entry params 0)
        let e1 ← Prog.lift (entry params 1)
        let fromNuma := if e0.stream = 0 then e1.stream else e0.stream
        let ok ← rebCombineNumas cfg fromNuma
        Prog.onlyIf (ok = true)
          (Prog.act (.setPsState fromNuma true) (abtstSetNumaPsState fromNuma true))
        updatePartitionStats cfg
        abtstUpdateNumaStats pf cfg
        abtstUpdatePowerStats pf cfg
    else if num < g.power.nrPsNumas then
      let params := sortNumas pf cfg g false false
      if params.length ≤ 1 then pure ()
      else
        match params.reverse.find? fun e => g.power.psState e.stream with
        | none => pure ()
        | some e => Prog.act (.setPsState e.stream false) (abtstSetNumaPsState e.stream false)
    else pure ()

def abtstRebUpdateStat (pf : Platform) (cfg : Config) : Reb Unit := do
  Prog.act .updateStreamsStat (abtstUpdateStreamsStat cfg)
  updatePartitionStats cfg
  abtstUpdateNumaStats pf cfg
  abtstUpdatePowerStats pf cfg

/-- One turn of the loop of `reb_func`. -/
def rebPass (pf : Platform) (cfg : Config) : Reb Unit := do
  abtstRebUpdateStat pf cfg
  let g ← Prog.read
  let level := g.rebalance.rebalanceLevel
  Prog.onlyIf (3 ≤ level) do
    abtstRebPowerSaving pf cfg
    abtstRebBetweenNumas pf cfg
  Prog.onlyIf (2 ≤ level) (abtstRebInNumas pf cfg)
  Prog.onlyIf (1 ≤ level) (abtstRebInPartitions pf cfg)
  Prog.act .resetStreamsStat (abtstResetStreamsStat cfg)

end AbtSt
