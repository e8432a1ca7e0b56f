import AbtSt.Stats

/-! Start-up: the streams are configured from the partition map, and each
mapping spreads its loads over the streams of its partition. The outcome of
every Argobots call is a parameter. -/

namespace AbtSt

def applyStreamConfig (cfg : Config) (c : Nat) (s : Stream) : Stream :=
  if 0 ≤ cfg.partitionMap c then { s with used := true, partId := (cfg.partitionMap c).toNat }
  else s

def initXstream (s : Stream) (initRank : Nat) : Stream :=
  { s with rank := initRank, loadQ := [], nrLoads := 0, totalQdepth := 0, sleepNsec := 0 }

/-- The streams come from `calloc`; `abt c` tells whether the Argobots calls for
stream `c` succeed. They are made for the main stream and for used ones. -/
def abtstInitStreams (cfg : Config) (abt : Nat → Bool) (g : Global) : Option Global :=
  let streams := fun c => if c < cfg.nrCores then initXstream (applyStreamConfig cfg c {}) c else {}
  if (List.range cfg.nrCores).all fun c => abt c || (c != 0 && !(streams c).used) then
    some { g with streams := streams }
  else none

def abtstInitPower (cfg : Config) (g : Global) : Global :=
  { g with power := {
      psState := fun i => if i < cfg.nrNumas then false else g.power.psState i
      psPct := fun i => if i < cfg.nrNumas then 0 else g.power.psPct i
      psEnabled := false
      nrPsNumas := 0 } }

inductive AbtCall
  | poolCreate
  | schedCreate
  | addSched

/-- The search starts at a core and wraps around once. -/
def findNextStream (cfg : Config) (g : Global) (partitionId start : Nat) : Option Nat :=
  let s := start % cfg.nrCores
  (List.range' s (cfg.nrCores - s) ++ List.range s).find? (g.inPart partitionId)

def initLoad (g : Global) (l : LoadId) (rank : Nat) : Global :=
  g.setLoad l { loadId := l.index, initRank := rank, currRank := rank, destRank := rank }

def abtPoolAddSched (g : Global) (c : Nat) (l : LoadId) : Global :=
  g.setStream c { g.streams c with pool := (g.streams c).pool ++ [.sched l] }

/-- The loop of `abtst_init_loads` with `n` loads to go. -/
def initLoadsLoop (cfg : Config) (abt : Nat → AbtCall → Bool) (m partitionId : Nat) :
    Nat → Nat → Nat → Global → Bool × Global
  | 0, _, _, g => (true, g)
  | n + 1, i, start, g =>
    match findNextStream cfg g partitionId start with
    | none => (false, g)
    | some c =>
      let rank := (g.streams c).rank
      let g := initLoad g ⟨m, i⟩ rank
      if abt i .poolCreate = false then (false, g)
      else if abt i .schedCreate = false then (false, g)
      else if abt i .addSched = false then (false, g)
      else
        let g := abtstAddLoadToStream (abtPoolAddSched g c ⟨m, i⟩) c ⟨m, i⟩
        initLoadsLoop cfg abt m partitionId n (i + 1) (rank + 1) g

def abtstInitLoads (cfg : Config) (abt : Nat → AbtCall → Bool) (m : Nat) (g : Global) :
    Bool × Global :=
  let g := { g with loads := fun l => if l.mapping = m then {} else g.loads l }
  initLoadsLoop cfg abt m (g.mappings m).partitionId (g.mappings m).nrLoads 0 0 g

def mappingTypeHashing : Nat := 0
def mappingTypeRandom : Nat := 1

def mappingLoads (cfg : Config) (type cores : Nat) : Option Nat :=
  if type = mappingTypeHashing then some (u32 (cores * loadsPerXstream))
  else if type = mappingTypeRandom then some (cfg.nrCores / 2)
  else none

/-- With the table full, `get_mapping_id` returns -1 and the entry at that index
is written; this is the fault. Otherwise the result is the return value. -/
def abtstCreateMapping (cfg : Config) (abt : Nat → AbtCall → Bool) (type partid : Nat)
    (g : Global) : Except Fault (Int × Global) :=
  if maxMappings ≤ g.nrMappings then .error .badIndex
  else
    match cfg.partitions[partid]? with
    | none => .error .badIndex
    | some part =>
      let m := g.nrMappings
      let g := { g with nrMappings := m + 1 }
      match mappingLoads cfg type part.partitionCores.length with
      | none =>
        .ok (-1, g.setMapping m { g.mappings m with partitionId := partid, type := type })
      | some nrLoads =>
        let r := abtstInitLoads cfg abt m (g.setMapping m ⟨partid, type, nrLoads⟩)
        .ok (if r.1 then m else -1, r.2)

inductive Mapped (cfg : Config) : Global → Prop
  | start {g g' : Global} {abt : Nat → Bool} : g.nrMappings = 0 →
      abtstInitStreams cfg abt (abtstInitPower cfg g) = some g' → Mapped cfg g'
  | create {g g' : Global} {abt : Nat → AbtCall → Bool} {type partid : Nat} {id : Int} :
      Mapped cfg g → abtstCreateMapping cfg abt type partid g = .ok (id, g') → 0 ≤ id →
      Mapped cfg g'

end AbtSt
