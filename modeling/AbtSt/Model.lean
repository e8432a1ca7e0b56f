import AbtSt.Traced
import Mathlib.Algebra.Order.Ring.Int
import Mathlib.Logic.Function.Basic

/-! The data of abt-st: loads, streams, statistics and the global record, with
the machine integers and the two services of the platform that the rebalancer
uses (`qsort` and integer division). -/

namespace AbtSt

def maxNumas : Nat := 8
def maxPartitions : Nat := 8
def maxMappings : Nat := 8
def loadsPerXstream : Nat := 32
def minIosToStartReb : Int := 100

/-- Conversion of a C integer to `uint32_t`. -/
@[irreducible] def u32 (x : Int) : Nat := (x % 2 ^ 32).toNat

/-- Conversion of a C integer to `int`; signed arithmetic wraps. -/
@[irreducible] def i32 (x : Int) : Int := x.bmod (2 ^ 32)

theorem u32_lt (x : Int) : u32 x < 2 ^ 32 := by
  unfold u32
  omega

theorem u32_of_lt {n : Nat} (h : n < 2 ^ 32) : u32 n = n := by
  unfold u32
  omega

theorem i32_of_lt {x : Int} (h : -2 ^ 31 ≤ x) (h' : x < 2 ^ 31) : i32 x = x := by
  unfold i32
  rw [Int.bmod_eq_of_le] <;> omega

theorem u32_i32 (x : Int) : u32 (i32 x) = u32 x := by
  unfold u32 i32
  have h : x.bmod (2 ^ 32) % ((2 ^ 32 : Nat) : Int) = x % ((2 ^ 32 : Nat) : Int) := Int.bmod_emod
  exact congrArg Int.toNat h

theorem cast_u32 (x : Int) : (u32 x : Int) = x % 2 ^ 32 := by
  unfold u32
  omega

theorem i32_emod (x : Int) : i32 x % 2 ^ 32 = x % 2 ^ 32 := by
  rw [← cast_u32, u32_i32, cast_u32]

/-- A load is a slot of the loads table of a mapping. -/
structure LoadId where
  mapping : Nat
  index : Nat
  deriving DecidableEq, Repr

inductive PoolUnit
  | sched (l : LoadId)
  | thread (t : Nat)
  deriving DecidableEq, Repr

structure Load where
  loadId : Nat := 0
  used : Bool := false
  pktStarted : Nat := 0
  pktEnded : Nat := 0
  initRank : Nat := 0
  currRank : Nat := 0
  destRank : Nat := 0
  pool : List Nat := []

structure Stream where
  rank : Nat := 0
  used : Bool := false
  partId : Nat := 0
  pool : List PoolUnit := []
  loadQ : List LoadId := []
  nrLoads : Nat := 0
  blocking : Bool := false
  totalQdepth : Nat := 0
  sleepNsec : Nat := 0

structure Numa where
  startCore : Nat
  endCore : Nat

structure NumaStat where
  usedCores : Nat := 0
  avgQdepth : Nat := 0
  deriving DecidableEq

structure PartitionStat where
  usedCores : Nat := 0
  qdepth : Nat := 0
  deriving DecidableEq

structure Partition where
  partitionId : Int
  partitionCores : List Int

structure Mapping where
  partitionId : Nat := 0
  type : Nat := 0
  nrLoads : Nat := 0

structure Power where
  psState : Nat → Bool
  psPct : Nat → Nat
  psEnabled : Bool
  nrPsNumas : Int

structure Rebalance where
  rebalanceLevel : Int
  rebalanceInterval : Int

structure Config where
  nrCores : Nat
  nrNumas : Nat
  numaInfo : Nat → Numa
  partitions : List Partition
  partitionMap : Nat → Int

structure Global where
  streams : Nat → Stream
  loads : LoadId → Load
  nrMappings : Nat
  mappings : Nat → Mapping
  numaStat : Nat → NumaStat
  numaStats : Nat → Nat → PartitionStat
  stats : Nat → PartitionStat
  power : Power
  rebalance : Rebalance

/-- An entry of the arrays handed to `qsort`; `stream` is the index that the
source keeps in the pointer field. -/
structure SortParam where
  ios : Int
  stream : Nat
  deriving DecidableEq, Repr

/-- The order of equal keys is left to the C library. An integer division by
zero either traps (`none`) or leaves a value. -/
structure Platform where
  qsort : List SortParam → List SortParam
  qsort_perm : ∀ l, (qsort l).Perm l
  qsort_sorted : ∀ l, (qsort l).Pairwise (fun a b => a.ios ≤ b.ios)
  divZero : Option Nat

inductive Fault
  | divByZero
  | badIndex
  | overrun
  | assertion
  deriving DecidableEq, Repr

def Platform.div (pf : Platform) (a b : Nat) : Except Fault Nat :=
  if b = 0 then
    match pf.divZero with
    | none => .error .divByZero
    | some v => .ok v
  else .ok (a / b)

theorem Platform.div_pos {pf : Platform} {a b : Nat} (h : b ≠ 0) : pf.div a b = .ok (a / b) := by
  simp [Platform.div, h]

theorem Platform.div_error {pf : Platform} {a b : Nat} {e : Fault} (h : pf.div a b = .error e) :
    e = .divByZero ∧ b = 0 := by
  unfold Platform.div at h
  by_cases hb : b = 0
  · cases hd : pf.divZero with
    | none =>
      rw [if_pos hb, hd] at h
      exact ⟨(Except.error.inj h).symm, hb⟩
    | some v => simp [hb, hd] at h
  · simp [hb] at h

theorem Platform.div_trap {pf : Platform} {a b q : Nat} (hpf : pf.divZero = none)
    (h : pf.div a b = .ok q) : b ≠ 0 := by
  rintro rfl
  simp [Platform.div, hpf] at h

def entry {α : Type} (params : List α) (i : Nat) : Except Fault α :=
  match params[i]? with
  | some x => .ok x
  | none => .error .badIndex

theorem entry_ok {α : Type} {params : List α} {i : Nat} {x : α} (h : entry params i = .ok x) :
    params[i]? = some x := by
  unfold entry at h
  cases hi : params[i]? with
  | none => simp [hi] at h
  | some y => simpa [hi] using h

theorem entry_of_lt {α : Type} {params : List α} {i : Nat} (h : i < params.length) :
    entry params i = .ok params[i] := by
  simp [entry, h]

namespace Config

def nrPartitions (cfg : Config) : Nat := cfg.partitions.length

def coresOf (cfg : Config) (n : Nat) : List Nat :=
  List.range' (cfg.numaInfo n).startCore
    ((cfg.numaInfo n).endCore + 1 - (cfg.numaInfo n).startCore)

theorem mem_coresOf {cfg : Config} {n c : Nat} :
    c ∈ cfg.coresOf n ↔ (cfg.numaInfo n).startCore ≤ c ∧ c ≤ (cfg.numaInfo n).endCore := by
  rw [coresOf, List.mem_range'_1]
  omega

theorem coresOf_nodup (cfg : Config) (n : Nat) : (cfg.coresOf n).Nodup := List.nodup_range'

structure Valid (cfg : Config) : Prop where
  nrCores_lt : cfg.nrCores < 2 ^ 31
  nrNumas_le : cfg.nrNumas ≤ maxNumas
  nrPartitions_le : cfg.nrPartitions ≤ maxPartitions
  partitionMap_lt : ∀ c < cfg.nrCores, cfg.partitionMap c < cfg.nrPartitions
  endCore_lt : ∀ n < cfg.nrNumas, (cfg.numaInfo n).endCore < cfg.nrCores
  disjoint : ∀ m < cfg.nrNumas, ∀ n < cfg.nrNumas, m ≠ n →
    List.Disjoint (cfg.coresOf m) (cfg.coresOf n)

theorem Valid.numa_unique {cfg : Config} (h : cfg.Valid) {m n c : Nat}
    (hm : m < cfg.nrNumas) (hn : n < cfg.nrNumas)
    (hcm : c ∈ cfg.coresOf m) (hcn : c ∈ cfg.coresOf n) : m = n := by
  by_contra hne
  exact h.disjoint m hm n hn hne hcm hcn

theorem Valid.core_lt {cfg : Config} (h : cfg.Valid) {n c : Nat} (hn : n < cfg.nrNumas)
    (hc : c ∈ cfg.coresOf n) : c < cfg.nrCores := by
  have := h.endCore_lt n hn
  have := mem_coresOf.mp hc
  omega

end Config

namespace Global

def setStream (g : Global) (c : Nat) (s : Stream) : Global :=
  { g with streams := Function.update g.streams c s }

def setLoad (g : Global) (l : LoadId) (x : Load) : Global :=
  { g with loads := Function.update g.loads l x }

def setMapping (g : Global) (m : Nat) (x : Mapping) : Global :=
  { g with mappings := Function.update g.mappings m x }

def Created (g : Global) (l : LoadId) : Prop :=
  l.mapping < g.nrMappings ∧ l.index < (g.mappings l.mapping).nrLoads

instance (g : Global) (l : LoadId) : Decidable (g.Created l) :=
  inferInstanceAs (Decidable (_ ∧ _))

def qdepth (g : Global) (c : Nat) : Nat := (g.streams c).totalQdepth

/-- `abtst_get_load_size`: the difference is a `uint64_t` returned as `int`. -/
def loadSize (g : Global) (l : LoadId) : Int :=
  if (g.loads l).pktEnded < (g.loads l).pktStarted then
    i32 ((g.loads l).pktStarted - (g.loads l).pktEnded)
  else 0

end Global

end AbtSt
