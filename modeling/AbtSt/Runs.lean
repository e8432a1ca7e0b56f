import AbtSt.Mapped
import Mathlib.Data.List.Sort

/-! Whole runs: start-up, then any number of passes on any platform, with
everything that the other parties own changing between them. The states inside
a pass are visited too, up to the point where it ends or faults. -/

namespace AbtSt

/-- What the schedulers, the work units and the user change between passes:
sizes, current ranks, pools, sleep times and settings. -/
structure Between (g s : Global) : Prop where
  queues : SameQueues g s
  partId : ∀ c, (s.streams c).partId = (g.streams c).partId
  initRank : ∀ l, (s.loads l).initRank = (g.loads l).initRank
  psState : s.power.psState = g.power.psState
  nrPsNumas : s.power.nrPsNumas = g.power.nrPsNumas

inductive Reachable (cfg : Config) : Global → Prop
  | mapped {g : Global} : Mapped cfg g → Reachable cfg g
  | between {g s : Global} : Reachable cfg g → Between g s → Reachable cfg s
  | pass {g : Global} {pf : Platform} : Reachable cfg g → (rebPass pf cfg).fault g = none →
      Reachable cfg ((rebPass pf cfg).run g).st

inductive Visited (cfg : Config) : Global → Prop
  | reachable {g : Global} : Reachable cfg g → Visited cfg g
  | during {g : Global} {pf : Platform} {e : Act × Global} : Reachable cfg g →
      e ∈ ((rebPass pf cfg).run g).log → Visited cfg e.2

/-- What holds after start-up, what the others leave alone and what the steps of a pass
keep holds in every state that is visited. -/
theorem Visited.along {cfg : Config} {Step : Act → Global → Global → Prop} {I : Global → Prop}
    (hpass : ∀ pf g, I g → Path Step g ((rebPass pf cfg).run g).log ((rebPass pf cfg).run g).st)
    (hmapped : ∀ g, Mapped cfg g → I g) (hbetween : ∀ g s, Between g s → I g → I s)
    (hstep : ∀ a g s, Step a g s → I g → I s) {g : Global} (h : Visited cfg g) : I g := by
  have hreach : ∀ {g : Global}, Reachable cfg g → I g := by
    intro g h
    induction h with
    | mapped hm => exact hmapped _ hm
    | between _ hb ih => exact hbetween _ _ hb ih
    | @pass g pf _ _ ih => exact ((hpass pf g ih).invariant hstep ih).2
  cases h with
  | reachable h => exact hreach h
  | @during g pf e h he => exact ((hpass pf g (hreach h)).invariant hstep (hreach h)).1 e he

theorem Visited.invariant {cfg : Config} (hv : cfg.Valid) {I : Global → Prop}
    (hI : ∀ g, I g → PartsInRange cfg g) (hinit : ∀ g, Initial cfg g → I g)
    (hbetween : ∀ g s, Between g s → I g → I s)
    (hstep : ∀ a g s, RebStep cfg a g s → I g → I s) {g : Global} (h : Visited cfg g) : I g :=
  h.along (fun pf g hg => (rebPass_follows pf hv).path (hI g hg)) (fun _ hm => hinit _ (hm.initial hv))
    hbetween hstep

structure Placed (cfg : Config) (g : Global) : Prop where
  linked : Linked cfg g g.Created
  confined : Confined g
  parts : PartsInRange cfg g

theorem SameQueues.created {g s : Global} (h : SameQueues g s) : s.Created = g.Created := by
  unfold Global.Created
  rw [h.nrMappings, h.mappings]

theorem RebStep.created {cfg : Config} {a : Act} {s t : Global} (h : RebStep cfg a s t) :
    t.Created = s.Created := by
  rcases h.queues with ⟨hq, _⟩ | ⟨_, _, _, _, _, _, _, _, rfl⟩ | ⟨c, p, _, _, _, rfl⟩
  · exact hq.created
  · rfl
  · exact (setPartitionId_queues c p s).created

theorem Placed.step {cfg : Config} {a : Act} {s t : Global} (h : RebStep cfg a s t)
    (hs : Placed cfg s) : Placed cfg t := by
  refine ⟨?_, h.confined hs.linked hs.confined, h.partsInRange hs.parts⟩
  rw [h.created]
  exact h.linked hs.linked

theorem Placed.between {cfg : Config} {g s : Global} (h : Between g s) (hg : Placed cfg g) :
    Placed cfg s := by
  refine ⟨?_, ?_, ?_⟩
  · rw [h.queues.created]
    exact hg.linked.of_queues h.queues
  · intro c l hl
    rw [h.queues.loadQ] at hl
    rw [h.partId, h.queues.mappings]
    exact hg.confined c l hl
  · intro c hc
    rw [h.queues.used] at hc
    rw [h.partId]
    exact hg.parts c hc

theorem Visited.placed {cfg : Config} (hv : cfg.Valid) {g : Global} (h : Visited cfg g) :
    Placed cfg g :=
  h.invariant hv (fun _ hp => hp.parts) (fun _ hi => ⟨hi.laid.linked, hi.laid.confined, hi.parts⟩)
    (fun _ _ hb => Placed.between hb) (fun _ _ _ hs => Placed.step hs)

theorem Reachable.fault {cfg : Config} (hv : cfg.Valid) {g : Global} (h : Reachable cfg g)
    {pf : Platform} {e : Fault} (he : (rebPass pf cfg).fault g = some e) : e = .divByZero := by
  have hg := Visited.placed hv (.reachable h)
  rcases (rebPass_follows pf hv).of_fault hg.parts he with he | ⟨_, c, hc⟩
  · exact he
  · have hend := (((rebPass_follows pf hv).path hg.parts).invariant
      (fun _ _ _ hs => Placed.step hs) hg).2
    have := hend.linked.count c
    omega

/-- `qsort` as an insertion sort, on a machine where a division by zero traps. -/
def sortedPlatform : Platform where
  qsort := List.insertionSort (fun a b => a.ios ≤ b.ios)
  qsort_perm := List.perm_insertionSort _
  qsort_sorted := List.pairwise_insertionSort (r := fun a b : SortParam => a.ios ≤ b.ios)
  divZero := none

def smallConfig : Config where
  nrCores := 4
  nrNumas := 2
  numaInfo n := ⟨2 * n, 2 * n + 1⟩
  partitions := [⟨0, [1, 2, 3]⟩]
  partitionMap c := if c = 0 then -1 else 0

theorem smallConfig_valid : smallConfig.Valid := by
  refine ⟨by decide, by decide, by decide, by decide, ?_, ?_⟩
  · intro n hn
    simp only [smallConfig] at hn ⊢
    omega
  · intro m hm n hn hne c hcm hcn
    rw [Config.mem_coresOf] at hcm hcn
    simp only [smallConfig] at hcm hcn
    omega

def blank : Global where
  streams _ := {}
  loads _ := {}
  nrMappings := 0
  mappings _ := {}
  numaStat _ := {}
  numaStats _ _ := {}
  stats _ := {}
  power := ⟨fun _ => false, fun _ => 0, false, 0⟩
  rebalance := ⟨3, 1⟩

/-- Start-up with a random mapping on each of the partitions. -/
def startWith (cfg : Config) (partids : List Nat) : Option Global :=
  match abtstInitStreams cfg (fun _ => true) (abtstInitPower cfg blank) with
  | none => none
  | some g => partids.foldlM (fun g partid =>
      match abtstCreateMapping cfg (fun _ _ => true) mappingTypeRandom partid g with
      | .ok (id, g) => if 0 ≤ id then some g else none
      | .error _ => none) g

theorem startWith_mapped {cfg : Config} {partids : List Nat} {g : Global}
    (h : startWith cfg partids = some g) : Mapped cfg g := by
  unfold startWith at h
  cases hs : abtstInitStreams cfg (fun _ => true) (abtstInitPower cfg blank) with
  | none => simp [hs] at h
  | some s =>
    rw [hs] at h
    have hm : Mapped cfg s := .start rfl hs
    clear hs
    induction partids generalizing s with
    | nil =>
      obtain rfl := Option.some.inj h
      exact hm
    | cons p ps ih =>
      dsimp only at h
      rw [List.foldlM_cons] at h
      obtain ⟨u, hu, h⟩ := Option.bind_eq_some_iff.mp h
      cases hc : abtstCreateMapping cfg (fun _ _ => true) mappingTypeRandom p s with
      | error e => simp [hc] at hu
      | ok r =>
        rw [hc] at hu
        dsimp only at hu
        split_ifs at hu with hid
        obtain rfl := Option.some.inj hu
        exact ih _ h (.create hm hc hid)

/-- Start-up on the small layout with one random mapping, which has two loads. -/
def smallStart : Option Global := startWith smallConfig [0]

/-- Two nodes of four cores, each of them shared by two partitions. -/
def sharedConfig : Config where
  nrCores := 8
  nrNumas := 2
  numaInfo n := ⟨4 * n, 4 * n + 3⟩
  partitions := [⟨0, [1, 4]⟩, ⟨1, [2, 3, 5, 6, 7]⟩]
  partitionMap c := if c = 0 then -1 else if c = 1 ∨ c = 4 then 0 else 1

theorem sharedConfig_valid : sharedConfig.Valid := by
  refine ⟨by decide, by decide, by decide, by decide, ?_, ?_⟩
  · intro n hn
    simp only [sharedConfig] at hn ⊢
    omega
  · intro m hm n hn hne c hcm hcn
    rw [Config.mem_coresOf] at hcm hcn
    simp only [sharedConfig] at hcm hcn
    omega

/-- The loads have the given numbers of packets, and the passes go up to the level. -/
def busy (size : LoadId → Nat) (level : Int) (g : Global) : Global :=
  { g with
    loads := fun l => { g.loads l with pktStarted := size l, pktEnded := 0 }
    rebalance := ⟨level, 1⟩ }

theorem busy_between (size : LoadId → Nat) (level : Int) (g : Global) : Between g (busy size level g) :=
  ⟨⟨fun _ => rfl, fun _ => rfl, fun _ => rfl, fun _ => rfl, fun _ => rfl, rfl, rfl⟩, fun _ => rfl,
    fun _ => rfl, rfl, rfl⟩

/-- One load of the first partition has nearly all the packets. -/
def rush (l : LoadId) : Nat := if l = ⟨0, 0⟩ then 1000 else 10

def rushHour : Option Global := (startWith sharedConfig [0, 1]).map (busy rush 2)

def afterRush (g : Global) : Global := ((rebPass sortedPlatform sharedConfig).run g).st

/-- The pass moves a load from core 2 to core 3 and lends core 2 to the first partition. -/
theorem rushHour_result : (rushHour.any fun g => decide (
    (rebPass sortedPlatform sharedConfig).fault g = none ∧ g.Created ⟨1, 0⟩ ∧
    ⟨1, 0⟩ ∈ (g.streams 2).loadQ ∧ ⟨1, 0⟩ ∈ ((afterRush g).streams 3).loadQ ∧
    (g.streams 2).partId = 1 ∧ ((afterRush g).streams 2).partId = 0)) = true := by
  decide +kernel

structure RushHour (g : Global) : Prop where
  reachable : Reachable sharedConfig g
  level : g.rebalance.rebalanceLevel = 2
  completes : (rebPass sortedPlatform sharedConfig).fault g = none
  created : g.Created ⟨1, 0⟩
  before : ⟨1, 0⟩ ∈ (g.streams 2).loadQ
  moved : ⟨1, 0⟩ ∈ ((afterRush g).streams 3).loadQ
  owner : (g.streams 2).partId = 1
  lent : ((afterRush g).streams 2).partId = 0

theorem exists_rushHour : ∃ g, rushHour = some g ∧ RushHour g := by
  obtain ⟨g, hg, hres⟩ := (Option.any_eq_true _ _).mp rushHour_result
  obtain ⟨hok, hcreated, hbefore, hmoved, howner, hlent⟩ := of_decide_eq_true hres
  obtain ⟨s, hs, rfl⟩ := Option.map_eq_some_iff.mp hg
  have hr : Reachable sharedConfig (busy rush 2 s) :=
    .between (.mapped (startWith_mapped hs)) (busy_between rush 2 s)
  exact ⟨_, hg, hr, rfl, hok, hcreated, hbefore, hmoved, howner, hlent⟩

theorem RushHour.after {g : Global} (h : RushHour g) : Reachable sharedConfig (afterRush g) :=
  .pass h.reachable h.completes

theorem smallStart_created : ∃ g, smallStart = some g ∧ g.Created ⟨0, 1⟩ := by
  refine ⟨_, rfl, ?_⟩
  decide

/-- No load is lost or duplicated: in every visited state each created load is
linked once, into one used stream, which is its target. -/
theorem created_load_linked_once {cfg : Config} (hv : cfg.Valid) :
    (∀ g, Visited cfg g → ∀ l, g.Created l → ∃ c < cfg.nrCores,
      (g.streams c).loadQ.count l = 1 ∧ (∀ d, l ∈ (g.streams d).loadQ → d = c) ∧
      (g.streams c).used = true ∧ (g.streams c).nrLoads = (g.streams c).loadQ.length ∧
      (g.loads l).destRank = (g.streams c).rank) ∧
    ∀ g, Reachable cfg g → ∀ pf e, (rebPass pf cfg).fault g = some e → e = .divByZero := by
  refine ⟨?_, fun g h pf e he => h.fault hv he⟩
  intro g h l hl
  have hp := (h.placed hv).linked
  obtain ⟨c, hc⟩ := (hp.mem_iff l).mp hl
  have hu := hp.used c l hc
  exact ⟨c, hp.used_lt c hu, List.count_eq_one_of_mem (hp.nodup c) hc,
    fun d hd => hp.unique d c l hd hc, hu, hp.count c, hp.dest c l hc⟩

theorem created_load_linked_once_moved : ∃ g, RushHour g ∧
    ((afterRush g).streams 3).loadQ.count ⟨1, 0⟩ = 1 ∧
    (∀ d, ⟨1, 0⟩ ∈ ((afterRush g).streams d).loadQ → d = 3) ∧
    ((afterRush g).loads ⟨1, 0⟩).destRank = ((afterRush g).streams 3).rank := by
  obtain ⟨g, -, h⟩ := exists_rushHour
  have hv := Visited.reachable h.after
  have hcreated : (afterRush g).Created ⟨1, 0⟩ :=
    ((hv.placed sharedConfig_valid).linked.mem_iff _).mpr ⟨3, h.moved⟩
  obtain ⟨c, _, hc, hunique, _, _, hdest⟩ := (created_load_linked_once sharedConfig_valid).1 _ hv _ hcreated
  obtain rfl := hunique 3 h.moved
  exact ⟨g, h, hc, hunique, hdest⟩

/-- Partition confinement: in every visited state each load is on a stream of
the partition of its mapping, and a core that has just been re-labelled is empty. -/
theorem load_confined_to_partition {cfg : Config} (hv : cfg.Valid) :
    (∀ g, Visited cfg g → ∀ l, g.Created l → ∃ c, l ∈ (g.streams c).loadQ ∧
      ∀ d, l ∈ (g.streams d).loadQ →
        (g.streams d).partId = (g.mappings l.mapping).partitionId) ∧
    ∀ g, Reachable cfg g → ∀ pf c p s, (Act.setPartition c p, s) ∈ ((rebPass pf cfg).run g).log →
      (s.streams c).loadQ = [] := by
  refine ⟨?_, ?_⟩
  · intro g h l hl
    have hp := h.placed hv
    obtain ⟨c, hc⟩ := (hp.linked.mem_iff l).mp hl
    exact ⟨c, hc, fun d hd => hp.confined d l hd⟩
  · intro g h pf c p s he
    have hg := Visited.placed hv (.reachable h)
    obtain ⟨t, ht, hs⟩ := ((rebPass_follows pf hv).path hg.parts).exists_step
      (fun _ _ _ hs => Placed.step hs) hg _ he
    cases hs with
    | setPartition _ _ _ _ _ hempty =>
      exact ((setPartitionId_queues c p t).loadQ c).trans (ht.linked.emptied hempty)

theorem load_confined_to_partition_lent : ∃ g, RushHour g ∧
    ((afterRush g).streams 3).partId = ((afterRush g).mappings 1).partitionId ∧
    ((afterRush g).streams 2).partId ≠ (g.streams 2).partId ∧
    ∀ c p s, (Act.setPartition c p, s) ∈ ((rebPass sortedPlatform sharedConfig).run g).log →
      (s.streams c).loadQ = [] := by
  obtain ⟨g, -, h⟩ := exists_rushHour
  have hv := Visited.reachable h.after
  have hcreated : (afterRush g).Created ⟨1, 0⟩ :=
    ((hv.placed sharedConfig_valid).linked.mem_iff _).mpr ⟨3, h.moved⟩
  obtain ⟨_, _, hp⟩ := (load_confined_to_partition sharedConfig_valid).1 _ hv _ hcreated
  refine ⟨g, h, hp 3 h.moved, by rw [h.lent, h.owner]; decide, ?_⟩
  exact (load_confined_to_partition sharedConfig_valid).2 g h.reachable sortedPlatform

end AbtSt
