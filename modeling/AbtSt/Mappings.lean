import AbtSt.RoundRobin
import AbtSt.Boot

/-! Creation of a mapping as a whole: when the call succeeds, what a call that
fails leaves behind, and on which cores the loads of a new mapping end up. -/

namespace AbtSt

/-- The calls to Argobots for the loads `i, …, i + n - 1` all succeed. -/
def AllCalls (abt : Nat → AbtCall → Bool) (i n : Nat) : Prop :=
  ∀ j < n, ∀ call, abt (i + j) call = true

theorem allCalls_succ {abt : Nat → AbtCall → Bool} {i n : Nat} :
    AllCalls abt i (n + 1) ↔ (∀ call, abt i call = true) ∧ AllCalls abt (i + 1) n := by
  constructor
  · intro h
    refine ⟨h 0 (Nat.succ_pos n), fun j hj => ?_⟩
    rw [Nat.add_assoc, Nat.add_comm 1 j]
    exact h (j + 1) (Nat.succ_lt_succ hj)
  · rintro ⟨h0, h⟩ j hj
    cases j with
    | zero => exact h0
    | succ j =>
      rw [← Nat.add_comm 1 j, ← Nat.add_assoc]
      exact h j (Nat.lt_of_succ_lt_succ hj)

theorem SameParts.group {g g' : Global} (h : SameParts g g') (cores : List Nat) (p : Nat) :
    g'.group cores p = g.group cores p := by
  rw [Global.group, h.inPart, Global.group]

theorem initLoadsLoop_true_iff {cfg : Config} {abt : Nat → AbtCall → Bool} {p : Nat}
    (m n i start : Nat) (g : Global) (hs : start % cfg.nrCores ≤ cfg.nrCores) :
    (initLoadsLoop cfg abt m p n i start g).1 = true ↔
      n = 0 ∨ (g.group cfg.allCores p ≠ [] ∧ AllCalls abt i n) := by
  induction n generalizing i start g with
  | zero => simp [initLoadsLoop]
  | succ n ih =>
    rw [initLoadsLoop]
    cases hf : findNextStream cfg g p start with
    | none =>
      have hnil := (findNextStream_none g p hs).mp hf
      simp [hnil]
    | some c =>
      have hne : g.group cfg.allCores p ≠ [] := by
        intro hnil
        rw [(findNextStream_none g p hs).mpr hnil] at hf
        cases hf
      have hpos : 0 < cfg.nrCores := by
        obtain ⟨d, hd⟩ := List.exists_mem_of_ne_nil _ hne
        exact Nat.zero_lt_of_lt (List.mem_range.mp (Global.mem_group.mp hd).1)
      have hrest := ih (i + 1) ((g.streams c).rank + 1) (placeLoad g c ⟨m, i⟩)
        (Nat.le_of_lt (Nat.mod_lt _ hpos))
      rw [SameParts.group (placeLoad_shape g c ⟨m, i⟩)] at hrest
      dsimp only
      by_cases hcalls : ∀ call, abt i call = true
      · simp only [hcalls, Bool.true_eq_false, if_false]
        rw [placeLoad] at hrest
        rw [hrest, allCalls_succ]
        constructor
        · rintro (rfl | ⟨_, hall⟩)
          · exact Or.inr ⟨hne, hcalls, fun j hj => absurd hj (Nat.not_lt_zero j)⟩
          · exact Or.inr ⟨hne, hcalls, hall⟩
        · rintro (hz | ⟨_, _, hall⟩)
          · exact absurd hz (Nat.succ_ne_zero n)
          · exact Or.inr ⟨hne, hall⟩
      · rw [allCalls_succ]
        split_ifs with h1 h2 h3
        · simp [hcalls]
        · simp [hcalls]
        · simp [hcalls]
        · exfalso
          apply hcalls
          intro call
          cases call with
          | poolCreate => simpa using h1
          | schedCreate => simpa using h2
          | addSched => simpa using h3

/-- There is nothing to place, or a stream to place it on and no failing call. -/
def CanPlace (cfg : Config) (abt : Nat → AbtCall → Bool) (g : Global) (partid n : Nat) : Prop :=
  n = 0 ∨ (g.group cfg.allCores partid ≠ [] ∧ AllCalls abt 0 n)

theorem abtstCreateMapping_eq {cfg : Config} {abt : Nat → AbtCall → Bool} {type partid nrLoads : Nat}
    {g : Global} {part : Partition} (hroom : g.nrMappings < maxMappings)
    (hpart : cfg.partitions[partid]? = some part)
    (hloads : mappingLoads cfg type part.partitionCores.length = some nrLoads) :
    abtstCreateMapping cfg abt type partid g =
      .ok (if (initLoadsLoop cfg abt g.nrMappings partid nrLoads 0 0
          (nextMapping g ⟨partid, type, nrLoads⟩)).1 then (g.nrMappings : Int) else -1,
        (initLoadsLoop cfg abt g.nrMappings partid nrLoads 0 0
          (nextMapping g ⟨partid, type, nrLoads⟩)).2) := by
  have hnext := abtstInitLoads_next cfg abt g ⟨partid, type, nrLoads⟩
  have hid : ((nextMapping g ⟨partid, type, nrLoads⟩).mappings g.nrMappings).partitionId = partid := by
    simp [nextMapping]
  rw [hid] at hnext
  rw [abtstCreateMapping, if_neg (Nat.not_le.mpr hroom), hpart]
  dsimp only
  rw [hloads]
  dsimp only
  rw [hnext]

theorem initLoadsLoop_nrMappings {cfg : Config} {abt : Nat → AbtCall → Bool} {m p : Nat} (n i start : Nat)
    (g : Global) : (initLoadsLoop cfg abt m p n i start g).2.nrMappings = g.nrMappings := by
  induction n generalizing i start g with
  | zero => rfl
  | succ n ih =>
    rw [initLoadsLoop]
    cases findNextStream cfg g p start with
    | none => rfl
    | some c =>
      dsimp only
      split_ifs
      · rfl
      · rfl
      · rfl
      · exact (ih (i + 1) ((g.streams c).rank + 1) _).trans rfl

/-- What holds of a state after every partial set-up of a load holds after the loop,
wherever it stops. -/
theorem initLoadsLoop_keeps {cfg : Config} {abt : Nat → AbtCall → Bool} {m p : Nat} {I : Global → Prop}
    (hinit : ∀ g i r, I g → I (initLoad g ⟨m, i⟩ r))
    (hplace : ∀ g c i, I g → I (abtstAddLoadToStream (abtPoolAddSched g c ⟨m, i⟩) c ⟨m, i⟩))
    (n i start : Nat) {g : Global} (h : I g) : I (initLoadsLoop cfg abt m p n i start g).2 := by
  induction n generalizing i start g with
  | zero => exact h
  | succ n ih =>
    rw [initLoadsLoop]
    cases findNextStream cfg g p start with
    | none => exact h
    | some c =>
      dsimp only
      split_ifs
      · exact hinit _ _ _ h
      · exact hinit _ _ _ h
      · exact hinit _ _ _ h
      · exact ih (i + 1) _ (hplace _ _ _ (hinit _ _ _ h))

theorem abtstCreateMapping_inv {cfg : Config} {abt : Nat → AbtCall → Bool} {type partid : Nat}
    {g g' : Global} {part : Partition} {id : Int} (hpart : cfg.partitions[partid]? = some part)
    (h : abtstCreateMapping cfg abt type partid g = .ok (id, g')) :
    g.nrMappings < maxMappings ∧ g'.nrMappings = g.nrMappings + 1 ∧
    (id = -1 ∨ ∃ n, mappingLoads cfg type part.partitionCores.length = some n ∧
      CanPlace cfg abt g partid n ∧ id = g.nrMappings ∧
      g' = (initLoadsLoop cfg abt g.nrMappings partid n 0 0 (nextMapping g ⟨partid, type, n⟩)).2) := by
  have hroom : g.nrMappings < maxMappings := by
    by_contra hfull
    rw [abtstCreateMapping, if_pos (Nat.not_lt.mp hfull)] at h
    cases h
  refine ⟨hroom, ?_⟩
  cases hloads : mappingLoads cfg type part.partitionCores.length with
  | none =>
    rw [abtstCreateMapping, if_neg (Nat.not_le.mpr hroom), hpart] at h
    dsimp only at h
    rw [hloads] at h
    obtain ⟨hid, rfl⟩ := Prod.mk.inj (Except.ok.inj h)
    exact ⟨rfl, Or.inl hid.symm⟩
  | some n =>
    rw [abtstCreateMapping_eq hroom hpart hloads] at h
    obtain ⟨hid, rfl⟩ := Prod.mk.inj (Except.ok.inj h)
    refine ⟨initLoadsLoop_nrMappings n 0 0 _, ?_⟩
    by_cases hdone : (initLoadsLoop cfg abt g.nrMappings partid n 0 0
        (nextMapping g ⟨partid, type, n⟩)).1 = true
    · rw [if_pos hdone] at hid
      have hplace := (initLoadsLoop_true_iff _ n 0 0 (nextMapping g ⟨partid, type, n⟩) (by simp)).mp hdone
      exact Or.inr ⟨n, rfl, hplace, hid.symm, rfl⟩
    · rw [if_neg hdone] at hid
      exact Or.inl hid.symm

/-- A call that succeeds has run the loop on the next entry of the table. -/
theorem abtstCreateMapping_loop {cfg : Config} {abt : Nat → AbtCall → Bool} {type partid : Nat}
    {g g' : Global} {id : Int} (h : abtstCreateMapping cfg abt type partid g = .ok (id, g')) (hid : 0 ≤ id) :
    g'.nrMappings = g.nrMappings + 1 ∧ ∃ n, g' =
      (initLoadsLoop cfg abt g.nrMappings partid n 0 0 (nextMapping g ⟨partid, type, n⟩)).2 := by
  cases hpart : cfg.partitions[partid]? with
  | none =>
    rw [abtstCreateMapping, hpart] at h
    split_ifs at h
  | some part =>
    obtain ⟨_, hnext, hret⟩ := abtstCreateMapping_inv hpart h
    rcases hret with hret | ⟨n, _, _, _, hg⟩
    · omega
    · exact ⟨hnext, n, hg⟩

/-- What an unsuccessful call should leave: the table, the earlier mappings with
their loads, and the queues of the streams. -/
def LeavesNoTrace (cfg : Config) (abt : Nat → AbtCall → Bool) (type partid : Nat) (g : Global) :
    Prop :=
  ∃ id g', abtstCreateMapping cfg abt type partid g = .ok (id, g') ∧
    (id = -1 → g'.nrMappings = g.nrMappings ∧
      (∀ m < g.nrMappings, g'.mappings m = g.mappings m) ∧
      (∀ l : LoadId, l.mapping < g.nrMappings → g'.loads l = g.loads l) ∧
      ∀ c, (g'.streams c).loadQ = (g.streams c).loadQ ∧
        (g'.streams c).nrLoads = (g.streams c).nrLoads)

/-- The entry is taken before anything can fail and never given back, so that
only a call that succeeds leaves no trace. -/
theorem leavesNoTrace_iff {cfg : Config} {abt : Nat → AbtCall → Bool} {type partid : Nat}
    {g : Global} {part : Partition} (hpart : cfg.partitions[partid]? = some part) :
    LeavesNoTrace cfg abt type partid g ↔ g.nrMappings < maxMappings ∧
      ∃ n, mappingLoads cfg type part.partitionCores.length = some n ∧
        CanPlace cfg abt g partid n := by
  constructor
  · rintro ⟨id, g', hrun, htrace⟩
    obtain ⟨hroom, htaken, hcase⟩ := abtstCreateMapping_inv hpart hrun
    refine ⟨hroom, ?_⟩
    rcases hcase with hbad | ⟨n, hloads, hplace, -⟩
    · have hkept := (htrace hbad).1
      omega
    · exact ⟨n, hloads, hplace⟩
  · rintro ⟨hroom, n, hloads, hplace⟩
    have hdone := (initLoadsLoop_true_iff g.nrMappings n 0 0 (nextMapping g ⟨partid, type, n⟩)
      (by simp)).mpr hplace
    rw [LeavesNoTrace, abtstCreateMapping_eq hroom hpart hloads, if_pos hdone]
    refine ⟨_, _, rfl, fun hbad => ?_⟩
    omega

theorem smallConfig_leavesNoTrace :
    LeavesNoTrace smallConfig (fun _ _ => true) mappingTypeRandom 0 fiveLoads :=
  (leavesNoTrace_iff (show smallConfig.partitions[0]? = some ⟨0, [1, 2, 3]⟩ from rfl)).mpr
    ⟨by decide, 2, rfl, Or.inr ⟨by decide, fun _ _ _ => rfl⟩⟩

/-- The call for the second load fails: the mapping keeps its entry and its
first load stays on the stream of core 1. -/
theorem failed_mapping_leaves_load :
    (∃ g', abtstCreateMapping smallConfig (fun i _ => i == 0) mappingTypeRandom 0 fiveLoads =
      .ok (-1, g') ∧ g'.nrMappings = 1 ∧ (g'.streams 1).loadQ = [⟨0, 0⟩]) ∧
    ¬ LeavesNoTrace smallConfig (fun i _ => i == 0) mappingTypeRandom 0 fiveLoads := by
  have hrun : ((abtstCreateMapping smallConfig (fun i _ => i == 0) mappingTypeRandom 0
      fiveLoads).toOption.map fun r => (r.1, r.2.nrMappings, (r.2.streams 1).loadQ)) =
      some (-1, 1, [⟨0, 0⟩]) := by decide +kernel
  cases hcall : abtstCreateMapping smallConfig (fun i _ => i == 0) mappingTypeRandom 0 fiveLoads with
  | error e =>
    rw [hcall] at hrun
    cases hrun
  | ok r =>
    obtain ⟨id, g'⟩ := r
    rw [hcall, Except.toOption, Option.map_some, Option.some.injEq, Prod.mk.injEq, Prod.mk.injEq] at hrun
    obtain ⟨rfl, hcount, hload⟩ := hrun
    refine ⟨⟨g', rfl, hcount, hload⟩, ?_⟩
    rintro ⟨id, g'', hcall', htrace⟩
    rw [hcall] at hcall'
    obtain ⟨hid, rfl⟩ := Prod.mk.inj (Except.ok.inj hcall')
    have hkept := (htrace hid.symm).1
    rw [hcount] at hkept
    exact absurd hkept (by decide)

/-- The streams have just been set up from a configuration that was accepted. -/
structure Configured (cfg : Config) (g : Global) : Prop where
  accepted : abtstInitPartitions cfg.nrCores cfg.partitions = .ok (0, cfg.partitionMap)
  ids : ∀ p ∈ cfg.partitions, 0 ≤ p.partitionId
  distinct : (cfg.partitions.map Partition.partitionId).Nodup
  streams : ∃ abt g₀, abtstInitStreams cfg abt g₀ = some g

namespace Configured

variable {cfg : Config} {g : Global} (h : Configured cfg g)
include h

theorem stream (c : Nat) : g.streams c =
    if c < cfg.nrCores then initXstream (applyStreamConfig cfg c {}) c else {} := by
  obtain ⟨abt, g₀, hs⟩ := h.streams
  rw [abtstInitStreams_streams hs]

theorem blank_stream (c : Nat) : (g.streams c).loadQ = [] ∧ (g.streams c).nrLoads = 0 := by
  rw [h.stream c]
  split_ifs
  · exact ⟨rfl, rfl⟩
  · exact ⟨rfl, rfl⟩

theorem rank {c : Nat} (hc : c < cfg.nrCores) : (g.streams c).rank = c := by
  rw [h.stream c, if_pos hc]
  rfl

theorem applied : Applied cfg.nrCores cfg.partitions g := by
  obtain ⟨-, -, hin, hout⟩ := abtstInitPartitions_zero h.ids h.accepted
  exact applied_of_map h.ids hin hout (fun c hc => by rw [h.stream c, if_pos hc])

theorem listed {p : Partition} {x : Int} (hp : p ∈ cfg.partitions) (hx : x ∈ p.partitionCores) :
    ∃ c : Nat, x = c ∧ c < cfg.nrCores := by
  obtain ⟨hnonneg, hlt⟩ := (abtstInitPartitions_zero h.ids h.accepted).2.1 p hp x hx
  exact ⟨x.toNat, by omega, by omega⟩

theorem listed_lt {p : Partition} {c : Nat} (hp : p ∈ cfg.partitions)
    (hc : (c : Int) ∈ p.partitionCores) : c < cfg.nrCores := by
  obtain ⟨d, hd, hlt⟩ := h.listed hp hc
  omega

theorem mem_members {i c : Nat} : c ∈ g.group cfg.allCores i ↔
    ∃ p ∈ cfg.partitions, (c : Int) ∈ p.partitionCores ∧ p.partitionId = i := by
  rw [Global.mem_group]
  constructor
  · rintro ⟨hc, hu, hp⟩
    obtain ⟨hused, hpart⟩ := h.applied c (List.mem_range.mp hc)
    obtain ⟨p, hmem, hcp⟩ := hused.mp hu
    refine ⟨p, hmem, hcp, ?_⟩
    rw [← hpart p hmem hcp, hp]
  · rintro ⟨p, hmem, hcp, hid⟩
    have hlt := h.listed_lt hmem hcp
    obtain ⟨hused, hpart⟩ := h.applied c hlt
    have hid' := hpart p hmem hcp
    exact ⟨List.mem_range.mpr hlt, hused.mpr ⟨p, hmem, hcp⟩, by omega⟩

theorem unique {p q : Partition} {c : Int} (hp : p ∈ cfg.partitions) (hq : q ∈ cfg.partitions)
    (hcp : c ∈ p.partitionCores) (hcq : c ∈ q.partitionCores) : p.partitionId = q.partitionId := by
  have hin := (abtstInitPartitions_zero h.ids h.accepted).2.2.1
  obtain ⟨d, rfl, -⟩ := h.listed hp hcp
  rw [← hin p hp d hcp, hin q hq d hcq]

theorem members_of_id {i : Nat} {part : Partition} (hp : part ∈ cfg.partitions)
    (hid : part.partitionId = i) (c : Nat) :
    c ∈ g.group cfg.allCores i ↔ (c : Int) ∈ part.partitionCores := by
  rw [h.mem_members]
  constructor
  · rintro ⟨q, hq, hcq, hqid⟩
    have hsame : q = part :=
      List.inj_on_of_nodup_map h.distinct hq hp (hqid.trans hid.symm)
    exact hsame ▸ hcq
  · intro hc
    exact ⟨part, hp, hc, hid⟩

theorem members_length {i : Nat} {part : Partition} (hp : part ∈ cfg.partitions)
    (hid : part.partitionId = i) :
    (g.group cfg.allCores i).length = part.partitionCores.length := by
  have hnd := (abtstInitPartitions_zero h.ids h.accepted).1
  have hnodup : part.partitionCores.Nodup := (List.nodup_flatMap.mp hnd).1 part hp
  have hperm : ((g.group cfg.allCores i).map (fun c : Nat => (c : Int))).Perm part.partitionCores := by
    apply (List.perm_ext_iff_of_nodup ?_ hnodup).mpr
    · intro x
      rw [List.mem_map]
      constructor
      · rintro ⟨c, hc, rfl⟩
        exact (h.members_of_id hp hid c).mp hc
      · intro hx
        obtain ⟨c, rfl, -⟩ := h.listed hp hx
        exact ⟨c, (h.members_of_id hp hid c).mpr hx, rfl⟩
    · exact (List.nodup_range.filter _).map Int.ofNat_injective
  rw [← hperm.length_eq, List.length_map]

theorem members_ne_nil {i : Nat} {q : Partition} {x : Int} (hq : q ∈ cfg.partitions) (hx : x ∈ q.partitionCores)
    (hid : q.partitionId = i) : g.group cfg.allCores i ≠ [] := by
  obtain ⟨c, rfl, -⟩ := h.listed hq hx
  exact List.ne_nil_of_mem (h.mem_members.mpr ⟨q, hq, hx, hid⟩)

theorem created_loads {abt : Nat → AbtCall → Bool} {i n : Nat} (x : Mapping)
    (hplace : CanPlace cfg abt g i n) {g' : Global}
    (hg' : g' = (initLoadsLoop cfg abt g.nrMappings i n 0 0 (nextMapping g x)).2) :
    (∀ j c, (g.group cfg.allCores i)[j]? = some c →
      (g'.streams c).nrLoads = (turns (g.group cfg.allCores i).length n j).length ∧
      (g'.streams c).loadQ.length = (turns (g.group cfg.allCores i).length n j).length) ∧
    ∀ c, c ∉ g.group cfg.allCores i →
      (g'.streams c).nrLoads = 0 ∧ (g'.streams c).loadQ.length = 0 := by
  have hempty : ∀ c, ((nextMapping g x).streams c).loadQ = [] ∧
      ((nextMapping g x).streams c).nrLoads = 0 := h.blank_stream
  rcases hplace with rfl | ⟨hne, hcalls⟩
  · obtain rfl : g' = nextMapping g x := hg'
    constructor
    · intro j c _
      simp [hempty c, turns]
    · intro c _
      simp [hempty c]
  · have hrank : ∀ c < cfg.nrCores, ((nextMapping g x).streams c).rank = c := fun c hc => h.rank hc
    have hrun := initLoadsLoop_deal hrank g.nrMappings n 0 0 hne hcalls
      (by rw [Nat.zero_mod]; exact findNextStream_zero cfg (nextMapping g x) i)
    rw [Nat.zero_add] at hrun
    have hg : g' = dealLoads (nextMapping g x) g.nrMappings (g.group cfg.allCores i) n :=
      hg'.trans (congrArg Prod.snd hrun)
    have hnd : (g.group cfg.allCores i).Nodup := List.nodup_range.filter _
    rw [hg]
    constructor
    · intro j c hj
      rw [dealLoads_stream hnd hj]
      simp [hempty c]
    · intro c hc
      rw [dealLoads_other hne hc]
      simp [hempty c]

end Configured

/-- A mapping created on position `i` puts its loads on the cores listed there. -/
def LandsOn (cfg : Config) (g : Global) (i : Nat) (part : Partition) : Prop :=
  ∀ abt id g', abtstCreateMapping cfg abt mappingTypeHashing i g = .ok (id, g') → 0 ≤ id →
    ∀ c < cfg.nrCores,
      (g'.streams c).nrLoads = (if (c : Int) ∈ part.partitionCores then loadsPerXstream else 0) ∧
      (g'.streams c).loadQ.length = (if (c : Int) ∈ part.partitionCores then loadsPerXstream else 0)

theorem mappingLoads_hashing (cfg : Config) (cores : Nat) :
    mappingLoads cfg mappingTypeHashing cores = some (u32 (cores * loadsPerXstream)) := if_pos rfl

/-- A call that can succeed does so with the loads counted as `turns`. -/
theorem LandsOn.counts {cfg : Config} {g : Global} {i : Nat} {part : Partition}
    (hland : LandsOn cfg g i part) (h : Configured cfg g) (hpart : cfg.partitions[i]? = some part)
    (hroom : g.nrMappings < maxMappings)
    (hplace : CanPlace cfg (fun _ _ => true) g i (u32 (part.partitionCores.length * loadsPerXstream))) :
    (∀ j c : Nat, (g.group cfg.allCores i)[j]? = some c →
      (turns (g.group cfg.allCores i).length (u32 (part.partitionCores.length * loadsPerXstream)) j).length =
        if (c : Int) ∈ part.partitionCores then loadsPerXstream else 0) ∧
    ∀ c : Nat, (c : Int) ∈ part.partitionCores → c ∈ g.group cfg.allCores i := by
  have hrun : abtstCreateMapping cfg (fun _ _ => true) mappingTypeHashing i g = _ :=
    abtstCreateMapping_eq hroom hpart (mappingLoads_hashing cfg part.partitionCores.length)
  rw [if_pos ((initLoadsLoop_true_iff g.nrMappings _ 0 0 (nextMapping g _) (by simp)).mpr hplace)] at hrun
  have hcount := hland _ _ _ hrun (by omega)
  obtain ⟨hin, hout⟩ := h.created_loads _ hplace rfl
  constructor
  · intro j c hj
    have hlt := List.mem_range.mp (Global.mem_group.mp (List.mem_of_getElem? hj)).1
    rw [← (hin j c hj).1, (hcount c hlt).1]
  · intro c hc
    by_contra hnot
    have hzero := (hcount c (h.listed_lt (List.mem_of_getElem? hpart) hc)).1
    rw [if_pos hc, (hout c hnot).1] at hzero
    exact absurd hzero (by decide)

section Lands

variable {cfg : Config} {g : Global} (h : Configured cfg g) {i : Nat} {part : Partition}
  (hpart : cfg.partitions[i]? = some part)
include h hpart

/-- If the loads land on the listed cores, the position is the id and the number
of loads has not wrapped. -/
theorem LandsOn.agrees (hland : LandsOn cfg g i part) (hroom : g.nrMappings < maxMappings)
    (hcores : part.partitionCores ≠ [])
    (hplace : CanPlace cfg (fun _ _ => true) g i (u32 (part.partitionCores.length * loadsPerXstream))) :
    part.partitionId = i ∧ part.partitionCores.length * loadsPerXstream < 2 ^ 32 := by
  have hmem := List.mem_of_getElem? hpart
  obtain ⟨hcount, hlisted⟩ := hland.counts h hpart hroom hplace
  have hpid : part.partitionId = i := by
    obtain ⟨x, hx⟩ := List.exists_mem_of_ne_nil _ hcores
    obtain ⟨c, rfl, -⟩ := h.listed hmem hx
    obtain ⟨q, hq, hcq, hqid⟩ := h.mem_members.mp (hlisted c hx)
    exact (h.unique hmem hq hx hcq).trans hqid
  refine ⟨hpid, ?_⟩
  have hlen := h.members_length hmem hpid
  have hpos : 0 < (g.group cfg.allCores i).length := by
    rw [hlen]
    exact List.length_pos_iff.mpr hcores
  -- the last stream gets the share rounded down
  have hlast := List.getElem?_eq_getElem (Nat.sub_lt hpos Nat.one_pos)
  have hshare := hcount _ _ hlast
  have hmod := Nat.mod_lt (u32 (part.partitionCores.length * loadsPerXstream)) hpos
  rw [if_pos ((h.members_of_id hmem hpid _).mp (List.mem_of_getElem? hlast)),
    turns_length (Nat.sub_lt hpos Nat.one_pos), if_neg (by omega), Nat.add_zero, hlen] at hshare
  have hmul := Nat.div_mul_le_self (u32 (part.partitionCores.length * loadsPerXstream))
    part.partitionCores.length
  rw [hshare, Nat.mul_comm] at hmul
  exact Nat.lt_of_le_of_lt hmul (u32_lt _)

/-- With the id equal to the position, each listed core gets its share. -/
theorem turns_of_agrees (hpid : part.partitionId = i)
    (hlt : part.partitionCores.length * loadsPerXstream < 2 ^ 32) {j c : Nat}
    (hj : (g.group cfg.allCores i)[j]? = some c) :
    (turns (g.group cfg.allCores i).length
      (u32 (part.partitionCores.length * loadsPerXstream)) j).length = loadsPerXstream := by
  obtain ⟨hjl, -⟩ := List.getElem?_eq_some_iff.mp hj
  have hn : u32 (part.partitionCores.length * loadsPerXstream) =
      part.partitionCores.length * loadsPerXstream := by
    exact_mod_cast u32_of_lt hlt
  have hlen := h.members_length (List.mem_of_getElem? hpart) hpid
  have hpos : 0 < part.partitionCores.length := by omega
  rw [turns_length hjl, hn, hlen, Nat.mul_mod_right, if_neg (Nat.not_lt_zero j),
    Nat.mul_div_cancel_left _ hpos, Nat.add_zero]

/-- Positions and ids have to agree, unless there is nothing to place or no
stream with the id. -/
theorem landsOn_iff :
    LandsOn cfg g i part ↔ maxMappings ≤ g.nrMappings ∨ part.partitionCores = [] ∨
      (part.partitionId = i ∧ part.partitionCores.length * loadsPerXstream < 2 ^ 32) ∨
      (u32 (part.partitionCores.length * loadsPerXstream) ≠ 0 ∧
        ∀ q ∈ cfg.partitions, q.partitionId = i → q.partitionCores = []) := by
  constructor
  · intro hland
    by_contra hnone
    simp only [not_or, Nat.not_le] at hnone
    obtain ⟨hroom, hcores, hid, hnoid⟩ := hnone
    have hcannot : ¬ CanPlace cfg (fun _ _ => true) g i
        (u32 (part.partitionCores.length * loadsPerXstream)) :=
      fun hplace => hid (hland.agrees h hpart hroom hcores hplace)
    apply hnoid
    refine ⟨fun hzero => hcannot (Or.inl hzero), ?_⟩
    intro q hq hqid
    by_contra hne
    obtain ⟨x, hx⟩ := List.exists_mem_of_ne_nil _ hne
    exact hcannot (Or.inr ⟨h.members_ne_nil hq hx hqid, fun _ _ _ => rfl⟩)
  · intro hcond abt id g' hrun hid c hc
    obtain ⟨hroom, -, hbad | ⟨n, hloads, hplace, -, hg'⟩⟩ := abtstCreateMapping_inv hpart hrun
    · omega
    obtain ⟨hin, hout⟩ := h.created_loads _ hplace hg'
    obtain rfl : u32 (part.partitionCores.length * loadsPerXstream) = n :=
      Option.some.inj ((mappingLoads_hashing cfg _).symm.trans hloads)
    rcases hcond with hfull | hnil | ⟨hpid, hlt⟩ | ⟨hne, hno⟩
    · omega
    · have hzero : u32 (part.partitionCores.length * loadsPerXstream) = 0 := by
        rw [hnil]
        exact u32_of_lt (n := 0) (by decide)
      rw [hzero] at hin
      rw [hnil, if_neg List.not_mem_nil]
      by_cases hcL : c ∈ g.group cfg.allCores i
      · obtain ⟨j, hj⟩ := List.mem_iff_getElem?.mp hcL
        exact hin j c hj
      · exact hout c hcL
    · have hiff := h.members_of_id (List.mem_of_getElem? hpart) hpid c
      by_cases hcL : c ∈ g.group cfg.allCores i
      · obtain ⟨j, hj⟩ := List.mem_iff_getElem?.mp hcL
        rw [if_pos (hiff.mp hcL), ← turns_of_agrees h hpart hpid hlt hj]
        exact hin j c hj
      · rw [if_neg (fun hm => hcL (hiff.mpr hm))]
        exact hout c hcL
    · exfalso
      rcases hplace with hzero | ⟨hL, -⟩
      · exact hne hzero
      · obtain ⟨d, hd⟩ := List.exists_mem_of_ne_nil _ hL
        obtain ⟨q, hq, hdq, hqid⟩ := h.mem_members.mp hd
        rw [hno q hq hqid] at hdq
        cases hdq

end Lands

/-- A layout on one node, with the map that the start-up computes. -/
def layout (nrCores : Nat) (parts : List Partition) : Config where
  nrCores := nrCores
  nrNumas := 1
  numaInfo _ := ⟨0, nrCores - 1⟩
  partitions := parts
  partitionMap := match abtstInitPartitions nrCores parts with
    | .ok r => r.2
    | .error _ => fun _ => -1

def justConfigured (cfg : Config) : Global :=
  { blank with streams := fun c =>
      if c < cfg.nrCores then initXstream (applyStreamConfig cfg c {}) c else {} }

theorem justConfigured_init (cfg : Config) :
    abtstInitStreams cfg (fun _ => true) blank = some (justConfigured cfg) := by
  simp [abtstInitStreams, justConfigured]

def twoParts : List Partition := [⟨0, [1]⟩, ⟨1, [2, 3]⟩]

/-- The same cores with the ids the other way round. -/
def swappedParts : List Partition := [⟨1, [1]⟩, ⟨0, [2, 3]⟩]

theorem twoParts_configured : Configured (layout 4 twoParts) (justConfigured (layout 4 twoParts)) :=
  ⟨rfl, by decide, by decide, _, _, justConfigured_init _⟩

theorem swappedParts_configured :
    Configured (layout 4 swappedParts) (justConfigured (layout 4 swappedParts)) :=
  ⟨rfl, by decide, by decide, _, _, justConfigured_init _⟩

theorem twoParts_landsOn :
    LandsOn (layout 4 twoParts) (justConfigured (layout 4 twoParts)) 1 ⟨1, [2, 3]⟩ :=
  (landsOn_iff twoParts_configured rfl).mpr (Or.inr (Or.inr (Or.inl (by decide))))

/-- The 32 loads of the mapping on position 0 go to cores 2 and 3, which
position 1 lists. -/
theorem swappedParts_misplaced :
    ¬ ∀ (cfg : Config) (g : Global) (i : Nat) (part : Partition), Configured cfg g →
      cfg.partitions[i]? = some part → LandsOn cfg g i part := by
  intro hall
  have hconf := swappedParts_configured
  have hpart : (layout 4 swappedParts).partitions[0]? = some ⟨1, [1]⟩ := rfl
  have hland := hall _ _ 0 _ hconf hpart
  have hother : (layout 4 swappedParts).partitions[1]? = some ⟨0, [2, 3]⟩ := rfl
  have hne := hconf.members_ne_nil (i := 0) (x := 2) (List.mem_of_getElem? hother) (by decide) rfl
  have hagree := hland.agrees hconf hpart (by decide) (by decide) (Or.inr ⟨hne, fun _ _ _ => rfl⟩)
  exact absurd hagree.1 (by decide)

end AbtSt
