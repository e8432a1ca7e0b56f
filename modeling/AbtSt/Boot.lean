import AbtSt.Runs
import AbtSt.Env

/-! `abtst_init` as a whole. It does not look at what its parts return, so it
returns 0 for every configuration that does not make it crash; it does what was
asked exactly if the configuration was fit to be applied. -/

namespace AbtSt

/-- The map has an entry for each core. The cores of a partition are entered
until one is found in another partition already. -/
def placeCores (nrCores : Nat) (partitionId : Int) :
    List Int → (Nat → Int) → Except Fault (Bool × (Nat → Int))
  | [], map => .ok (true, map)
  | core :: cores, map =>
    if core < 0 ∨ nrCores ≤ core then .error .badIndex
    else if 0 ≤ map core.toNat then .ok (false, map)
    else placeCores nrCores partitionId cores (Function.update map core.toNat partitionId)

def placePartitions (nrCores : Nat) :
    List Partition → (Nat → Int) → Except Fault (Bool × (Nat → Int))
  | [], map => .ok (true, map)
  | p :: ps, map => do
    let r ← placeCores nrCores p.partitionId p.partitionCores map
    if r.1 then placePartitions nrCores ps r.2 else pure (false, r.2)

/-- The return value and the map, which an error leaves half filled. -/
def abtstInitPartitions (nrCores : Nat) (parts : List Partition) :
    Except Fault (Int × (Nat → Int)) := do
  let r ← placePartitions nrCores parts (fun _ => -1)
  pure (if r.1 then 0 else -1, r.2)

def abtstInitRebalance (g : Global) : Global := { g with rebalance := ⟨1, 1⟩ }

def defaultParams : List Partition :=
  [⟨0, [2, 3, 4, 5, 6, 7, 8, 9]⟩, ⟨1, [10, 11, 12, 13, 14, 15, 16, 17]⟩]

def Env.config (env : Env) (parts : List Partition) (map : Nat → Int) : Config :=
  ⟨env.nrCores, env.nrNumas, env.numaInfo, parts, map⟩

/-- The return value, the layout and the global record, which is `none` if the
streams had to be freed. -/
def abtstInit (m : Machine) (abt : Nat → Bool) (param : Option (List Partition)) (g : Global) :
    Except Fault (Int × Config × Option Global) := do
  let parts := param.getD defaultParams
  let env ← abtstInitEnv m
  let r ← abtstInitPartitions env.nrCores parts
  let cfg := env.config parts r.2
  let streams := abtstInitStreams cfg abt (abtstInitPower cfg g)
  pure (0, cfg, streams.map abtstInitRebalance)

structure WellFormed (nrCores : Nat) (parts : List Partition) : Prop where
  once : (parts.flatMap Partition.partitionCores).Nodup
  cores : ∀ p ∈ parts, ∀ c ∈ p.partitionCores, 0 ≤ c ∧ c < nrCores
  ids : ∀ p ∈ parts, 0 ≤ p.partitionId ∧ p.partitionId < maxPartitions

/-- The used streams are those of the listed cores, with the partition that
lists them. -/
def Applied (nrCores : Nat) (parts : List Partition) (g : Global) : Prop :=
  ∀ c < nrCores, ((g.streams c).used = true ↔ ∃ p ∈ parts, (c : Int) ∈ p.partitionCores) ∧
    ∀ p ∈ parts, (c : Int) ∈ p.partitionCores → ((g.streams c).partId : Int) = p.partitionId

theorem placeCores_eq {nrCores : Nat} (id : Int) {cores : List Int} {map : Nat → Int}
    (hnd : cores.Nodup) (hc : ∀ c ∈ cores, 0 ≤ c ∧ c < nrCores)
    (hfree : ∀ c ∈ cores, map c.toNat < 0) :
    placeCores nrCores id cores map =
      .ok (true, fun x => if (x : Int) ∈ cores then id else map x) := by
  induction cores generalizing map with
  | nil => simp [placeCores]
  | cons c cs ih =>
    obtain ⟨hcs, hnd⟩ := List.nodup_cons.mp hnd
    obtain ⟨h0, hlt⟩ := hc c (by simp)
    have hmap := hfree c (by simp)
    have htail : ∀ d ∈ cs, Function.update map c.toNat id d.toNat < 0 := by
      intro d hd
      have hne : d.toNat ≠ c.toNat := by
        intro he
        have := (hc d (by simp [hd])).1
        exact hcs ((show d = c by omega) ▸ hd)
      rw [Function.update_of_ne hne]
      exact hfree d (by simp [hd])
    rw [placeCores, if_neg (by omega), if_neg (by omega),
      ih hnd (fun d hd => hc d (by simp [hd])) htail]
    simp only [Except.ok.injEq, Prod.mk.injEq, true_and, List.mem_cons]
    funext x
    by_cases hxc : (x : Int) = c
    · obtain rfl : x = c.toNat := by omega
      rw [Function.update_self, if_pos (Or.inl hxc), ite_self]
    · have hne : x ≠ c.toNat := by omega
      rw [Function.update_of_ne hne]
      simp [hxc]

theorem placePartitions_eq {nrCores : Nat} {parts : List Partition} (map : Nat → Int)
    (hnd : (parts.flatMap Partition.partitionCores).Nodup)
    (hc : ∀ p ∈ parts, ∀ c ∈ p.partitionCores, 0 ≤ c ∧ c < nrCores)
    (hfree : ∀ p ∈ parts, ∀ c ∈ p.partitionCores, map c.toNat < 0) :
    ∃ map', placePartitions nrCores parts map = .ok (true, map') ∧
      (∀ p ∈ parts, ∀ x : Nat, (x : Int) ∈ p.partitionCores → map' x = p.partitionId) ∧
      ∀ x : Nat, (∀ p ∈ parts, (x : Int) ∉ p.partitionCores) → map' x = map x := by
  induction parts generalizing map with
  | nil => exact ⟨map, rfl, by simp, by simp⟩
  | cons p ps ih =>
    rw [List.flatMap_cons] at hnd
    obtain ⟨hp, hps, hdis⟩ := List.nodup_append.mp hnd
    have hother : ∀ q ∈ ps, ∀ c ∈ q.partitionCores, c ∉ p.partitionCores :=
      fun q hq c hcq hcp => hdis c hcp c (List.mem_flatMap.mpr ⟨q, hq, hcq⟩) rfl
    have hhead := placeCores_eq p.partitionId hp (hc p (by simp)) (hfree p (by simp))
    have htail : ∀ q ∈ ps, ∀ c ∈ q.partitionCores,
        (fun x : Nat => if (x : Int) ∈ p.partitionCores then p.partitionId else map x) c.toNat < 0 := by
      intro q hq c hcq
      have h0 := (hc q (by simp [hq]) c hcq).1
      dsimp only
      rw [show ((c.toNat : Nat) : Int) = c by omega, if_neg (hother q hq c hcq)]
      exact hfree q (by simp [hq]) c hcq
    obtain ⟨map', heq, hin, hout⟩ :=
      ih (fun x => if (x : Int) ∈ p.partitionCores then p.partitionId else map x) hps
        (fun q hq => hc q (by simp [hq])) htail
    refine ⟨map', ?_, ?_, ?_⟩
    · rw [placePartitions, hhead]
      exact heq
    · intro q hq x hx
      rcases List.mem_cons.mp hq with rfl | hq
      · rw [hout x (fun r hr hxr => hother r hr x hxr hx), if_pos hx]
      · exact hin q hq x hx
    · intro x hx
      rw [hout x (fun q hq => hx q (by simp [hq])), if_neg (hx p (by simp))]

/-- Conversely, cores that are entered to the end are in range, free before and
listed once. -/
theorem placeCores_true {nrCores : Nat} {id : Int} {cores : List Int} {map map' : Nat → Int}
    (hid : 0 ≤ id) (h : placeCores nrCores id cores map = .ok (true, map')) :
    cores.Nodup ∧ ∀ c ∈ cores, (0 ≤ c ∧ c < nrCores) ∧ map c.toNat < 0 := by
  induction cores generalizing map with
  | nil => simp
  | cons c cs ih =>
    rw [placeCores] at h
    split_ifs at h with hrange htaken
    · simp at h
    · obtain ⟨hnd, hcs⟩ := ih h
      have hfree : ∀ d ∈ cs, d ≠ c ∧ map d.toNat < 0 := by
        intro d hd
        have hupd := (hcs d hd).2
        have hne : d.toNat ≠ c.toNat := by
          intro he
          rw [he, Function.update_self] at hupd
          omega
        rw [Function.update_of_ne hne] at hupd
        exact ⟨fun he => hne (by rw [he]), hupd⟩
      refine ⟨List.nodup_cons.mpr ⟨fun hc => (hfree c hc).1 rfl, hnd⟩, ?_⟩
      intro d hd
      rcases List.mem_cons.mp hd with rfl | hd
      · exact ⟨by omega, by omega⟩
      · exact ⟨(hcs d hd).1, (hfree d hd).2⟩

theorem placePartitions_true {nrCores : Nat} {parts : List Partition} {map map' : Nat → Int}
    (hids : ∀ p ∈ parts, 0 ≤ p.partitionId)
    (h : placePartitions nrCores parts map = .ok (true, map')) :
    (parts.flatMap Partition.partitionCores).Nodup ∧
      ∀ p ∈ parts, ∀ c ∈ p.partitionCores, (0 ≤ c ∧ c < nrCores) ∧ map c.toNat < 0 := by
  induction parts generalizing map with
  | nil => simp
  | cons p ps ih =>
    obtain ⟨⟨done, map₁⟩, hhead, htail⟩ := except_bind_eq_ok.mp h
    dsimp only at htail
    split_ifs at htail with hdone
    · subst hdone
      obtain ⟨hnd, hcores⟩ := placeCores_true (hids p (by simp)) hhead
      rw [placeCores_eq p.partitionId hnd (fun c hc => (hcores c hc).1) (fun c hc => (hcores c hc).2)]
        at hhead
      obtain ⟨hnds, hrest⟩ := ih (fun q hq => hids q (by simp [hq])) htail
      rw [← (Prod.mk.inj (Except.ok.inj hhead)).2] at hrest
      have hother : ∀ q ∈ ps, ∀ c ∈ q.partitionCores, c ∉ p.partitionCores ∧ map c.toNat < 0 := by
        intro q hq c hc
        obtain ⟨hrange, hneg⟩ := hrest q hq c hc
        dsimp only at hneg
        rw [show ((c.toNat : Nat) : Int) = c by omega] at hneg
        have hid := hids p (by simp)
        split_ifs at hneg with hmem
        · omega
        · exact ⟨hmem, hneg⟩
      constructor
      · rw [List.flatMap_cons, List.nodup_append]
        refine ⟨hnd, hnds, ?_⟩
        intro c hc d hd he
        obtain ⟨q, hq, hdq⟩ := List.mem_flatMap.mp hd
        exact (hother q hq d hdq).1 (he ▸ hc)
      · intro q hq c hc
        rcases List.mem_cons.mp hq with rfl | hq
        · exact hcores c hc
        · exact ⟨(hrest q hq c hc).1, (hother q hq c hc).2⟩
    · cases htail

/-- What is known of a configuration that `abtst_init_partitions` accepts. -/
theorem abtstInitPartitions_zero {nrCores : Nat} {parts : List Partition} {map : Nat → Int}
    (hids : ∀ p ∈ parts, 0 ≤ p.partitionId)
    (h : abtstInitPartitions nrCores parts = .ok (0, map)) :
    (parts.flatMap Partition.partitionCores).Nodup ∧
    (∀ p ∈ parts, ∀ c ∈ p.partitionCores, 0 ≤ c ∧ c < nrCores) ∧
    (∀ p ∈ parts, ∀ x : Nat, (x : Int) ∈ p.partitionCores → map x = p.partitionId) ∧
    ∀ x : Nat, (∀ p ∈ parts, (x : Int) ∉ p.partitionCores) → map x = -1 := by
  obtain ⟨⟨done, map'⟩, hplace, hret⟩ := except_bind_eq_ok.mp h
  obtain ⟨hdone, rfl⟩ := Prod.mk.inj (Except.ok.inj hret)
  cases done with
  | false => simp at hdone
  | true =>
    obtain ⟨hnd, hcores⟩ := placePartitions_true hids hplace
    obtain ⟨map', hplace', hin, hout⟩ := placePartitions_eq (fun _ => -1) hnd
      (fun p hp c hc => (hcores p hp c hc).1) (fun p hp c hc => (hcores p hp c hc).2)
    rw [hplace] at hplace'
    obtain rfl := (Prod.mk.inj (Except.ok.inj hplace')).2
    exact ⟨hnd, fun p hp c hc => (hcores p hp c hc).1, hin, hout⟩

/-- Cores in range are entered one by one, each into a free entry. -/
theorem placeCores_total {nrCores : Nat} (id : Int) {cores : List Int} (map : Nat → Int)
    (hc : ∀ c ∈ cores, 0 ≤ c ∧ c < nrCores) :
    ∃ done map', placeCores nrCores id cores map = .ok (done, map') ∧
      ∀ x : Nat, map' x = map x ∨ (map x < 0 ∧ (x : Int) ∈ cores ∧ map' x = id) := by
  induction cores generalizing map with
  | nil => exact ⟨true, map, rfl, fun x => Or.inl rfl⟩
  | cons c cs ih =>
    obtain ⟨h0, hlt⟩ := hc c (by simp)
    rw [placeCores, if_neg (by omega)]
    by_cases htaken : 0 ≤ map c.toNat
    · rw [if_pos htaken]
      exact ⟨false, map, rfl, fun x => Or.inl rfl⟩
    · rw [if_neg htaken]
      obtain ⟨done, map', heq, hmap⟩ := ih (Function.update map c.toNat id)
        (fun d hd => hc d (by simp [hd]))
      refine ⟨done, map', heq, fun x => ?_⟩
      by_cases hx : x = c.toNat
      · subst hx
        have hmem : ((c.toNat : Nat) : Int) ∈ c :: cs := by simp [Int.toNat_of_nonneg h0]
        have hval := hmap c.toNat
        rw [Function.update_self] at hval
        rcases hval with hval | ⟨_, _, hval⟩
        · exact Or.inr ⟨by omega, hmem, hval⟩
        · exact Or.inr ⟨by omega, hmem, hval⟩
      · have hval := hmap x
        rw [Function.update_of_ne hx] at hval
        rcases hval with hval | ⟨hneg, hmem, hval⟩
        · exact Or.inl hval
        · exact Or.inr ⟨hneg, by simp [hmem], hval⟩

/-- The loops come to an end or stop at a core that was entered before. An entry
is made by the first partition that lists the core. -/
theorem placePartitions_first {nrCores : Nat} {parts : List Partition} (map : Nat → Int)
    (hids : ∀ p ∈ parts, 0 ≤ p.partitionId)
    (hc : ∀ p ∈ parts, ∀ c ∈ p.partitionCores, 0 ≤ c ∧ c < nrCores) :
    ∃ done map', placePartitions nrCores parts map = .ok (done, map') ∧
      ∀ x : Nat, map' x = map x ∨ (map x < 0 ∧ ∃ p,
        parts.find? (fun p => (x : Int) ∈ p.partitionCores) = some p ∧ map' x = p.partitionId) := by
  induction parts generalizing map with
  | nil => exact ⟨true, map, rfl, fun x => Or.inl rfl⟩
  | cons p ps ih =>
    obtain ⟨done, map₁, hhead, hmap₁⟩ := placeCores_total p.partitionId map (hc p (by simp))
    have hfirst : ∀ x : Nat, (x : Int) ∈ p.partitionCores →
        (p :: ps).find? (fun p => (x : Int) ∈ p.partitionCores) = some p := by
      intro x hx
      simp [hx]
    cases done with
    | false =>
      refine ⟨false, map₁, by rw [placePartitions, hhead]; rfl, fun x => ?_⟩
      rcases hmap₁ x with hsame | ⟨hneg, hmem, hval⟩
      · exact Or.inl hsame
      · exact Or.inr ⟨hneg, p, hfirst x hmem, hval⟩
    | true =>
      obtain ⟨done, map', htail, hmap'⟩ := ih map₁ (fun q hq => hids q (by simp [hq]))
        (fun q hq => hc q (by simp [hq]))
      have hid := hids p (by simp)
      refine ⟨done, map', by rw [placePartitions, hhead]; exact htail, fun x => ?_⟩
      rcases hmap' x with hsame | ⟨hfree, q, hq, hval⟩
      · rw [hsame]
        rcases hmap₁ x with hsame | ⟨hneg, hmem, hval⟩
        · exact Or.inl hsame
        · exact Or.inr ⟨hneg, p, hfirst x hmem, hval⟩
      · -- a core that is still free after `p` is not one of its cores
        obtain ⟨hnd, hcores⟩ := placeCores_true hid hhead
        rw [placeCores_eq p.partitionId hnd (fun c hc => (hcores c hc).1)
          (fun c hc => (hcores c hc).2)] at hhead
        rw [← (Prod.mk.inj (Except.ok.inj hhead)).2] at hfree
        dsimp only at hfree
        split_ifs at hfree with hmem
        · omega
        · exact Or.inr ⟨hfree, q, by simpa [hmem] using hq, hval⟩

/-- A core that is listed twice is found, and nothing else is rejected. -/
theorem abtstInitPartitions_exact {nrCores : Nat} {parts : List Partition}
    (hids : ∀ p ∈ parts, 0 ≤ p.partitionId)
    (hcores : ∀ p ∈ parts, ∀ c ∈ p.partitionCores, 0 ≤ c ∧ c < nrCores) :
    ∃ ret map, abtstInitPartitions nrCores parts = .ok (ret, map) ∧
      (ret = 0 ↔ (parts.flatMap Partition.partitionCores).Nodup) ∧
      (ret = 0 → (∀ p ∈ parts, ∀ x : Nat, (x : Int) ∈ p.partitionCores → map x = p.partitionId) ∧
        ∀ x : Nat, (∀ p ∈ parts, (x : Int) ∉ p.partitionCores) → map x = -1) ∧
      (ret ≠ 0 → ret = -1 ∧ ∀ x : Nat, map x = -1 ∨ ∃ p,
        parts.find? (fun p => (x : Int) ∈ p.partitionCores) = some p ∧ map x = p.partitionId) := by
  obtain ⟨done, map, hplace, hmap⟩ := placePartitions_first (fun _ => -1) hids hcores
  have hrun : abtstInitPartitions nrCores parts = .ok (if done then 0 else -1, map) := by
    rw [abtstInitPartitions, hplace]
    rfl
  refine ⟨_, map, hrun, ⟨?_, ?_⟩, ?_, ?_⟩
  · intro hret
    rw [hret] at hrun
    exact (abtstInitPartitions_zero hids hrun).1
  · intro hnd
    obtain ⟨map', hplace', -⟩ := placePartitions_eq (fun _ => -1) hnd hcores (fun _ _ _ _ => by decide)
    rw [hplace] at hplace'
    rw [(Prod.mk.inj (Except.ok.inj hplace')).1]
    rfl
  · intro hret
    rw [hret] at hrun
    exact (abtstInitPartitions_zero hids hrun).2.2
  · intro hret
    constructor
    · split_ifs at hret ⊢
      · exact absurd rfl hret
      · rfl
    · intro x
      rcases hmap x with hsame | ⟨-, hfirst⟩
      · exact Or.inl hsame
      · exact Or.inr hfirst

/-- Core 2 is listed by two partitions. -/
def sharedCore : List Partition := [⟨5, [1, 2]⟩, ⟨3, [0, 2, 3]⟩]

theorem sharedCore_detected : ∃ map : Nat → Int,
    abtstInitPartitions 4 sharedCore = .ok (-1, map) ∧ (map 2 = -1 ∨ map 2 = 5) := by
  have hids : ∀ p ∈ sharedCore, 0 ≤ p.partitionId := by decide
  have hcores : ∀ p ∈ sharedCore, ∀ c ∈ p.partitionCores, 0 ≤ c ∧ c < (4 : Nat) := by decide
  obtain ⟨ret, map, hrun, hzero, -, hbad⟩ := abtstInitPartitions_exact hids hcores
  obtain ⟨rfl, hmap⟩ := hbad (fun h => absurd (hzero.mp h) (by decide))
  refine ⟨map, hrun, (hmap 2).imp_right ?_⟩
  rintro ⟨p, hp, hval⟩
  obtain rfl : (⟨5, [1, 2]⟩ : Partition) = p := Option.some.inj hp
  exact hval

theorem readNodes_nrCores {m : Machine} {is : List Nat} {env env' : Env}
    (h : readNodes m is env = .ok env') : env'.nrCores = env.nrCores := by
  induction is generalizing env with
  | nil => exact (Except.ok.inj h) ▸ rfl
  | cons i is ih =>
    rw [readNodes] at h
    cases hl : m.cpulist i with
    | none =>
      rw [hl] at h
      exact (Except.ok.inj h) ▸ rfl
    | some line =>
      rw [hl] at h
      dsimp only at h
      split_ifs at h with h8 hr
      · exact (Except.ok.inj h) ▸ rfl
      · exact (ih h).trans rfl

theorem abtstInitEnv_nrCores {m : Machine} {env : Env} (h : abtstInitEnv m = .ok env) :
    env.nrCores = u32 m.nrCores := by
  unfold abtstInitEnv at h
  dsimp only at h
  split_ifs at h with h1
  · exact readNodes_nrCores h
  · exact (Except.ok.inj h) ▸ rfl

/-- What start-up should do: return, and with the value 0 only for a fit
configuration that is then in force. -/
def StartsRight (m : Machine) (param : Option (List Partition)) (g : Global) : Prop :=
  ∃ ret cfg s, abtstInit m (fun _ => true) param g = .ok (ret, cfg, some s) ∧
    (ret = 0 → WellFormed (u32 m.nrCores) (param.getD defaultParams) ∧
      Applied (u32 m.nrCores) (param.getD defaultParams) s)

theorem abtstInitStreams_some (cfg : Config) (g : Global) :
    ∃ s, abtstInitStreams cfg (fun _ => true) g = some s ∧
      ∀ c < cfg.nrCores, s.streams c = initXstream (applyStreamConfig cfg c {}) c := by
  unfold abtstInitStreams
  simp only [Bool.true_or, List.all_eq_true, implies_true, if_true, Option.some.injEq]
  exact ⟨_, rfl, fun c hc => if_pos hc⟩

theorem abtstInitStreams_streams {cfg : Config} {abt : Nat → Bool} {g s : Global}
    (h : abtstInitStreams cfg abt g = some s) :
    s = { g with streams := fun c =>
      if c < cfg.nrCores then initXstream (applyStreamConfig cfg c {}) c else {} } := by
  unfold abtstInitStreams at h
  dsimp only at h
  split_ifs at h
  exact (Option.some.inj h).symm

theorem applied_of_map {parts : List Partition} {cfg : Config} {s : Global}
    (hids : ∀ p ∈ parts, 0 ≤ p.partitionId)
    (hin : ∀ p ∈ parts, ∀ x : Nat, (x : Int) ∈ p.partitionCores → cfg.partitionMap x = p.partitionId)
    (hout : ∀ x : Nat, (∀ p ∈ parts, (x : Int) ∉ p.partitionCores) → cfg.partitionMap x = -1)
    (hs : ∀ c < cfg.nrCores, s.streams c = initXstream (applyStreamConfig cfg c {}) c) :
    Applied cfg.nrCores parts s := by
  intro c hc
  rw [hs c hc]
  constructor
  · constructor
    · intro hu
      by_contra hnone
      have hmap := hout c (fun p hp hm => hnone ⟨p, hp, hm⟩)
      simp [initXstream, applyStreamConfig, hmap] at hu
    · rintro ⟨p, hp, hm⟩
      have hmap := hin p hp c hm
      simp [initXstream, applyStreamConfig, hmap, hids p hp]
  · intro p hp hm
    have hmap := hin p hp c hm
    have h0 := hids p hp
    simp [initXstream, applyStreamConfig, hmap, h0]

theorem abtstInit_ok {m : Machine} {abt : Nat → Bool} {param : Option (List Partition)}
    {g : Global} {ret : Int} {cfg : Config} {s : Option Global}
    (h : abtstInit m abt param g = .ok (ret, cfg, s)) :
    (∃ env, abtstInitEnv m = .ok env) ∧ ret = 0 := by
  obtain ⟨env, henv, h⟩ := except_bind_eq_ok.mp h
  obtain ⟨r, hr, h⟩ := except_bind_eq_ok.mp h
  have hzero : 0 = ret := congrArg Prod.fst (Except.ok.inj h)
  exact ⟨⟨env, henv⟩, hzero.symm⟩

/-- Start-up applies the configuration or fails exactly if the nodes are found
and the configuration is fit: `abtst_init` itself never reports a failure. -/
theorem startsRight_iff (m : Machine) (param : Option (List Partition)) (g : Global) :
    StartsRight m param g ↔
      (∃ env, abtstInitEnv m = .ok env) ∧ WellFormed (u32 m.nrCores) (param.getD defaultParams) := by
  constructor
  · rintro ⟨ret, cfg, s, h, hret⟩
    obtain ⟨henv, hzero⟩ := abtstInit_ok h
    exact ⟨henv, (hret hzero).1⟩
  · rintro ⟨⟨env, henv⟩, hw⟩
    have hcores := abtstInitEnv_nrCores henv
    unfold StartsRight
    rw [← hcores] at hw ⊢
    obtain ⟨map, hplace, hin, hout⟩ := placePartitions_eq (fun _ => -1) hw.once hw.cores
      (fun _ _ _ _ => by decide)
    have hparts : abtstInitPartitions env.nrCores (param.getD defaultParams) = .ok (0, map) := by
      unfold abtstInitPartitions
      rw [hplace]
      rfl
    obtain ⟨s, hs, hstreams⟩ := abtstInitStreams_some (env.config (param.getD defaultParams) map)
      (abtstInitPower (env.config (param.getD defaultParams) map) g)
    have happlied : Applied env.nrCores (param.getD defaultParams) s :=
      applied_of_map (fun p hp => (hw.ids p hp).1) hin hout hstreams
    refine ⟨0, env.config (param.getD defaultParams) map, abtstInitRebalance s, ?_,
      fun _ => ⟨hw, happlied⟩⟩
    unfold abtstInit
    dsimp only
    rw [henv]
    dsimp only [bind, Except.bind]
    rw [hparts]
    dsimp only
    rw [hs]
    rfl

/-- Core 2 is listed twice and core 3 after it. -/
def overlapping : List Partition := [⟨0, [1, 2]⟩, ⟨1, [2, 3]⟩]

/-- Start-up returns 0 for overlapping partitions and leaves core 3 out. -/
theorem overlap_returns_zero :
    (∃ cfg s, abtstInit ⟨4, none, fun _ => none⟩ (fun _ => true) (some overlapping) blank =
      .ok (0, cfg, some s) ∧ (s.streams 3).used = false) ∧
    ¬ WellFormed 4 overlapping ∧
    ¬ StartsRight ⟨4, none, fun _ => none⟩ (some overlapping) blank := by
  have hnot : ¬ WellFormed 4 overlapping := fun h => absurd h.once (by decide)
  refine ⟨?_, hnot, ?_⟩
  · have hrun : (match abtstInit ⟨4, none, fun _ => none⟩ (fun _ => true) (some overlapping) blank with
        | .ok (ret, _, some s) => decide (ret = 0) && !(s.streams 3).used
        | _ => false) = true := by decide +kernel
    split at hrun
    · rename_i ret cfg s h
      simp only [Bool.and_eq_true, decide_eq_true_eq, Bool.not_eq_true'] at hrun
      exact ⟨cfg, s, by rw [h, hrun.1], hrun.2⟩
    · cases hrun
  · rintro ⟨ret, cfg, s, h, hret⟩
    have hw := (hret (abtstInit_ok h).2).1
    have hfour : u32 4 = 4 := u32_of_lt (n := 4) (by decide)
    rw [show ((4 : Nat) : Int) = 4 from rfl, hfour] at hw
    exact hnot hw

end AbtSt
