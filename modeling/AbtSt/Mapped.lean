import AbtSt.Placement

/-! The state after start-up: every load created by a mapping is linked into a
stream of its partition, its unit is in the pool of that stream and it is not
migrating. -/

namespace AbtSt

structure Laid (cfg : Config) (g : Global) (S : LoadId → Prop) : Prop where
  linked : Linked cfg g S
  confined : Confined g
  pool : ∀ c l, (g.streams c).pool.count (.sched l) = if l ∈ (g.streams c).loadQ then 1 else 0
  home : ∀ c l, l ∈ (g.streams c).loadQ →
    (g.loads l).initRank = (g.streams c).rank ∧ (g.loads l).currRank = (g.streams c).rank

def placeLoad (g : Global) (c : Nat) (l : LoadId) : Global :=
  abtstAddLoadToStream (abtPoolAddSched (initLoad g l (g.streams c).rank) c l) c l

theorem placeLoad_same (g : Global) (c : Nat) (l : LoadId) :
    (placeLoad g c l).streams c = { g.streams c with
      pool := (g.streams c).pool ++ [.sched l]
      loadQ := l :: (g.streams c).loadQ
      nrLoads := (g.streams c).nrLoads + 1 } := by
  simp [placeLoad, abtstAddLoadToStream, abtPoolAddSched, initLoad, Global.setStream, Global.setLoad]

theorem placeLoad_other (g : Global) {c d : Nat} (h : d ≠ c) (l : LoadId) :
    (placeLoad g c l).streams d = g.streams d := by
  simp [placeLoad, abtstAddLoadToStream, abtPoolAddSched, initLoad, Global.setStream, Global.setLoad, h]

theorem placeLoad_loads (g : Global) (c : Nat) (l : LoadId) :
    (placeLoad g c l).loads = Function.update g.loads l
      { loadId := l.index, initRank := (g.streams c).rank, currRank := (g.streams c).rank,
        destRank := (g.streams c).rank } := rfl

theorem placeLoad_shape (g : Global) (c : Nat) (l : LoadId) (d : Nat) :
    ((placeLoad g c l).streams d).rank = (g.streams d).rank ∧
    ((placeLoad g c l).streams d).used = (g.streams d).used ∧
    ((placeLoad g c l).streams d).partId = (g.streams d).partId := by
  by_cases h : d = c
  · subst h
    rw [placeLoad_same]
    exact ⟨rfl, rfl, rfl⟩
  · rw [placeLoad_other g h]
    exact ⟨rfl, rfl, rfl⟩

theorem mem_placeLoad_loadQ (g : Global) (c : Nat) (l : LoadId) (d : Nat) (m : LoadId) :
    m ∈ ((placeLoad g c l).streams d).loadQ ↔ (m = l ∧ d = c) ∨ m ∈ (g.streams d).loadQ := by
  by_cases h : d = c
  · subst h
    rw [placeLoad_same]
    simp
  · rw [placeLoad_other g h]
    simp [h]

theorem Linked.placeLoad {cfg : Config} {g : Global} {S : LoadId → Prop} (h : Linked cfg g S)
    {c : Nat} {l : LoadId} (hu : (g.streams c).used = true) (hl : ¬ S l) :
    Linked cfg (placeLoad g c l) (fun m => S m ∨ m = l) := by
  have hnot : ∀ d, l ∉ (g.streams d).loadQ := fun d hd => hl ((h.mem_iff l).mpr ⟨d, hd⟩)
  have hmem := mem_placeLoad_loadQ g c l
  refine ⟨?_, ?_, ?_, ?_, ?_, ?_, ?_, ?_⟩
  · intro d hd
    rw [(placeLoad_shape g c l d).1]
    exact h.rank d hd
  · intro d
    rw [(placeLoad_shape g c l d).2.1]
    exact h.used_lt d
  · intro d
    by_cases hd : d = c
    · subst hd
      rw [placeLoad_same]
      exact List.nodup_cons.mpr ⟨hnot d, h.nodup d⟩
    · rw [placeLoad_other g hd]
      exact h.nodup d
  · intro d e m hd he
    rcases (hmem d m).mp hd with ⟨rfl, rfl⟩ | hqd
    · rcases (hmem e m).mp he with ⟨_, rfl⟩ | hqe
      · rfl
      · exact absurd hqe (hnot e)
    · rcases (hmem e m).mp he with ⟨rfl, _⟩ | hqe
      · exact absurd hqd (hnot d)
      · exact h.unique d e m hqd hqe
  · intro d m hd
    rw [(placeLoad_shape g c l d).2.1]
    rcases (hmem d m).mp hd with ⟨_, rfl⟩ | hd
    · exact hu
    · exact h.used d m hd
  · intro d
    by_cases hd : d = c
    · subst hd
      rw [placeLoad_same]
      simp [h.count d]
    · rw [placeLoad_other g hd]
      exact h.count d
  · intro d m hd
    rw [(placeLoad_shape g c l d).1, placeLoad_loads]
    rcases (hmem d m).mp hd with ⟨rfl, rfl⟩ | hd
    · simp
    · have hne : m ≠ l := fun he => hnot d (he ▸ hd)
      simpa [hne] using h.dest d m hd
  · intro m
    simp only [hmem]
    constructor
    · rintro (hm | rfl)
      · obtain ⟨d, hd⟩ := (h.mem_iff m).mp hm
        exact ⟨d, Or.inr hd⟩
      · exact ⟨c, Or.inl ⟨rfl, rfl⟩⟩
    · rintro ⟨d, ⟨rfl, _⟩ | hd⟩
      · exact Or.inr rfl
      · exact Or.inl ((h.mem_iff m).mpr ⟨d, hd⟩)

theorem Laid.placeLoad {cfg : Config} {g : Global} {S : LoadId → Prop} (h : Laid cfg g S)
    {c : Nat} {l : LoadId} (hu : (g.streams c).used = true) (hl : ¬ S l)
    (hp : (g.streams c).partId = (g.mappings l.mapping).partitionId) :
    Laid cfg (placeLoad g c l) (fun m => S m ∨ m = l) := by
  have hnot : ∀ d, l ∉ (g.streams d).loadQ := fun d hd => hl ((h.linked.mem_iff l).mpr ⟨d, hd⟩)
  have hmem := mem_placeLoad_loadQ g c l
  refine ⟨h.linked.placeLoad hu hl, ?_, ?_, ?_⟩
  · intro d m hd
    rw [(placeLoad_shape g c l d).2.2]
    rcases (hmem d m).mp hd with ⟨rfl, rfl⟩ | hd
    · exact hp
    · exact h.confined d m hd
  · intro d m
    by_cases hd : d = c
    · subst hd
      rw [placeLoad_same]
      simp only [List.count_append, h.pool, List.mem_cons]
      by_cases hm : m = l
      · subst hm
        simp [hnot d]
      · have hm' : ¬ l = m := fun he => hm he.symm
        simp [hm, hm']
    · rw [placeLoad_other g hd]
      exact h.pool d m
  · intro d m hd
    rw [(placeLoad_shape g c l d).1, placeLoad_loads]
    rcases (hmem d m).mp hd with ⟨rfl, rfl⟩ | hd
    · simp
    · have hne : m ≠ l := fun he => hnot d (he ▸ hd)
      simpa [hne] using h.home d m hd

def upTo (S : LoadId → Prop) (m i : Nat) (l : LoadId) : Prop := S l ∨ (l.mapping = m ∧ l.index < i)

theorem initLoadsLoop_laid {cfg : Config} {abt : Nat → AbtCall → Bool} {m : Nat}
    {S : LoadId → Prop} (hS : ∀ l, S l → l.mapping ≠ m) (n i start : Nat) {g g' : Global}
    (h : Laid cfg g (upTo S m i))
    (he : initLoadsLoop cfg abt m (g.mappings m).partitionId n i start g = (true, g')) :
    Laid cfg g' (upTo S m (i + n)) ∧ g'.nrMappings = g.nrMappings ∧ g'.mappings = g.mappings ∧
      g'.power = g.power ∧ ∀ c, (g'.streams c).used = (g.streams c).used ∧
        (g'.streams c).partId = (g.streams c).partId := by
  induction n generalizing i start g with
  | zero =>
    obtain rfl : g = g' := (Prod.mk.inj he).2
    exact ⟨h, rfl, rfl, rfl, fun _ => ⟨rfl, rfl⟩⟩
  | succ n ih =>
    rw [initLoadsLoop] at he
    cases hf : findNextStream cfg g (g.mappings m).partitionId start with
    | none => simp [hf] at he
    | some c =>
      have hin : (g.streams c).used = true ∧ (g.streams c).partId = (g.mappings m).partitionId := by
        have := List.find?_some hf
        simpa [Global.inPart] using this
      rw [hf] at he
      dsimp only at he
      split_ifs at he
      · simp at he
      · simp at he
      · simp at he
      · have hnew : ¬ upTo S m i ⟨m, i⟩ := by
          rintro (hs | ⟨_, hlt⟩)
          · exact hS _ hs rfl
          · exact absurd hlt (Nat.lt_irrefl i)
        have hlaid := h.placeLoad (l := ⟨m, i⟩) hin.1 hnew hin.2
        have hset : (fun l => upTo S m i l ∨ l = ⟨m, i⟩) = upTo S m (i + 1) := by
          funext l
          obtain ⟨lm, li⟩ := l
          simp only [upTo, LoadId.mk.injEq, eq_iff_iff]
          constructor
          · rintro ((hs | hlt) | ⟨rfl, rfl⟩)
            · exact Or.inl hs
            · exact Or.inr ⟨hlt.1, by omega⟩
            · exact Or.inr ⟨rfl, by omega⟩
          · rintro (hs | ⟨rfl, hlt⟩)
            · exact Or.inl (Or.inl hs)
            · by_cases hi : li = i
              · exact Or.inr ⟨rfl, hi⟩
              · exact Or.inl (Or.inr ⟨rfl, by omega⟩)
        rw [hset] at hlaid
        obtain ⟨h1, h2, h3, h4, h5⟩ := ih (i + 1) _ hlaid he
        refine ⟨by rw [show i + (n + 1) = i + 1 + n by omega]; exact h1, h2, h3, h4, ?_⟩
        intro d
        have hd := placeLoad_shape g c ⟨m, i⟩ d
        exact ⟨(h5 d).1.trans hd.2.1, (h5 d).2.trans hd.2.2⟩

def AllAwake (cfg : Config) (g : Global) : Prop :=
  g.power.nrPsNumas = 0 ∧ ∀ n < cfg.nrNumas, g.power.psState n = false

structure Initial (cfg : Config) (g : Global) : Prop where
  laid : Laid cfg g g.Created
  parts : PartsInRange cfg g
  awake : AllAwake cfg g
  used : ∀ c, (g.streams c).used = true → 0 ≤ cfg.partitionMap c

theorem initial_start {cfg : Config} (hv : cfg.Valid) {abt : Nat → Bool} {g g' : Global}
    (hm : g.nrMappings = 0) (h : abtstInitStreams cfg abt (abtstInitPower cfg g) = some g') :
    Initial cfg g' := by
  unfold abtstInitStreams at h
  dsimp only at h
  split_ifs at h
  obtain rfl := Option.some.inj h
  have hq : ∀ c, (if c < cfg.nrCores then initXstream (applyStreamConfig cfg c {}) c else {}).loadQ = [] := by
    intro c
    split_ifs <;> rfl
  have hpool : ∀ c, (if c < cfg.nrCores then initXstream (applyStreamConfig cfg c {}) c else {}).pool = [] := by
    intro c
    unfold initXstream applyStreamConfig
    split_ifs <;> rfl
  refine ⟨⟨⟨?_, ?_, ?_, ?_, ?_, ?_, ?_, ?_⟩, ?_, ?_, ?_⟩, ?_, ⟨rfl, ?_⟩, ?_⟩
  · intro c hc
    simp [hc, initXstream]
  · intro c hc
    by_contra hlt
    simp [hlt] at hc
  · intro c
    simp [hq]
  · intro c d l hc
    simp [hq] at hc
  · intro c l hc
    simp [hq] at hc
  · intro c
    dsimp only
    split_ifs <;> simp [initXstream]
  · intro c l hc
    simp [hq] at hc
  · intro l
    simp [Global.Created, abtstInitPower, hm, hq]
  · intro c l hc
    simp [hq] at hc
  · intro c l
    simp [hq, hpool]
  · intro c l hc
    simp [hq] at hc
  · intro c hc
    by_cases hlt : c < cfg.nrCores
    · have hp := hv.partitionMap_lt c hlt
      by_cases h0 : 0 ≤ cfg.partitionMap c
      · simp only [hlt, if_true, initXstream, applyStreamConfig, h0]
        omega
      · simp [hlt, initXstream, applyStreamConfig, h0] at hc
    · simp [hlt] at hc
  · intro n hn
    simp [abtstInitPower, hn]
  · intro c hc
    by_contra h0
    by_cases hlt : c < cfg.nrCores
    · simp [hlt, initXstream, applyStreamConfig, h0] at hc
    · simp [hlt] at hc

def nextMapping (g : Global) (x : Mapping) : Global :=
  { g with
    nrMappings := g.nrMappings + 1
    mappings := Function.update g.mappings g.nrMappings x
    loads := fun l => if l.mapping = g.nrMappings then {} else g.loads l }

theorem abtstInitLoads_next (cfg : Config) (abt : Nat → AbtCall → Bool) (g : Global) (x : Mapping) :
    abtstInitLoads cfg abt g.nrMappings
      (({ g with nrMappings := g.nrMappings + 1 } : Global).setMapping g.nrMappings x) =
    initLoadsLoop cfg abt g.nrMappings ((nextMapping g x).mappings g.nrMappings).partitionId
      x.nrLoads 0 0 (nextMapping g x) := by
  simp [abtstInitLoads, nextMapping, Global.setMapping]

theorem Laid.nextMapping {cfg : Config} {g : Global} (h : Laid cfg g g.Created) (x : Mapping) :
    Laid cfg (nextMapping g x) (upTo g.Created g.nrMappings 0) := by
  have hl := h.linked
  have hold : ∀ c l, l ∈ (g.streams c).loadQ → l.mapping ≠ g.nrMappings := by
    intro c l hq
    have hlt := ((hl.mem_iff l).mpr ⟨c, hq⟩).1
    omega
  refine ⟨⟨hl.rank, hl.used_lt, hl.nodup, hl.unique, hl.used, hl.count, ?_, ?_⟩, ?_, h.pool, ?_⟩
  · intro c l hq
    simpa [AbtSt.nextMapping, hold c l hq] using hl.dest c l hq
  · intro l
    simpa [upTo, AbtSt.nextMapping] using hl.mem_iff l
  · intro c l hq
    simpa [AbtSt.nextMapping, hold c l hq] using h.confined c l hq
  · intro c l hq
    simpa [AbtSt.nextMapping, hold c l hq] using h.home c l hq

theorem Initial.created {cfg : Config} {abt : Nat → AbtCall → Bool} {x : Mapping} {g g' : Global}
    (hi : Initial cfg g)
    (h : abtstInitLoads cfg abt g.nrMappings
      (({ g with nrMappings := g.nrMappings + 1 } : Global).setMapping g.nrMappings x) = (true, g')) :
    Initial cfg g' := by
  rw [abtstInitLoads_next] at h
  obtain ⟨h1, h2, h3, h4, h5⟩ :=
    initLoadsLoop_laid (fun l hl => Nat.ne_of_lt hl.1) _ 0 0 (hi.laid.nextMapping x) h
  have hset : upTo g.Created g.nrMappings (0 + x.nrLoads) = g'.Created := by
    funext l
    simp only [upTo, Global.Created, h2, h3, nextMapping, Nat.zero_add, eq_iff_iff]
    by_cases hm : l.mapping = g.nrMappings
    · simp [hm]
    · have hlt : l.mapping < g.nrMappings + 1 ↔ l.mapping < g.nrMappings := by omega
      simp [hm, hlt]
  refine ⟨by rw [← hset]; exact h1, ?_, ?_, ?_⟩
  · intro c hc
    rw [(h5 c).2]
    exact hi.parts c (by rw [(h5 c).1] at hc; exact hc)
  · unfold AllAwake
    rw [h4]
    exact hi.awake
  · intro c hc
    exact hi.used c (by rw [(h5 c).1] at hc; exact hc)

theorem initial_create {cfg : Config} {abt : Nat → AbtCall → Bool} {type partid : Nat} {id : Int}
    {g g' : Global} (hi : Initial cfg g)
    (h : abtstCreateMapping cfg abt type partid g = .ok (id, g')) (hid : 0 ≤ id) :
    Initial cfg g' := by
  unfold abtstCreateMapping at h
  by_cases hfull : maxMappings ≤ g.nrMappings
  · rw [if_pos hfull] at h
    cases h
  · rw [if_neg hfull] at h
    cases hpart : cfg.partitions[partid]? with
    | none =>
      rw [hpart] at h
      cases h
    | some part =>
      rw [hpart] at h
      dsimp only at h
      cases hn : mappingLoads cfg type part.partitionCores.length with
      | none =>
        rw [hn] at h
        dsimp only at h
        have := (Prod.mk.inj (Except.ok.inj h)).1
        omega
      | some nrLoads =>
        rw [hn] at h
        dsimp only at h
        obtain ⟨hret, hstate⟩ := Prod.mk.inj (Except.ok.inj h)
        have hrun : abtstInitLoads cfg abt g.nrMappings
            (({ g with nrMappings := g.nrMappings + 1 } : Global).setMapping g.nrMappings
              ⟨partid, type, nrLoads⟩) = (true, g') := by
          refine Prod.ext ?_ hstate
          by_contra hfalse
          rw [if_neg hfalse] at hret
          omega
        exact hi.created hrun

theorem Mapped.initial {cfg : Config} (hv : cfg.Valid) {g : Global} (h : Mapped cfg g) :
    Initial cfg g := by
  induction h with
  | start hm h => exact initial_start hv hm h
  | create _ h hid ih => exact initial_create ih h hid

end AbtSt
