import AbtSt.Sched
import AbtSt.Mapped

/-! Where the unit of each load is: in the pool of a stream or in the hands of
its scheduler. One step of any party either leaves every unit, rank and queue
alone or is one of a few moves, and under every interleaving a unit is at one
place at most. -/

namespace AbtSt

def Pc.leaving : Pc → Option LoadId
  | .updated l _ _ => some l
  | _ => none

def Pc.holds (pc : Pc) (l : LoadId) : Nat := if pc.unit = some (.sched l) then 1 else 0

/-- The number of places of a stream at which the unit of a load is. -/
def Sys.located (s : Sys) (l : LoadId) (c : Nat) : Nat :=
  (s.g.streams c).pool.count (.sched l) + (s.scheds c).pc.holds l

theorem unit_of_leaving {pc : Pc} {l : LoadId} (h : pc.leaving = some l) : pc.unit = some (.sched l) := by
  cases pc with
  | updated m n i => simpa [Pc.leaving, Pc.unit] using h
  | _ => cases h

theorem handing_of_unit {pc : Pc} (h : pc.unit = none) : pc.handing = false := by
  cases pc with
  | migrating l n => cases h
  | confirmed l n => cases h
  | computed l n i => cases h
  | argument l n i r => cases h
  | updated l n i => cases h
  | _ => rfl

structure SameSites (s t : Sys) : Prop where
  located : ∀ l c, t.located l c = s.located l c
  currRank : ∀ l, (t.g.loads l).currRank = (s.g.loads l).currRank
  queues : SameQueues s.g t.g
  reb : t.reb = s.reb
  dropped : t.dropped = s.dropped
  forwards : t.forwards = s.forwards
  wild : t.wild = s.wild
  stopping : s.stopping = true → t.stopping = true
  handing : ∀ c, (t.scheds c).pc.handing = true → (t.scheds c).pc = (s.scheds c).pc
  leaving : ∀ c, (s.scheds c).pc.leaving ≠ none → (t.scheds c).pc = (s.scheds c).pc

theorem SameQueues.refl (g : Global) : SameQueues g g :=
  ⟨fun _ => rfl, fun _ => rfl, fun _ => rfl, fun _ => rfl, fun _ => rfl, rfl, rfl⟩

theorem SameQueues.trans {g s t : Global} (h : SameQueues g s) (h' : SameQueues s t) :
    SameQueues g t :=
  ⟨fun c => (h'.rank c).trans (h.rank c), fun c => (h'.used c).trans (h.used c),
    fun c => (h'.loadQ c).trans (h.loadQ c), fun c => (h'.nrLoads c).trans (h.nrLoads c),
    fun l => (h'.destRank l).trans (h.destRank l), h'.nrMappings.trans h.nrMappings,
    h'.mappings.trans h.mappings⟩

theorem setLoad_keeps {α : Type} {f : Load → α} (s : Sys) (l : LoadId) {x : Load}
    (hx : f x = f (s.g.loads l)) (m : LoadId) : f ((s.setLoad l x).g.loads m) = f (s.g.loads m) := by
  by_cases hm : m = l
  · subst hm
    simpa [Sys.setLoad, Global.setLoad] using hx
  · simp [Sys.setLoad, Global.setLoad, hm]

theorem SameSites.trans {s t u : Sys} (h : SameSites s t) (h' : SameSites t u) : SameSites s u := by
  refine ⟨fun l c => (h'.located l c).trans (h.located l c), fun l => (h'.currRank l).trans (h.currRank l),
    h.queues.trans h'.queues, h'.reb.trans h.reb, h'.dropped.trans h.dropped,
    h'.forwards.trans h.forwards, h'.wild.trans h.wild, fun hs => h'.stopping (h.stopping hs), ?_, ?_⟩
  · intro c hc
    have heq := h'.handing c hc
    rw [heq]
    exact h.handing c (by rw [← heq]; exact hc)
  · intro c hc
    have heq := h.leaving c hc
    rw [← heq]
    exact h'.leaving c (by rw [heq]; exact hc)

theorem located_congr {s t : Sys} {l : LoadId} {c : Nat}
    (hp : (t.g.streams c).pool.count (.sched l) = (s.g.streams c).pool.count (.sched l))
    (hu : (t.scheds c).pc.unit = (s.scheds c).pc.unit) : t.located l c = s.located l c := by
  rw [Sys.located, Sys.located, Pc.holds, Pc.holds, hp, hu]

theorem located_setSched (s : Sys) (c : Nat) (q : Sched) (l : LoadId) :
    (s.setSched c q).located l c = (s.g.streams c).pool.count (.sched l) + q.pc.holds l := by
  simp [Sys.located, Sys.setSched]

theorem located_setSched_of_ne (s : Sys) {c d : Nat} (h : d ≠ c) (q : Sched) (l : LoadId) :
    (s.setSched c q).located l d = s.located l d := by
  simp [Sys.located, Sys.setSched, h]

theorem located_setPc (s : Sys) {c : Nat} {pc : Pc} (h : pc.unit = (s.scheds c).pc.unit)
    (l : LoadId) (d : Nat) : (s.setPc c pc).located l d = s.located l d := by
  by_cases hd : d = c
  · subst hd
    rw [Sys.setPc, located_setSched, Sys.located, Pc.holds, Pc.holds, h]
  · exact located_setSched_of_ne s hd _ l

theorem sites_setSched (s : Sys) (c : Nat) (q : Sched)
    (hu : ∀ l, q.pc.unit = some (.sched l) ↔ (s.scheds c).pc.unit = some (.sched l))
    (hh : q.pc.handing = false) (hl : (s.scheds c).pc.leaving = none) :
    SameSites s (s.setSched c q) := by
  refine ⟨?_, fun _ => rfl, .refl _, rfl, rfl, rfl, rfl, fun hs => hs, ?_, ?_⟩
  · intro l d
    by_cases hd : d = c
    · subst hd
      rw [located_setSched, Sys.located]
      simp only [Pc.holds, hu]
    · exact located_setSched_of_ne s hd q l
  · intro d hd
    by_cases hdc : d = c
    · subst hdc
      simp [Sys.setSched, hh] at hd
    · simp [Sys.setSched, hdc]
  · intro d hd
    have hdc : d ≠ c := fun he => hd (by rw [he]; exact hl)
    simp [Sys.setSched, hdc]

theorem sites_setPc (s : Sys) (c : Nat) (pc : Pc) (hu : pc.unit = (s.scheds c).pc.unit)
    (hh : pc.handing = false) (hl : (s.scheds c).pc.leaving = none) : SameSites s (s.setPc c pc) :=
  sites_setSched s c _ (fun l => by rw [hu]) hh hl

theorem sites_setLoad (s : Sys) (l : LoadId) (x : Load) (hc : x.currRank = (s.g.loads l).currRank)
    (hd : x.destRank = (s.g.loads l).destRank) : SameSites s (s.setLoad l x) := by
  refine ⟨fun _ _ => rfl, ?_, ⟨fun _ => rfl, fun _ => rfl, fun _ => rfl, fun _ => rfl, ?_, rfl, rfl⟩,
    rfl, rfl, rfl, rfl, fun hs => hs, fun _ _ => rfl, fun _ _ => rfl⟩
  · intro m
    by_cases hm : m = l
    · subst hm
      simpa [Sys.setLoad, Global.setLoad] using hc
    · simp [Sys.setLoad, Global.setLoad, hm]
  · intro m
    by_cases hm : m = l
    · subst hm
      simpa [Sys.setLoad, Global.setLoad] using hd
    · simp [Sys.setLoad, Global.setLoad, hm]

theorem setStream_queues (g : Global) (c : Nat) (x : Stream) (hr : x.rank = (g.streams c).rank)
    (hu : x.used = (g.streams c).used) (hq : x.loadQ = (g.streams c).loadQ)
    (hn : x.nrLoads = (g.streams c).nrLoads) : SameQueues g (g.setStream c x) := by
  refine ⟨?_, ?_, ?_, ?_, fun _ => rfl, rfl, rfl⟩ <;> intro d <;> by_cases hd : d = c
  all_goals first
    | (subst hd; simpa [Global.setStream])
    | simp [Global.setStream, hd]

theorem sites_setPool (s : Sys) (c : Nat) (pool : List PoolUnit) (q : Sched)
    (hcount : ∀ l, pool.count (.sched l) + q.pc.holds l = s.located l c)
    (hh : q.pc.handing = false) (hl : (s.scheds c).pc.leaving = none) :
    SameSites s ((s.setPool c pool).setSched c q) := by
  refine ⟨?_, fun _ => rfl, setStream_queues s.g c _ rfl rfl rfl rfl, rfl, rfl, rfl, rfl,
    fun hs => hs, ?_, ?_⟩
  · intro l d
    by_cases hd : d = c
    · subst hd
      rw [located_setSched, ← hcount l]
      simp [Sys.setPool, Global.setStream]
    · rw [located_setSched_of_ne _ hd]
      exact located_congr (by simp [Sys.setPool, Global.setStream, hd]) rfl
  · intro d hd
    by_cases hdc : d = c
    · subst hdc
      simp [Sys.setSched, hh] at hd
    · simp [Sys.setSched, Sys.setPool, hdc]
  · intro d hd
    have hdc : d ≠ c := fun he => hd (by rw [he]; exact hl)
    simp [Sys.setSched, Sys.setPool, hdc]

theorem serve_sites {s : Sys} {c : Nat} {l : LoadId} (n : Nat)
    (h : (s.scheds c).pc.unit = some (.sched l)) (hl : (s.scheds c).pc.leaving = none) :
    SameSites s (serve c l n s) := by
  unfold serve
  by_cases hw : (s.g.loads l).pool ≠ [] ∨ (s.g.loads l).used = false
  · rw [if_pos hw]
    refine (sites_setLoad s l { s.g.loads l with used := true } rfl rfl).trans
      (sites_setSched _ c _ (fun m => ?_) rfl hl)
    change some (PoolUnit.sched l) = _ ↔ (s.scheds c).pc.unit = _
    rw [h]
  · rw [if_neg hw]
    exact sites_setPc s c _ h.symm rfl hl

theorem subSchedRun_sites {s : Sys} {c k n : Nat} {l : LoadId}
    (h : (s.scheds c).pc = .running l k n) : SameSites s (subSchedRun c l k n s) := by
  have hstep := subSchedRun_cases c l k n s
  generalize subSchedRun c l k n s = t at hstep ⊢
  cases hstep with
  | full => exact sites_setPc s c _ (by rw [h]; rfl) rfl (by rw [h]; rfl)
  | idle => exact sites_setPc s c _ (by rw [h]; rfl) rfl (by rw [h]; rfl)
  | again => exact sites_setPc s c _ (by rw [h]; rfl) rfl (by rw [h]; rfl)
  | @run x rest =>
    have hpc : ((s.setLoad l { s.g.loads l with pool := rest }).scheds c).pc = .running l k n := h
    exact (sites_setLoad s l { s.g.loads l with pool := rest } rfl rfl).trans
      (sites_setPc _ c _ (by rw [hpc]; rfl) rfl (by rw [hpc]; rfl))

/-- A unit that was served while the system is stopping is not pushed back. -/
def Drops (s : Sys) (c : Nat) (t : Sys) : Prop :=
  ∃ l n q, s.stopping = true ∧ (s.scheds c).pc = .served l n ∧ q.pc = .pushed n ∧
    t = { s with dropped := l :: s.dropped }.setSched c q

/-- What one step does to the places of the units, to the ranks and to the
queues, when each read of the target is a step of its own. -/
inductive Move (cfg : Config) (s : Sys) : Label → Sys → Prop
  | same {a : Label} {t : Sys} : SameSites s t → Move cfg s a t
  | drop {c n : Nat} {b : Bool} {l : LoadId} {q : Sched} : s.stopping = true →
      (s.scheds c).pc = .served l n → q.pc = .pushed n →
      Move cfg s (.sched c b) ({ s with dropped := l :: s.dropped }.setSched c q)
  | test {c : Nat} {b : Bool} {pc : Pc} {l : LoadId} {n : Nat} :
      (s.scheds c).pc.unit = some (.sched l) → pc = .migrating l n ∨ pc = .confirmed l n →
      (s.scheds c).pc.leaving = none → Move cfg s (.sched c b) (s.setPc c pc)
  | compute {c n : Nat} {b : Bool} {l : LoadId} : (s.scheds c).pc = .confirmed l n →
      Move cfg s (.sched c b) (s.setPc c (.computed l n (newStream s c l)))
  | readDest {c n : Nat} {b : Bool} {l : LoadId} {i : Int} : (s.scheds c).pc = .computed l n i →
      Move cfg s (.sched c b) (s.setPc c (.argument l n i (s.g.loads l).destRank))
  | update {c n r : Nat} {b : Bool} {l : LoadId} {i : Int} : (s.scheds c).pc = .argument l n i r →
      Move cfg s (.sched c b) ((updateCurrRank s l r).setPc c (.updated l n i))
  | push {c n : Nat} {b : Bool} {l : LoadId} {i : Int} : (s.scheds c).pc = .updated l n i →
      Move cfg s (.sched c b) ((s.pushAt cfg i (.sched l)).setPc c .inner)
  | relink {l : LoadId} {src dst : Nat} : s.reb = none → l ∈ (s.g.streams src).loadQ →
      (s.g.streams dst).used = true → src ≠ dst →
      Move cfg s (.relink l src dst) { s with
        g := abtstAddLoadToStream (abtstRemoveLoadFromStream s.g src l) dst l
        reb := some (l, (s.g.streams dst).rank) }
  | setDest {l : LoadId} {r : Nat} : s.reb = some (l, r) →
      Move cfg s .setDest { s with g := abtstLoadSetMigrating s.g l r, reb := none }

theorem pushBack_sites {s : Sys} {c n : Nat} {l : LoadId} (h : (s.scheds c).pc = .served l n) :
    SameSites s (pushBack c l n s) ∨ Drops s c (pushBack c l n s) := by
  unfold pushBack
  dsimp only
  by_cases hs : s.stopping = true
  · rw [if_pos hs]
    exact Or.inr ⟨l, n, _, hs, h, rfl, rfl⟩
  · rw [if_neg hs]
    refine Or.inl (sites_setPool s c _ _ (fun m => ?_) rfl (by rw [h]; rfl))
    rw [List.count_append, Sys.located, h]
    by_cases hm : m = l
    · subst hm
      simp [Pc.holds, Pc.unit]
    · have hm' : ¬ l = m := fun he => hm he.symm
      simp [Pc.holds, Pc.unit, hm']

theorem baseStep_sites {s t : Sys} {c : Nat} (h : BaseStep c s t) : SameSites s t ∨ Drops s c t := by
  cases h with
  | @idle q hpc hq =>
    refine Or.inl (sites_setSched s c q (fun l => by simp [hq, hpc l]) (handing_of_unit hq) ?_)
    cases hl : (s.scheds c).pc.leaving with
    | none => rfl
    | some l => exact absurd (unit_of_leaving hl) (hpc l)
  | @pop u rest n hpc hp =>
    refine Or.inl (sites_setPool s c rest _ (fun l => ?_) rfl (by rw [hpc]; rfl))
    rw [Sys.located, hp, hpc, List.count_cons]
    simp [Pc.holds, Pc.unit]
  | run hpc => exact Or.inl (subSchedRun_sites hpc)
  | back hpc => exact pushBack_sites hpc

theorem splitStep_move {cfg : Config} {s t : Sys} {c : Nat} {b : Bool} (h : SplitSched cfg c s t) :
    Move cfg s (.sched c b) t := by
  cases h with
  | base hb =>
    rcases baseStep_sites hb with hs | ⟨l, n, q, hs, hpc, hq, rfl⟩
    · exact .same hs
    · exact .drop hs hpc hq
  | @serve l n hpc =>
    refine .same (serve_sites n ?_ ?_)
    · rcases hpc with hpc | hpc <;> rw [hpc] <;> rfl
    · rcases hpc with hpc | hpc <;> rw [hpc] <;> rfl
  | test hpc => exact .test (by rw [hpc]; rfl) (Or.inl rfl) (by rw [hpc]; rfl)
  | confirm hpc => exact .test (by rw [hpc]; rfl) (Or.inr rfl) (by rw [hpc]; rfl)
  | compute hpc => exact .compute hpc
  | readDest hpc => exact .readDest hpc
  | update hpc => exact .update hpc
  | push hpc => exact .push hpc

theorem next_move {cfg : Config} {schedStep : Nat → Bool → Sys → Option Sys} {a : Label} {s t : Sys}
    (h : next cfg schedStep a s = some t)
    (hsched : ∀ c b, a = .sched c b → schedStep c b s = some t → Move cfg s a t) :
    Move cfg s a t := by
  cases a with
  | sched c b =>
    rw [next] at h
    split_ifs at h
    exact hsched c b rfl h
  | relink l src dst =>
    rw [next] at h
    split_ifs at h with hg
    obtain ⟨hr, hl, _, hu, hne⟩ := hg
    rw [← Option.some.inj h]
    exact .relink hr hl hu hne
  | setDest =>
    rw [next] at h
    cases hr : s.reb with
    | none =>
      rw [hr] at h
      cases h
    | some p =>
      obtain ⟨l, r⟩ := p
      rw [hr] at h
      rw [← Option.some.inj h]
      exact .setDest hr
  | create l x =>
    rw [next] at h
    rw [← Option.some.inj h]
    exact .same (sites_setLoad s l _ rfl rfl)
  | addThread c x =>
    rw [next] at h
    rw [← Option.some.inj h]
    refine .same ⟨?_, fun _ => rfl, setStream_queues s.g c _ rfl rfl rfl rfl, rfl, rfl, rfl, rfl,
      fun hs => hs, fun _ _ => rfl, fun _ _ => rfl⟩
    intro l d
    by_cases hd : d = c
    · subst hd
      exact located_congr (by simp [Sys.push, Sys.setPool, Global.setStream]) rfl
    · exact located_congr (by simp [Sys.push, Sys.setPool, Global.setStream, hd]) rfl
  | setBlocking c x =>
    rw [next] at h
    rw [← Option.some.inj h]
    refine .same ⟨?_, fun _ => rfl, setStream_queues s.g c _ rfl rfl rfl rfl, rfl, rfl, rfl, rfl,
      fun hs => hs, fun _ _ => rfl, fun _ _ => rfl⟩
    intro l d
    by_cases hd : d = c
    · subst hd
      exact located_congr (by simp [Global.setStream]) rfl
    · exact located_congr (by simp [Global.setStream, hd]) rfl
  | stop =>
    rw [next] at h
    rw [← Option.some.inj h]
    exact .same ⟨fun _ _ => rfl, fun _ => rfl, .refl _, rfl, rfl, rfl, rfl, fun _ => rfl, fun _ _ => rfl,
      fun _ _ => rfl⟩

theorem SplitStep.move {cfg : Config} {a : Label} {s t : Sys} (h : SplitStep cfg a s t) :
    Move cfg s a t :=
  next_move h (fun c b he hs => by rw [he]; exact splitStep_move (splitStep_cases hs))

theorem located_held {s : Sys} {l : LoadId} {c : Nat} (h : (s.scheds c).pc.unit = some (.sched l)) :
    0 < s.located l c := by
  simp [Sys.located, Pc.holds, h]

theorem located_release {s : Sys} {l : LoadId} {c : Nat} {q : Sched}
    (h : (s.scheds c).pc.unit = some (.sched l)) (hq : q.pc.unit = none) (m : LoadId) (d : Nat) :
    (s.setSched c q).located m d + (if m = l ∧ d = c then 1 else 0) = s.located m d := by
  by_cases hd : d = c
  · subst hd
    rw [located_setSched, Sys.located, Pc.holds, Pc.holds, h, hq]
    by_cases hm : m = l
    · simp [hm]
    · have hm' : ¬ l = m := fun he => hm he.symm
      simp [hm, hm']
  · rw [located_setSched_of_ne s hd]
    simp [hd]

theorem located_pushAt (cfg : Config) (s : Sys) (i : Int) (l m : LoadId) (d : Nat) :
    (s.pushAt cfg i (.sched l)).located m d =
      s.located m d + if m = l ∧ (0 ≤ i ∧ i < cfg.nrCores) ∧ d = i.toNat then 1 else 0 := by
  unfold Sys.pushAt
  by_cases hi : 0 ≤ i ∧ i < cfg.nrCores
  · rw [if_pos hi]
    by_cases hd : d = i.toNat
    · subst hd
      by_cases hm : m = l
      · subst hm
        simp [Sys.located, Sys.push, Sys.setPool, Global.setStream, hi]
        omega
      · have hm' : ¬ l = m := fun he => hm he.symm
        simp [Sys.located, Sys.push, Sys.setPool, Global.setStream, hm, hm']
    · rw [if_neg (fun h => hd h.2.2), Nat.add_zero]
      exact located_congr (by simp [Sys.push, Sys.setPool, Global.setStream, hd]) rfl
  · rw [if_neg hi, if_neg (fun h => hi h.2.1), Nat.add_zero]
    exact located_congr rfl rfl

/-- A unit is at one place at most, and nowhere once it was not pushed back. -/
structure Exclusive (s : Sys) : Prop where
  le_one : ∀ l c, s.located l c ≤ 1
  unique : ∀ l c d, 0 < s.located l c → 0 < s.located l d → c = d
  gone : ∀ l ∈ s.dropped, ∀ c, s.located l c = 0
  stopping : s.dropped ≠ [] → s.stopping = true

theorem Exclusive.of_located {s t : Sys} (h : Exclusive s)
    (hl : ∀ l c, t.located l c = s.located l c) (hd : t.dropped = s.dropped)
    (hs : s.stopping = true → t.stopping = true) : Exclusive t := by
  refine ⟨?_, ?_, ?_, ?_⟩
  · intro l c
    rw [hl]
    exact h.le_one l c
  · intro l c d
    rw [hl, hl]
    exact h.unique l c d
  · intro l hm c
    rw [hl]
    exact h.gone l (by rw [← hd]; exact hm) c
  · rw [hd]
    exact fun hne => hs (h.stopping hne)

theorem Exclusive.of_drop {s t : Sys} (h : Exclusive s) {c : Nat} {l : LoadId}
    (hu : (s.scheds c).pc.unit = some (.sched l)) (hd : t.dropped = l :: s.dropped)
    (hs : t.stopping = true)
    (hle : ∀ m d, t.located m d + (if m = l ∧ d = c then 1 else 0) = s.located m d) : Exclusive t := by
  refine ⟨?_, ?_, ?_, fun _ => hs⟩
  · intro m d
    have := h.le_one m d
    have := hle m d
    omega
  · intro m d e hd he
    have h1 := hle m d
    have h2 := hle m e
    exact h.unique m d e (by omega) (by omega)
  · intro m hm d
    have h1 := hle m d
    rw [hd] at hm
    rcases List.mem_cons.mp hm with rfl | hm
    · by_cases hdc : d = c
      · have := h.le_one m d
        simp only [hdc, and_self, if_true] at h1 ⊢
        rw [hdc] at this
        omega
      · by_contra hne
        exact hdc (h.unique m d c (by omega) (located_held hu))
    · have := h.gone m hm d
      omega

theorem pushAt_frame (cfg : Config) (s : Sys) (i : Int) (u : PoolUnit) :
    (s.pushAt cfg i u).scheds = s.scheds ∧ (s.pushAt cfg i u).g.loads = s.g.loads ∧
    SameQueues s.g (s.pushAt cfg i u).g ∧ (s.pushAt cfg i u).reb = s.reb ∧
    (s.pushAt cfg i u).dropped = s.dropped ∧ (s.pushAt cfg i u).stopping = s.stopping ∧
    (s.pushAt cfg i u).forwards = s.forwards := by
  unfold Sys.pushAt
  by_cases hi : 0 ≤ i ∧ i < cfg.nrCores
  · rw [if_pos hi]
    exact ⟨rfl, rfl, setStream_queues s.g _ _ rfl rfl rfl rfl, rfl, rfl, rfl, rfl⟩
  · rw [if_neg hi]
    exact ⟨rfl, rfl, .refl _, rfl, rfl, rfl, rfl⟩

theorem located_push (cfg : Config) {s : Sys} {c n : Nat} {l : LoadId} {i : Int}
    (hpc : (s.scheds c).pc = .updated l n i) (m : LoadId) (d : Nat) :
    ((s.pushAt cfg i (.sched l)).setPc c .inner).located m d + (if m = l ∧ d = c then 1 else 0) =
      s.located m d + if m = l ∧ (0 ≤ i ∧ i < cfg.nrCores) ∧ d = i.toNat then 1 else 0 := by
  have hu : ((s.pushAt cfg i (.sched l)).scheds c).pc.unit = some (.sched l) := by
    rw [(pushAt_frame cfg s i (.sched l)).1, hpc]
    rfl
  rw [← located_pushAt]
  exact located_release hu rfl m d

theorem located_push_other (cfg : Config) {s : Sys} {c n : Nat} {l m : LoadId} {i : Int}
    (hpc : (s.scheds c).pc = .updated l n i) (hm : m ≠ l) (d : Nat) :
    ((s.pushAt cfg i (.sched l)).setPc c .inner).located m d = s.located m d := by
  simpa [hm] using located_push cfg hpc m d

theorem Exclusive.located_push {s : Sys} (h : Exclusive s) (cfg : Config) {c n : Nat} {l : LoadId}
    {i : Int} (hpc : (s.scheds c).pc = .updated l n i) (d : Nat) :
    ((s.pushAt cfg i (.sched l)).setPc c .inner).located l d =
      if (0 ≤ i ∧ i < cfg.nrCores) ∧ d = i.toNat then 1 else 0 := by
  have hheld : (s.scheds c).pc.unit = some (.sched l) := by rw [hpc]; rfl
  have hle := AbtSt.located_push cfg hpc l d
  by_cases hd : d = c
  · subst hd
    have hone := h.le_one l d
    have hpos := located_held hheld
    simp only [true_and, if_true] at hle
    omega
  · have hnone : s.located l d = 0 := by
      by_contra hne
      exact hd (h.unique l d c (by omega) (located_held hheld))
    simp only [true_and, hd, if_false] at hle
    omega

theorem Exclusive.of_push {s t : Sys} (h : Exclusive s) {c e : Nat} {l : LoadId} {p : Prop}
    [Decidable p] (hu : (s.scheds c).pc.unit = some (.sched l)) (hd : t.dropped = s.dropped)
    (hs : s.stopping = true → t.stopping = true)
    (hother : ∀ m, m ≠ l → ∀ d, t.located m d = s.located m d)
    (hl : ∀ d, t.located l d = if p ∧ d = e then 1 else 0) : Exclusive t := by
  refine ⟨?_, ?_, ?_, fun hne => hs (h.stopping (by rw [← hd]; exact hne))⟩
  · intro m d
    by_cases hm : m = l
    · subst hm
      rw [hl]
      split_ifs <;> omega
    · rw [hother m hm]
      exact h.le_one m d
  · intro m d d' hd hd'
    by_cases hm : m = l
    · subst hm
      rw [hl] at hd hd'
      split_ifs at hd hd' with h1 h2
      · exact h1.2.trans h2.2.symm
      all_goals omega
    · rw [hother m hm] at hd hd'
      exact h.unique m d d' hd hd'
  · intro m hm d
    rw [hd] at hm
    have hne : m ≠ l := by
      rintro rfl
      have := h.gone m hm c
      have := located_held hu
      omega
    rw [hother m hne]
    exact h.gone m hm d

theorem relink_frame (g : Global) {src dst : Nat} (h : src ≠ dst) (l : LoadId) (c : Nat) :
    ((abtstAddLoadToStream (abtstRemoveLoadFromStream g src l) dst l).streams c).pool =
      (g.streams c).pool ∧
    ((abtstAddLoadToStream (abtstRemoveLoadFromStream g src l) dst l).streams c).rank =
      (g.streams c).rank ∧
    ((abtstAddLoadToStream (abtstRemoveLoadFromStream g src l) dst l).streams c).used =
      (g.streams c).used := by
  have hd : dst ≠ src := fun he => h he.symm
  by_cases hcd : c = dst
  · subst hcd
    simp [abtstAddLoadToStream, abtstRemoveLoadFromStream, Global.setStream, hd]
  · by_cases hcs : c = src
    · subst hcs
      simp [abtstAddLoadToStream, abtstRemoveLoadFromStream, Global.setStream, hcd]
    · simp [abtstAddLoadToStream, abtstRemoveLoadFromStream, Global.setStream, hcd, hcs]

theorem Move.used {cfg : Config} {a : Label} {s t : Sys} (h : Move cfg s a t) (c : Nat) :
    (t.g.streams c).used = (s.g.streams c).used := by
  cases h with
  | same hs => exact hs.queues.used c
  | @push _ _ _ l i _ => exact (pushAt_frame cfg s i (.sched l)).2.2.1.used c
  | relink _ _ _ hne => exact (relink_frame s.g hne _ c).2.2
  | _ => rfl

theorem used_run {cfg : Config} (hv : cfg.Valid) {g : Global} (hg : Mapped cfg g) {s : Sys}
    {log : List (Label × Sys)} (hp : Path (SplitStep cfg) (launch g) log s) {c : Nat}
    (hc : (s.g.streams c).used = true) : c < cfg.nrCores ∧ 0 ≤ cfg.partitionMap c := by
  have hused : ∀ c, (s.g.streams c).used = (g.streams c).used :=
    (hp.invariant (I := fun t => ∀ c, (t.g.streams c).used = (g.streams c).used)
      (fun _ _ _ hs h c => (hs.move.used c).trans (h c)) (fun _ => rfl)).2
  rw [hused] at hc
  have hinit := hg.initial hv
  exact ⟨hinit.laid.linked.used_lt c hc, hinit.used c hc⟩

theorem Move.stopping {cfg : Config} {a : Label} {s t : Sys} (h : Move cfg s a t)
    (hs : s.stopping = true) : t.stopping = true := by
  cases h with
  | same h => exact h.stopping hs
  | @push _ _ _ l i _ => exact (pushAt_frame cfg s i (.sched l)).2.2.2.2.2.1.trans hs
  | _ => exact hs

/-- A step leaves every unit where it is, drops one, or pushes one to the stream of
an index. -/
theorem Move.located {cfg : Config} {a : Label} {s t : Sys} (hx : Exclusive s) (h : Move cfg s a t) :
    (t.dropped = s.dropped ∧ ∀ l c, t.located l c = s.located l c) ∨
    (∃ c b l n, a = .sched c b ∧ (s.scheds c).pc = .served l n ∧ s.stopping = true ∧
      t.dropped = l :: s.dropped ∧ t.g = s.g ∧
      ∀ m d, t.located m d + (if m = l ∧ d = c then 1 else 0) = s.located m d) ∨
    ∃ c b l n i, a = .sched c b ∧ (s.scheds c).pc = .updated l n i ∧ t.dropped = s.dropped ∧
      (∀ m, m ≠ l → ∀ d, t.located m d = s.located m d) ∧
      ∀ d, t.located l d = if (0 ≤ i ∧ i < cfg.nrCores) ∧ d = i.toNat then 1 else 0 := by
  cases h with
  | same hs => exact Or.inl ⟨hs.dropped, hs.located⟩
  | @drop c n b l q hs hpc hq =>
    refine Or.inr (Or.inl ⟨c, b, l, n, rfl, hpc, hs, rfl, rfl, ?_⟩)
    exact located_release (s := { s with dropped := l :: s.dropped })
      (by rw [show ({ s with dropped := l :: s.dropped } : Sys).scheds = s.scheds from rfl, hpc]; rfl)
      (by rw [hq]; rfl)
  | test hu hpc _ =>
    refine Or.inl ⟨rfl, located_setPc s ?_⟩
    rcases hpc with rfl | rfl <;> exact hu.symm
  | compute hpc => exact Or.inl ⟨rfl, located_setPc s (by rw [hpc]; rfl)⟩
  | readDest hpc => exact Or.inl ⟨rfl, located_setPc s (by rw [hpc]; rfl)⟩
  | @update c n r b l i hpc =>
    have hs : (updateCurrRank s l r).scheds = s.scheds := rfl
    refine Or.inl ⟨rfl, fun m d => ?_⟩
    rw [located_setPc _ (by rw [hs, hpc]; rfl)]
    exact located_congr rfl rfl
  | @push c n b l i hpc =>
    exact Or.inr (Or.inr ⟨c, b, l, n, i, rfl, hpc, (pushAt_frame cfg s i (.sched l)).2.2.2.2.1,
      fun m hm => located_push_other cfg hpc hm, hx.located_push cfg hpc⟩)
  | @relink l src dst _ _ _ hne =>
    exact Or.inl ⟨rfl, fun m d => located_congr (by rw [(relink_frame s.g hne l d).1]) rfl⟩
  | setDest => exact Or.inl ⟨rfl, fun _ _ => located_congr rfl rfl⟩

theorem Exclusive.step {cfg : Config} {a : Label} {s t : Sys} (h : Exclusive s) (hm : Move cfg s a t) :
    Exclusive t := by
  rcases hm.located h with ⟨hd, hl⟩ | ⟨c, b, l, n, _, hpc, hs, hd, _, hle⟩ |
    ⟨c, b, l, n, i, _, hpc, hd, hother, hl⟩
  · exact h.of_located hl hd hm.stopping
  · exact h.of_drop (by rw [hpc]; rfl) hd (hm.stopping hs) hle
  · exact h.of_push (by rw [hpc]; rfl) hd hm.stopping hother hl

theorem launch_located {cfg : Config} {g : Global} (h : Initial cfg g) (l : LoadId) (c : Nat) :
    (launch g).located l c = if l ∈ (g.streams c).loadQ then 1 else 0 := by
  have := h.laid.pool c l
  simpa [Sys.located, launch, Pc.holds, Pc.unit] using this

theorem Exclusive.launch {cfg : Config} {g : Global} (h : Initial cfg g) : Exclusive (launch g) := by
  refine ⟨?_, ?_, by simp [AbtSt.launch], by simp [AbtSt.launch]⟩
  · intro l c
    rw [launch_located h]
    split_ifs <;> omega
  · intro l c d hc hd
    rw [launch_located h] at hc hd
    split_ifs at hc hd with h1 h2
    · exact h.laid.linked.unique c d l h1 h2
    all_goals omega

theorem Exclusive.run {cfg : Config} {g : Global} (h : Initial cfg g) {log : List (Label × Sys)}
    {s : Sys} (hp : Path (SplitStep cfg) (AbtSt.launch g) log s) : Exclusive s :=
  (hp.invariant (fun _ _ _ hs hx => hx.step hs.move) (.launch h)).2

end AbtSt
