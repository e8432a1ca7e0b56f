import AbtSt.Sites
import AbtSt.Runs

/-! Shutdown. A unit that is served while the system is stopping is not pushed
back, so what its sub-scheduler leaves in the pool of the load is lost. This is
nothing exactly when the pool fits into what is left of one batch. -/

namespace AbtSt

/-- How many work units of a load a running sub-scheduler may still take. -/
def Pc.room (l : LoadId) : Pc → Option Nat
  | .running m k _ => if m = l then some (maxBatchCount - k) else none
  | .served m _ => if m = l then some 0 else none
  | _ => none

/-- How many work units of a load run before its unit is next pushed back. -/
def Sys.room (cfg : Config) (s : Sys) (l : LoadId) : Nat :=
  ((List.range cfg.nrCores).findSome? fun c => (s.scheds c).pc.room l).getD maxBatchCount

def Sys.Fits (cfg : Config) (s : Sys) (l : LoadId) : Prop :=
  (s.g.loads l).pool.length ≤ s.room cfg l

instance (cfg : Config) (s : Sys) (l : LoadId) : Decidable (s.Fits cfg l) :=
  inferInstanceAs (Decidable (_ ≤ _))

theorem unit_of_room {pc : Pc} {l : LoadId} {k : Nat} (h : pc.room l = some k) :
    pc.unit = some (.sched l) := by
  cases pc with
  | running m j n =>
    by_cases hm : m = l
    · rw [hm]
      rfl
    · simp [Pc.room, hm] at h
  | served m n =>
    by_cases hm : m = l
    · rw [hm]
      rfl
    · simp [Pc.room, hm] at h
  | _ => cases h

section Room

variable {cfg : Config} {s t : Sys} {c : Nat} {l : LoadId}

theorem room_congr (h : ∀ d, (t.scheds d).pc.room l = (s.scheds d).pc.room l) :
    t.room cfg l = s.room cfg l := by
  unfold Sys.room
  simp only [h]

theorem room_other (hx : Exclusive s) (hu : (s.scheds c).pc.unit = some (.sched l)) {d : Nat}
    (hd : d ≠ c) : (s.scheds d).pc.room l = none := by
  cases hr : (s.scheds d).pc.room l with
  | none => rfl
  | some k => exact absurd (hx.unique l d c (located_held (unit_of_room hr)) (located_held hu)) hd

theorem room_eq (hx : Exclusive s) (hc : c < cfg.nrCores)
    (hu : (s.scheds c).pc.unit = some (.sched l)) :
    s.room cfg l = ((s.scheds c).pc.room l).getD maxBatchCount := by
  unfold Sys.room
  congr 1
  cases hr : (s.scheds c).pc.room l with
  | none =>
    rw [List.findSome?_eq_none_iff]
    intro d _
    by_cases hd : d = c
    · rw [hd]
      exact hr
    · exact room_other hx hu hd
  | some k =>
    cases hf : (List.range cfg.nrCores).findSome? fun c => (s.scheds c).pc.room l with
    | none =>
      rw [List.findSome?_eq_none_iff] at hf
      have hnone := hf c (List.mem_range.mpr hc)
      rw [hr] at hnone
      cases hnone
    | some j =>
      obtain ⟨d, _, hd⟩ := List.exists_of_findSome?_eq_some hf
      have hdc : d = c := by
        by_contra hne
        rw [room_other hx hu hne] at hd
        cases hd
      rw [hdc, hr] at hd
      exact hd.symm

end Room

inductive Work (c : Nat) (m : LoadId) (s t : Sys) : Prop
  | same : (t.scheds c).pc.room m = (s.scheds c).pc.room m →
      (t.g.loads m).pool = (s.g.loads m).pool → Work c m s t
  | start : (s.scheds c).pc.unit = some (.sched m) → (s.scheds c).pc.room m = none →
      (t.scheds c).pc.room m = some maxBatchCount →
      (t.g.loads m).pool = (s.g.loads m).pool → Work c m s t
  | ran {k : Nat} : (s.scheds c).pc.room m = some (k + 1) → (t.scheds c).pc.room m = some k →
      (s.g.loads m).pool.length = (t.g.loads m).pool.length + 1 → Work c m s t
  | empty : (s.g.loads m).pool = [] → (t.g.loads m).pool = [] → Work c m s t
  | release {n : Nat} : (s.scheds c).pc = .served m n →
      (s.stopping = true → t.dropped = m :: s.dropped) →
      (t.g.loads m).pool = (s.g.loads m).pool → Work c m s t

structure LocalStep (c : Nat) (s t : Sys) : Prop where
  others : ∀ d, d ≠ c → t.scheds d = s.scheds d
  work : ∀ m, Work c m s t
  exits : (t.scheds c).pc = .exited → t.g = s.g

theorem local_setSched {s : Sys} (x : Sys) (c : Nat) (q : Sched) (hx : x.scheds = s.scheds)
    (hpool : ∀ m, (x.g.loads m).pool = (s.g.loads m).pool)
    (hroom : ∀ m, q.pc.room m = (s.scheds c).pc.room m) (hexit : q.pc = .exited → x.g = s.g) :
    LocalStep c s (x.setSched c q) := by
  refine ⟨?_, ?_, ?_⟩
  · intro d hd
    simp [Sys.setSched, hd, hx]
  · intro m
    exact .same (by simpa [Sys.setSched] using hroom m) (hpool m)
  · intro he
    exact hexit (by simpa [Sys.setSched] using he)

theorem serve_local {s : Sys} {c n : Nat} {l : LoadId} (hu : (s.scheds c).pc.unit = some (.sched l))
    (hr : ∀ m, (s.scheds c).pc.room m = none) : LocalStep c s (serve c l n s) := by
  unfold serve
  by_cases hw : (s.g.loads l).pool ≠ [] ∨ (s.g.loads l).used = false
  · rw [if_pos hw]
    refine ⟨?_, ?_, ?_⟩
    · intro d hd
      simp [Sys.setSched, Sys.setLoad, hd]
    · intro m
      by_cases hm : m = l
      · subst hm
        exact .start hu (hr m) (by simp [Sys.setSched, Pc.room])
          (by simp [Sys.setSched, Sys.setLoad, Global.setLoad])
      · have hm' : ¬ l = m := fun he => hm he.symm
        exact .same (by rw [hr m]; simp [Sys.setSched, Pc.room, hm'])
          (by simp [Sys.setSched, Sys.setLoad, Global.setLoad, hm])
    · intro he
      simp [Sys.setSched] at he
  · rw [if_neg hw]
    have hempty : (s.g.loads l).pool = [] := by
      by_contra hne
      exact hw (Or.inl hne)
    refine ⟨?_, ?_, ?_⟩
    · intro d hd
      simp [Sys.setPc, Sys.setSched, hd]
    · intro m
      by_cases hm : m = l
      · subst hm
        exact .empty hempty hempty
      · have hm' : ¬ l = m := fun he => hm he.symm
        exact .same (by rw [hr m]; simp [Sys.setPc, Sys.setSched, Pc.room, hm']) rfl
    · intro he
      simp [Sys.setPc, Sys.setSched] at he

theorem subSchedRun_local {s : Sys} {c k n : Nat} {l : LoadId}
    (hpc : (s.scheds c).pc = .running l k n) : LocalStep c s (subSchedRun c l k n s) := by
  have hother : ∀ m, m ≠ l → (s.scheds c).pc.room m = none := by
    intro m hm
    have hm' : ¬ l = m := fun he => hm he.symm
    rw [hpc]
    simp [Pc.room, hm']
  have hempty : ∀ pc : Pc, (s.g.loads l).pool = [] → pc ≠ .exited →
      (∀ m, m ≠ l → pc.room m = none) → LocalStep c s (s.setPc c pc) := by
    intro pc hp hexit hroom
    refine ⟨fun d hd => by simp [Sys.setPc, Sys.setSched, hd], fun m => ?_, fun he => ?_⟩
    · by_cases hm : m = l
      · subst hm
        exact .empty hp hp
      · refine .same ?_ rfl
        rw [hother m hm]
        simpa [Sys.setPc, Sys.setSched] using hroom m hm
    · exact absurd (by simpa [Sys.setPc, Sys.setSched] using he) hexit
  have hstep := subSchedRun_cases c l k n s
  generalize subSchedRun c l k n s = t at hstep ⊢
  cases hstep with
  | full hk =>
    refine local_setSched s c _ rfl (fun _ => rfl) (fun m => ?_) (fun he => by cases he)
    rw [hpc]
    by_cases hm : l = m
    · simp [Pc.room, hm, Nat.sub_eq_zero_of_le hk]
    · simp [Pc.room, hm]
  | idle _ hp =>
    refine hempty _ hp (fun he => by cases he) (fun m hm => ?_)
    have hm' : ¬ l = m := fun he => hm he.symm
    simp [Pc.room, hm']
  | again _ _ hp =>
    refine hempty _ hp (fun he => by cases he) (fun m hm => ?_)
    have hm' : ¬ l = m := fun he => hm he.symm
    simp [Pc.room, hm']
  | @run x rest hk hp =>
    refine ⟨?_, ?_, ?_⟩
    · intro d hd
      simp [Sys.setPc, Sys.setSched, Sys.setLoad, hd]
    · intro m
      by_cases hm : m = l
      · subst hm
        refine .ran (k := maxBatchCount - (k + 1)) ?_ ?_ ?_
        · rw [hpc]
          simp only [Pc.room, if_true, Option.some.injEq]
          omega
        · simp [Sys.setPc, Sys.setSched, Pc.room]
        · simp [hp, Sys.setPc, Sys.setSched, Sys.setLoad, Global.setLoad]
      · have hm' : ¬ l = m := fun he => hm he.symm
        refine .same ?_ ?_
        · rw [hother m hm]
          simp [Sys.setPc, Sys.setSched, Pc.room, hm']
        · simp [Sys.setPc, Sys.setSched, Sys.setLoad, Global.setLoad, hm]
    · intro he
      simp [Sys.setPc, Sys.setSched] at he

theorem pushBack_local {s : Sys} {c n : Nat} {l : LoadId} (hpc : (s.scheds c).pc = .served l n) :
    LocalStep c s (pushBack c l n s) := by
  have hroom : ∀ m, m ≠ l → (s.scheds c).pc.room m = none := by
    intro m hm
    have hm' : ¬ l = m := fun he => hm he.symm
    rw [hpc]
    simp [Pc.room, hm']
  unfold pushBack
  dsimp only
  by_cases hs : s.stopping = true
  · rw [if_pos hs]
    refine ⟨?_, ?_, fun he => by simp [Sys.setSched] at he⟩
    · intro d hd
      simp [Sys.setSched, hd]
    · intro m
      by_cases hm : m = l
      · subst hm
        exact .release hpc (fun _ => rfl) rfl
      · exact .same (by rw [hroom m hm]; simp [Sys.setSched, Pc.room]) rfl
  · rw [if_neg hs]
    refine ⟨?_, ?_, fun he => by simp [Sys.setSched] at he⟩
    · intro d hd
      simp [Sys.setSched, Sys.push, Sys.setPool, hd]
    · intro m
      by_cases hm : m = l
      · subst hm
        exact .release hpc (fun h => absurd h hs) rfl
      · exact .same (by rw [hroom m hm]; simp [Sys.setSched, Pc.room]) rfl

theorem room_of_unit {pc : Pc} (h : ∀ l, pc.unit ≠ some (.sched l)) (l : LoadId) : pc.room l = none := by
  cases hr : pc.room l with
  | none => rfl
  | some k => exact absurd (unit_of_room hr) (h l)

theorem baseStep_local {s t : Sys} {c : Nat} (h : BaseStep c s t) : LocalStep c s t := by
  cases h with
  | @idle q hpc hq =>
    refine local_setSched s c q rfl (fun _ => rfl) (fun m => ?_) (fun _ => rfl)
    rw [room_of_unit hpc, room_of_unit (by simp [hq])]
  | @pop u rest n hpc hp =>
    exact local_setSched (s.setPool c rest) c _ rfl (fun _ => rfl) (fun m => by rw [hpc]; rfl)
      (fun he => by cases he)
  | run hpc => exact subSchedRun_local hpc
  | back hpc => exact pushBack_local hpc

theorem splitStep_local {cfg : Config} {s t : Sys} {c : Nat} (h : SplitSched cfg c s t) :
    LocalStep c s t := by
  cases h with
  | base hb => exact baseStep_local hb
  | serve hpc =>
    refine serve_local ?_ (fun m => ?_)
    · rcases hpc with hpc | hpc <;> rw [hpc] <;> rfl
    · rcases hpc with hpc | hpc <;> rw [hpc] <;> rfl
  | @update l n r i hpc =>
    refine local_setSched (updateCurrRank s l r) c _ rfl (fun m => ?_) (fun m => by rw [hpc]; rfl)
      (fun he => by cases he)
    by_cases hm : m = l
    · subst hm
      simp [updateCurrRank, Sys.setLoad, Global.setLoad]
    · simp [updateCurrRank, Sys.setLoad, Global.setLoad, hm]
  | @push l n i hpc =>
    obtain ⟨hscheds, hloads, _⟩ := pushAt_frame cfg s i (.sched l)
    exact local_setSched (s.pushAt cfg i (.sched l)) c _ hscheds (fun m => by rw [hloads])
      (fun m => by rw [hpc]; rfl) (fun he => by cases he)
  | test hpc => exact local_setSched s c _ rfl (fun _ => rfl) (fun m => by rw [hpc]; rfl) (fun _ => rfl)
  | confirm hpc => exact local_setSched s c _ rfl (fun _ => rfl) (fun m => by rw [hpc]; rfl) (fun _ => rfl)
  | compute hpc => exact local_setSched s c _ rfl (fun _ => rfl) (fun m => by rw [hpc]; rfl) (fun _ => rfl)
  | readDest hpc => exact local_setSched s c _ rfl (fun _ => rfl) (fun m => by rw [hpc]; rfl) (fun _ => rfl)

theorem other_step {cfg : Config} {a : Label} {s t : Sys} (h : SplitStep cfg a s t)
    (ha : ∀ c b, a ≠ .sched c b) : t.scheds = s.scheds ∧
    ∀ m, (∀ x, a ≠ .create m x) → (t.g.loads m).pool = (s.g.loads m).pool := by
  unfold SplitStep at h
  cases a with
  | sched c b => exact absurd rfl (ha c b)
  | relink l src dst =>
    rw [next] at h
    split_ifs at h
    rw [← Option.some.inj h]
    exact ⟨rfl, fun _ _ => rfl⟩
  | setDest =>
    rw [next] at h
    cases hr : s.reb with
    | none =>
      rw [hr] at h
      cases h
    | some p =>
      obtain ⟨l, r⟩ := p
      rw [hr] at h
      rw [← Option.some.inj h]
      refine ⟨rfl, fun m _ => ?_⟩
      by_cases hm : m = l
      · subst hm
        simp [abtstLoadSetMigrating, Global.setLoad]
      · simp [abtstLoadSetMigrating, Global.setLoad, hm]
  | create l x =>
    rw [next] at h
    rw [← Option.some.inj h]
    refine ⟨rfl, fun m hm => ?_⟩
    have hne : m ≠ l := by
      rintro rfl
      exact hm x rfl
    simp [Sys.setLoad, Global.setLoad, hne]
  | addThread c x =>
    rw [next] at h
    rw [← Option.some.inj h]
    exact ⟨rfl, fun _ _ => rfl⟩
  | setBlocking c x =>
    rw [next] at h
    rw [← Option.some.inj h]
    exact ⟨rfl, fun _ _ => rfl⟩
  | stop =>
    rw [next] at h
    rw [← Option.some.inj h]
    exact ⟨rfl, fun _ _ => rfl⟩

theorem SplitStep.localStep {cfg : Config} {c : Nat} {b : Bool} {s t : Sys}
    (h : SplitStep cfg (.sched c b) s t) : c < cfg.nrCores ∧ LocalStep c s t := by
  unfold SplitStep at h
  rw [next] at h
  split_ifs at h with hc
  exact ⟨hc.2.1, splitStep_local (splitStep_cases h)⟩

theorem LocalStep.fits {cfg : Config} {c : Nat} {s t : Sys} (h : LocalStep c s t)
    (hc : c < cfg.nrCores) (hx : Exclusive s) (hx' : Exclusive t) (hs : s.stopping = true) {m : LoadId}
    (hm : m ∉ t.dropped) : t.Fits cfg m ↔ s.Fits cfg m := by
  unfold Sys.Fits
  cases h.work m with
  | same hr hp =>
    rw [hp, room_congr (s := s)]
    intro d
    by_cases hd : d = c
    · rw [hd]
      exact hr
    · rw [h.others d hd]
  | start hu hr hr' hp =>
    rw [hp, room_eq hx hc hu, room_eq hx' hc (unit_of_room hr'), hr, hr']
    rfl
  | ran hr hr' hp =>
    rw [room_eq hx hc (unit_of_room hr), room_eq hx' hc (unit_of_room hr'), hr, hr']
    simp only [Option.getD_some]
    omega
  | empty hp hp' =>
    rw [hp, hp']
    simp
  | release _ hd _ =>
    rw [hd hs] at hm
    exact absurd List.mem_cons_self hm

theorem LocalStep.nil {c : Nat} {s t : Sys} (h : LocalStep c s t) {m : LoadId}
    (hm : (s.g.loads m).pool = []) : (t.g.loads m).pool = [] := by
  cases h.work m with
  | same _ hp => rw [hp, hm]
  | start _ _ _ hp => rw [hp, hm]
  | ran _ _ hp =>
    rw [hm] at hp
    simp at hp
  | empty _ hp => exact hp
  | release _ _ hp => rw [hp, hm]

theorem Move.dropped {cfg : Config} {a : Label} {s t : Sys} (hx : Exclusive s) (h : Move cfg s a t) :
    t.dropped = s.dropped ∨ ∃ c b l n, a = .sched c b ∧ (s.scheds c).pc = .served l n ∧
      t.dropped = l :: s.dropped ∧ t.g = s.g := by
  rcases h.located hx with ⟨hd, _⟩ | ⟨c, b, l, n, ha, hpc, _, hd, hg, _⟩ | ⟨_, _, _, _, _, _, _, hd, _⟩
  · exact Or.inl hd
  · exact Or.inr ⟨c, b, l, n, ha, hpc, hd, hg⟩
  · exact Or.inl hd

theorem Move.mem_dropped {cfg : Config} {a : Label} {s t : Sys} (hx : Exclusive s) (h : Move cfg s a t)
    {l : LoadId} (hl : l ∈ s.dropped) : l ∈ t.dropped := by
  rcases h.dropped hx with hd | ⟨_, _, _, _, _, _, hd, _⟩
  · rw [hd]
    exact hl
  · rw [hd]
    exact List.mem_cons_of_mem _ hl

def Label.creates : Label → Bool
  | .create _ _ => true
  | .addThread _ _ => true
  | _ => false

/-- No work is created in a run. -/
def Quiet (log : List (Label × Sys)) : Prop := ∀ e ∈ log, e.1.creates = false

/-- After a stop in state `s`: a load that still has its unit fits if it did at the
stop, and a load that fitted and was dropped has no work left. -/
structure Draining (cfg : Config) (s t : Sys) : Prop where
  exclusive : Exclusive t
  stopping : t.stopping = true
  fits : ∀ l, l ∉ t.dropped → (t.Fits cfg l ↔ s.Fits cfg l)
  drained : ∀ l ∈ t.dropped, s.Fits cfg l → (t.g.loads l).pool = []

theorem served_fits {cfg : Config} {s : Sys} {c n : Nat} {l : LoadId} (hx : Exclusive s)
    (hc : c < cfg.nrCores) (hpc : (s.scheds c).pc = .served l n) :
    (s.g.loads l).pool = [] ↔ s.Fits cfg l := by
  unfold Sys.Fits
  rw [room_eq hx hc (by rw [hpc]; rfl), hpc]
  simp [Pc.room]

theorem Draining.step {cfg : Config} {a : Label} {s t u : Sys} (hs : SplitStep cfg a t u)
    (ha : a.creates = false) (h : Draining cfg s t) : Draining cfg s u := by
  have hmove := hs.move
  have hx := h.exclusive.step hmove
  have hwork : (∀ l, l ∉ u.dropped → (u.Fits cfg l ↔ t.Fits cfg l)) ∧
      ∀ l, (t.g.loads l).pool = [] → (u.g.loads l).pool = [] := by
    by_cases hlabel : ∃ c b, a = .sched c b
    · obtain ⟨c, b, rfl⟩ := hlabel
      obtain ⟨hc, hlocal⟩ := hs.localStep
      exact ⟨fun l hl => hlocal.fits hc h.exclusive hx h.stopping hl, fun l hl => hlocal.nil hl⟩
    · obtain ⟨hscheds, hpool⟩ := other_step hs (fun c b he => hlabel ⟨c, b, he⟩)
      have hnone : ∀ l x, a ≠ .create l x := by
        rintro l x rfl
        cases ha
      refine ⟨fun l _ => ?_, fun l hl => by rw [hpool l (hnone l), hl]⟩
      unfold Sys.Fits
      rw [hpool l (hnone l), room_congr (s := t) (fun d => by rw [hscheds])]
  refine ⟨hx, hmove.stopping h.stopping, ?_, ?_⟩
  · intro l hl
    exact (hwork.1 l hl).trans (h.fits l (fun hmem => hl (hmove.mem_dropped h.exclusive hmem)))
  · intro l hl hfit
    by_cases hold : l ∈ t.dropped
    · exact hwork.2 l (h.drained l hold hfit)
    · rcases hmove.dropped h.exclusive with hd | ⟨c, b, m, n, rfl, hpc, hd, _⟩
      · rw [hd] at hl
        exact absurd hl hold
      · have hml : l = m := by
          rw [hd] at hl
          rcases List.mem_cons.mp hl with he | he
          · exact he
          · exact absurd he hold
        subst hml
        exact hwork.2 l ((served_fits h.exclusive hs.localStep.1 hpc).mpr ((h.fits l hold).mpr hfit))

theorem Draining.stop {cfg : Config} {s : Sys} (hx : Exclusive s) (hs : s.stopping = false) :
    Draining cfg s { s with stopping := true } := by
  have hd : s.dropped = [] := by
    by_contra hne
    rw [hx.stopping hne] at hs
    cases hs
  refine ⟨hx.of_located (fun _ _ => rfl) rfl (fun _ => rfl), rfl, fun _ _ => Iff.rfl, ?_⟩
  intro l hl
  change l ∈ s.dropped at hl
  rw [hd] at hl
  simp at hl

theorem Draining.run {cfg : Config} {s t u : Sys} {log : List (Label × Sys)}
    (hp : Path (SplitStep cfg) t log u) (hq : Quiet log) (h : Draining cfg s t) : Draining cfg s u := by
  have hquiet : Path (fun a t u => SplitStep cfg a t u ∧ a.creates = false) t log u :=
    hp.mono (fun a _ _ ha hs => ⟨hs, by obtain ⟨e, he, rfl⟩ := List.mem_map.mp ha; exact hq e he⟩)
  exact (hquiet.invariant (fun _ _ _ hs h => h.step hs.1 hs.2) h).2

def PoolUnit.isSched : PoolUnit → Bool
  | .sched _ => true
  | .thread _ => false

/-- A hand-over ends at a stream of a partition whose scheduler has not exited, and
no scheduler exits while its pool holds the unit of a load. -/
def caught (cfg : Config) : Label → Sys → Sys → Bool
  | .sched c _, s, t =>
    (match (s.scheds c).pc with
      | .updated _ _ i => decide (0 ≤ i ∧ i < cfg.nrCores) && (s.g.streams i.toNat).used &&
          decide ((s.scheds i.toNat).pc ≠ .exited)
      | _ => true) &&
    (decide ((t.scheds c).pc ≠ .exited) || !(s.g.streams c).pool.any PoolUnit.isSched)
  | _, _, _ => true

def CaughtStep (cfg : Config) (a : Label) (s t : Sys) : Prop :=
  SplitStep cfg a s t ∧ caught cfg a s t = true

theorem caught_push {cfg : Config} {c n : Nat} {b : Bool} {l : LoadId} {i : Int} {s t : Sys}
    (h : caught cfg (.sched c b) s t = true) (hpc : (s.scheds c).pc = .updated l n i) :
    (0 ≤ i ∧ i < cfg.nrCores) ∧ (s.g.streams i.toNat).used = true ∧
      (s.scheds i.toNat).pc ≠ .exited := by
  unfold caught at h
  dsimp only at h
  rw [hpc] at h
  simp only [Bool.and_eq_true, decide_eq_true_eq] at h
  exact ⟨h.1.1.1, h.1.1.2, h.1.2⟩

theorem caught_exit {cfg : Config} {c : Nat} {b : Bool} {s t : Sys}
    (h : caught cfg (.sched c b) s t = true) (hpc : (t.scheds c).pc = .exited) (l : LoadId) :
    PoolUnit.sched l ∉ (s.g.streams c).pool := by
  unfold caught at h
  rw [Bool.and_eq_true] at h
  have h2 := h.2
  rw [hpc] at h2
  simp only [ne_eq, not_true_eq_false, decide_false, Bool.false_or, Bool.not_eq_true',
    List.any_eq_false] at h2
  intro hmem
  exact h2 _ hmem rfl

structure Manned (S : LoadId → Prop) (s : Sys) : Prop where
  kept : ∀ l, S l → l ∉ s.dropped → ∃ c, (s.g.streams c).used = true ∧ 0 < s.located l c
  exited : ∀ c, (s.scheds c).pc = .exited → ∀ l, s.located l c = 0

theorem Manned.kept_step {cfg : Config} {S : LoadId → Prop} {a : Label} {s t : Sys}
    (hx : Exclusive s) (hs : CaughtStep cfg a s t) (h : Manned S s) {l : LoadId} (hS : S l)
    (hl : l ∉ t.dropped) : ∃ c, (t.g.streams c).used = true ∧ 0 < t.located l c := by
  have hmove := hs.1.move
  obtain ⟨e, hu, he⟩ := h.kept l hS (fun hmem => hl (hmove.mem_dropped hx hmem))
  rw [← hmove.used] at hu
  rcases hmove.located hx with ⟨_, hloc⟩ | ⟨c, b, m, n, _, _, _, hd, _, hle⟩ |
    ⟨c, b, m, n, i, rfl, hpc, _, hother, hloc⟩
  · exact ⟨e, hu, by rw [hloc]; exact he⟩
  · have hne : l ≠ m := by
      rintro rfl
      exact hl (by rw [hd]; exact List.mem_cons_self)
    have := hle l e
    simp only [hne, false_and, if_false] at this
    exact ⟨e, hu, by omega⟩
  · by_cases hm : l = m
    · subst hm
      obtain ⟨hi, hused, _⟩ := caught_push hs.2 hpc
      refine ⟨i.toNat, by rw [hmove.used]; exact hused, ?_⟩
      rw [hloc]
      simp [hi]
    · exact ⟨e, hu, by rw [hother l hm]; exact he⟩

theorem SplitStep.scheds_of_ne {cfg : Config} {a : Label} {s t : Sys} (h : SplitStep cfg a s t) {d : Nat}
    (hd : ∀ b, a ≠ .sched d b) : t.scheds d = s.scheds d := by
  by_cases hlabel : ∃ c b, a = .sched c b
  · obtain ⟨c, b, rfl⟩ := hlabel
    refine h.localStep.2.others d ?_
    rintro rfl
    exact hd b rfl
  · rw [(other_step h (fun c b he => hlabel ⟨c, b, he⟩)).1]

theorem Manned.exited_step {cfg : Config} {S : LoadId → Prop} {a : Label} {s t : Sys}
    (hx : Exclusive s) (hs : CaughtStep cfg a s t) (h : Manned S s) {d : Nat}
    (hd : (t.scheds d).pc = .exited) (l : LoadId) : t.located l d = 0 := by
  by_cases hlabel : ∃ b, a = .sched d b
  · obtain ⟨b, rfl⟩ := hlabel
    unfold Sys.located
    rw [hs.1.localStep.2.exits hd, hd, List.count_eq_zero_of_not_mem (caught_exit hs.2 hd l)]
    rfl
  · have hsame := hs.1.scheds_of_ne (fun b he => hlabel ⟨b, he⟩)
    rw [hsame] at hd
    have hzero := h.exited d hd l
    rcases hs.1.move.located hx with ⟨_, hloc⟩ | ⟨c, b, m, n, _, _, _, _, _, hle⟩ |
      ⟨c, b, m, n, i, rfl, hpc, _, hother, hloc⟩
    · rw [hloc, hzero]
    · have := hle l d
      omega
    · by_cases hm : l = m
      · subst hm
        have hne : d ≠ i.toNat := by
          rintro rfl
          exact (caught_push hs.2 hpc).2.2 hd
        rw [hloc, if_neg (fun h => hne h.2)]
      · rw [hother l hm, hzero]

theorem Manned.step {cfg : Config} {S : LoadId → Prop} {a : Label} {s t : Sys}
    (hs : CaughtStep cfg a s t) (h : Exclusive s ∧ Manned S s) : Exclusive t ∧ Manned S t :=
  ⟨h.1.step hs.1.move, fun _ hS hl => h.2.kept_step h.1 hs hS hl,
    fun _ hd l => h.2.exited_step h.1 hs hd l⟩

theorem Manned.launch {cfg : Config} {g : Global} (h : Initial cfg g) : Manned g.Created (launch g) := by
  refine ⟨?_, fun c hc => by cases hc⟩
  intro l hS _
  obtain ⟨c, hc⟩ := (h.laid.linked.mem_iff l).mp hS
  exact ⟨c, h.laid.linked.used c l hc, by rw [launch_located h]; simp [hc]⟩

def fill (n : Nat) : List Label := (List.range n).map (.create ⟨0, 0⟩ ·)

end AbtSt
