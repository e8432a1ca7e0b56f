import AbtSt.Retarget

/-! The migration protocol without locks. When a hand-over is one step, every run
is a run of the finer system in which no re-targeting falls into a hand-over, so
each unit is at one place; and once the rebalancer rests, each load is handed
over at most once more. -/

namespace AbtSt

def NoHanding (s : Sys) : Prop := ∀ c, (s.scheds c).pc.handing = false

section HandOver

variable {cfg : Config} {c n : Nat} {l : LoadId} {s : Sys}

theorem setPc_pc (s : Sys) (c : Nat) (pc : Pc) : ((s.setPc c pc).scheds c).pc = pc := by
  simp [Sys.setPc, Sys.setSched]

theorem setPc_setPc (s : Sys) (c : Nat) (p q : Pc) : (s.setPc c p).setPc c q = s.setPc c q := by
  simp [Sys.setPc, Sys.setSched]

theorem pushAt_setPc (cfg : Config) (s : Sys) (c : Nat) (p : Pc) (i : Int) (u : PoolUnit) :
    (s.setPc c p).pushAt cfg i u = (s.pushAt cfg i u).setPc c p := by
  unfold Sys.pushAt
  split_ifs <;> rfl

theorem steady_sched {b : Bool} {t : Sys} (hc : c ≠ 0 ∧ c < cfg.nrCores ∧ (s.g.streams c).used = true)
    (h : splitStep cfg c b s = some t) : SteadyStep cfg (.sched c b) s t := by
  refine ⟨?_, fun he => by cases he⟩
  unfold SplitStep
  rw [next, if_pos hc]
  exact h

theorem forward_path (b : Bool) (hc : c ≠ 0 ∧ c < cfg.nrCores ∧ (s.g.streams c).used = true)
    (hpc : (s.scheds c).pc = .holding (.sched l) n) (hm : abtstLoadIsMigrating s.g l = true) :
    ∃ log, Path (SteadyStep cfg) s log (forward cfg c l s) := by
  have hne : (s.g.loads l).currRank ≠ (s.g.loads l).destRank := by
    simpa [abtstLoadIsMigrating] using hm
  have h1 : splitStep cfg c b s = some (s.setPc c (.migrating l n)) := by
    unfold splitStep
    rw [hpc]
    dsimp only
    rw [if_pos hm]
  have h2 : splitStep cfg c b (s.setPc c (.migrating l n)) =
      some ((s.setPc c (.migrating l n)).setPc c (.confirmed l n)) := by
    unfold splitStep
    rw [setPc_pc]
    exact congrArg some (if_pos hne)
  rw [setPc_setPc] at h2
  have h3 : splitStep cfg c b (s.setPc c (.confirmed l n)) =
      some ((s.setPc c (.confirmed l n)).setPc c (.computed l n (newStream s c l))) := by
    unfold splitStep
    rw [setPc_pc]
    rfl
  rw [setPc_setPc] at h3
  have h4 : splitStep cfg c b (s.setPc c (.computed l n (newStream s c l))) =
      some ((s.setPc c (.computed l n (newStream s c l))).setPc c
        (.argument l n (newStream s c l) (s.g.loads l).destRank)) := by
    unfold splitStep
    rw [setPc_pc]
    rfl
  rw [setPc_setPc] at h4
  have h5 : splitStep cfg c b (s.setPc c (.argument l n (newStream s c l) (s.g.loads l).destRank)) =
      some (((updateCurrRank s l (s.g.loads l).destRank).setPc c
        (.argument l n (newStream s c l) (s.g.loads l).destRank)).setPc c (.updated l n (newStream s c l))) := by
    unfold splitStep
    rw [setPc_pc]
    rfl
  rw [setPc_setPc] at h5
  have h6 : splitStep cfg c b ((updateCurrRank s l (s.g.loads l).destRank).setPc c
      (.updated l n (newStream s c l))) = some (forward cfg c l s) := by
    unfold splitStep
    rw [setPc_pc]
    dsimp only
    rw [pushAt_setPc, setPc_setPc]
    rfl
  exact ⟨_, .cons (steady_sched hc h1) (.cons (steady_sched hc h2) (.cons (steady_sched hc h3)
    (.cons (steady_sched hc h4) (.cons (steady_sched hc h5) (.single (steady_sched hc h6))))))⟩

theorem atomicStep_cases {b : Bool} {t : Sys} (hn : (s.scheds c).pc.handing = false)
    (h : atomicStep cfg c b s = some t) : splitStep cfg c b s = some t ∨
    ∃ l n, (s.scheds c).pc = .holding (.sched l) n ∧ abtstLoadIsMigrating s.g l = true ∧
      t = forward cfg c l s := by
  unfold atomicStep at h
  unfold splitStep
  cases hpc : (s.scheds c).pc with
  | holding u n =>
    rw [hpc] at h
    cases u with
    | thread x => exact Or.inl h
    | sched l =>
      have ht := Option.some.inj h
      by_cases hm : abtstLoadIsMigrating s.g l = true
      · rw [if_pos hm] at ht
        exact Or.inr ⟨l, n, rfl, hm, ht.symm⟩
      · rw [if_neg hm] at ht
        apply Or.inl
        dsimp only
        rw [if_neg hm, ht]
  | migrating l n => rw [hpc] at hn; cases hn
  | confirmed l n => rw [hpc] at hn; cases hn
  | computed l n i => rw [hpc] at hn; cases hn
  | argument l n i r => rw [hpc] at hn; cases hn
  | updated l n i => rw [hpc] at hn; cases hn
  | _ =>
    rw [hpc] at h
    exact Or.inl h

end HandOver

theorem AtomicStep.split {cfg : Config} {a : Label} {s t : Sys} (hn : NoHanding s)
    (h : AtomicStep cfg a s t) : SplitStep cfg a s t ∨ ∃ c b l n, a = .sched c b ∧
      (c ≠ 0 ∧ c < cfg.nrCores ∧ (s.g.streams c).used = true) ∧
      (s.scheds c).pc = .holding (.sched l) n ∧ abtstLoadIsMigrating s.g l = true ∧
      t = forward cfg c l s := by
  unfold AtomicStep at h
  unfold SplitStep
  cases a with
  | sched c b =>
    rw [next] at h ⊢
    split_ifs at h with hc
    rw [if_pos hc]
    rcases atomicStep_cases (hn c) h with h | ⟨l, n, hpc, hm, ht⟩
    · exact Or.inl h
    · exact Or.inr ⟨c, b, l, n, rfl, hc, hpc, hm, ht⟩
  | _ => exact Or.inl h

theorem NoHanding.steady {s : Sys} (hn : NoHanding s) (a : Label) : Steady a s := by
  intro _ l r _ c n i hc
  have := hn c
  rw [hc] at this
  cases this

theorem forward_scheds (cfg : Config) (c : Nat) (l : LoadId) (s : Sys) :
    (forward cfg c l s).scheds = Function.update s.scheds c { s.scheds c with pc := .inner } := by
  have h := (pushAt_frame cfg (updateCurrRank s l (s.g.loads l).destRank) (newStream s c l) (.sched l)).1
  unfold forward Sys.setPc Sys.setSched
  rw [h]
  rfl

theorem AtomicStep.sites {cfg : Config} {a : Label} {s t : Sys} (h : AtomicStep cfg a s t) :
    SameSites s t ∨ (∃ c, Drops s c t) ∨ (a.isReb = true ∧ t.scheds = s.scheds) ∨
    ∃ c l, abtstLoadIsMigrating s.g l = true ∧ t = forward cfg c l s := by
  by_cases hlabel : ∃ c b, a = .sched c b
  · obtain ⟨c, b, rfl⟩ := hlabel
    unfold AtomicStep at h
    rw [next] at h
    split_ifs at h
    unfold atomicStep at h
    split at h
    · rename_i l n hpc
      rw [← Option.some.inj h]
      by_cases hm : abtstLoadIsMigrating s.g l = true
      · rw [if_pos hm]
        exact Or.inr (Or.inr (Or.inr ⟨c, l, hm, rfl⟩))
      · rw [if_neg hm]
        exact Or.inl (serve_sites n (by rw [hpc]; rfl) (by rw [hpc]; rfl))
    · rcases baseStep_sites (baseStep_cases h) with hs | hd
      · exact Or.inl hs
      · exact Or.inr (Or.inl ⟨c, hd⟩)
  · have hm : Move cfg s a t := next_move h (fun c b he _ => absurd ⟨c, b, he⟩ hlabel)
    cases hm with
    | same hs => exact Or.inl hs
    | relink => exact Or.inr (Or.inr (Or.inl ⟨rfl, rfl⟩))
    | setDest => exact Or.inr (Or.inr (Or.inl ⟨rfl, rfl⟩))
    | _ => exact absurd ⟨_, _, rfl⟩ hlabel

theorem NoHanding.step {cfg : Config} {a : Label} {s t : Sys} (hn : NoHanding s)
    (h : AtomicStep cfg a s t) : NoHanding t := by
  intro d
  rcases h.sites with hs | ⟨c, l, n, q, _, _, hq, rfl⟩ | ⟨_, hs⟩ | ⟨c, l, _, rfl⟩
  · by_contra hne
    have hd : (t.scheds d).pc.handing = true := by simpa using hne
    rw [hs.handing d hd] at hne
    exact hne (hn d)
  · by_cases hdc : d = c
    · subst hdc
      simp [Sys.setSched, hq, Pc.handing]
    · simpa [Sys.setSched, hdc] using hn d
  · rw [hs]
    exact hn d
  · rw [forward_scheds]
    by_cases hdc : d = c
    · subst hdc
      simp [Pc.handing]
    · simpa [hdc] using hn d

theorem atomic_path_steady {cfg : Config} {s t : Sys} {log : List (Label × Sys)} (hn : NoHanding s)
    (hp : Path (AtomicStep cfg) s log t) : ∃ log', Path (SteadyStep cfg) s log' t := by
  induction hp with
  | nil s => exact ⟨[], .nil s⟩
  | @cons a s u t log hs _ ih =>
    obtain ⟨log', hp'⟩ := ih (hn.step hs)
    rcases hs.split hn with hsplit | ⟨c, b, l, n, _, hc, hpc, hm, rfl⟩
    · exact ⟨_, .cons ⟨hsplit, hn.steady a⟩ hp'⟩
    · obtain ⟨log, hp⟩ := forward_path b hc hpc hm
      exact ⟨_, hp.append hp'⟩

theorem launch_noHanding (g : Global) : NoHanding (launch g) := fun _ => rfl

theorem atomic_tracked {cfg : Config} (hv : cfg.Valid) {g : Global} (hg : Mapped cfg g)
    {log : List (Label × Sys)} {s : Sys} (hp : Path (AtomicStep cfg) (launch g) log s) :
    Tracked cfg g.Created s ∧ NoHanding s ∧ ∀ c, (s.g.streams c).used = true → 0 ≤ cfg.partitionMap c := by
  obtain ⟨log', hp'⟩ := atomic_path_steady (launch_noHanding g) hp
  refine ⟨Tracked.run hv hg hp', ?_, ?_⟩
  · exact (hp.invariant (fun _ _ _ hs hn => NoHanding.step hn hs) (launch_noHanding g)).2
  · exact fun c hc => (used_run hv hg (hp'.mono (fun _ _ _ _ hs => hs.1)) hc).2

/-- Since a state, the target of a load is the same, and either the load has not
been handed over or it was migrating and has been handed over once, to its target. -/
structure Settling (l : LoadId) (s t : Sys) : Prop where
  loadQ : ∀ c, (t.g.streams c).loadQ = (s.g.streams c).loadQ
  reb : t.reb = s.reb
  destRank : (t.g.loads l).destRank = (s.g.loads l).destRank
  once : ((t.g.loads l).currRank = (s.g.loads l).currRank ∧ t.forwards l = s.forwards l) ∨
    ((s.g.loads l).currRank ≠ (s.g.loads l).destRank ∧ (t.g.loads l).currRank = (s.g.loads l).destRank ∧
      t.forwards l = s.forwards l + 1)

theorem Settling.refl (l : LoadId) (s : Sys) : Settling l s s :=
  ⟨fun _ => rfl, rfl, rfl, Or.inl ⟨rfl, rfl⟩⟩

theorem forward_settling (cfg : Config) (c : Nat) (l m : LoadId) (s : Sys)
    (hm : abtstLoadIsMigrating s.g l = true) : Settling m s (forward cfg c l s) := by
  have hne : (s.g.loads l).currRank ≠ (s.g.loads l).destRank := by
    simpa [abtstLoadIsMigrating] using hm
  obtain ⟨_, hloads, hqueues, hreb, _, _, hforwards⟩ :=
    pushAt_frame cfg (updateCurrRank s l (s.g.loads l).destRank) (newStream s c l) (.sched l)
  have hload : (forward cfg c l s).g.loads m =
      (updateCurrRank s l (s.g.loads l).destRank).g.loads m := congrFun hloads m
  have hforward : (forward cfg c l s).forwards m =
      (updateCurrRank s l (s.g.loads l).destRank).forwards m := congrFun hforwards m
  refine ⟨fun d => hqueues.loadQ d, hreb, ?_, ?_⟩
  · rw [hload]
    by_cases heq : m = l
    · subst heq
      simp [updateCurrRank, Sys.setLoad, Global.setLoad]
    · simp [updateCurrRank, Sys.setLoad, Global.setLoad, heq]
  · rw [hload, hforward]
    by_cases heq : m = l
    · subst heq
      exact Or.inr ⟨hne, by simp [updateCurrRank, Sys.setLoad, Global.setLoad],
        by simp [updateCurrRank]⟩
    · exact Or.inl ⟨by simp [updateCurrRank, Sys.setLoad, Global.setLoad, heq],
        by simp [updateCurrRank, heq]⟩

theorem Settling.step {cfg : Config} {a : Label} {l : LoadId} {s t : Sys} (h : AtomicStep cfg a s t)
    (ha : a.isReb = false) : Settling l s t := by
  rcases h.sites with hs | ⟨c, m, n, q, _, _, _, rfl⟩ | ⟨hreb, _⟩ | ⟨c, m, hm, rfl⟩
  · exact ⟨hs.queues.loadQ, hs.reb, hs.queues.destRank l, Or.inl ⟨hs.currRank l, by rw [hs.forwards]⟩⟩
  · exact ⟨fun _ => rfl, rfl, rfl, Or.inl ⟨rfl, rfl⟩⟩
  · rw [ha] at hreb
    cases hreb
  · exact forward_settling cfg c m l s hm

theorem Settling.trans {l : LoadId} {s t u : Sys} (h : Settling l s t) (h' : Settling l t u) :
    Settling l s u := by
  have hd := h.destRank
  have hd' := h'.destRank
  refine ⟨fun c => (h'.loadQ c).trans (h.loadQ c), h'.reb.trans h.reb, hd'.trans hd, ?_⟩
  rcases h.once with ⟨h1, h2⟩ | ⟨h1, h2, h3⟩
  · rcases h'.once with ⟨h4, h5⟩ | ⟨h4, h5, h6⟩
    · exact Or.inl ⟨h4.trans h1, h5.trans h2⟩
    · rw [hd] at h4 h5
      rw [h1] at h4
      exact Or.inr ⟨h4, h5, by omega⟩
  · rcases h'.once with ⟨h4, h5⟩ | ⟨h4, _, _⟩
    · exact Or.inr ⟨h1, h4.trans h2, by omega⟩
    · exact absurd (h2.trans hd.symm) h4

theorem Settling.run {cfg : Config} {l : LoadId} {s t : Sys} {log : List (Label × Sys)}
    (hp : Path (AtomicStep cfg) s log t) (hreb : ∀ e ∈ log, e.1.isReb = false) : Settling l s t := by
  induction hp with
  | nil s => exact .refl l s
  | cons hs _ ih =>
    have htail := ih (fun e he => hreb e (List.mem_cons_of_mem _ he))
    exact (Settling.step hs (hreb _ List.mem_cons_self)).trans htail

theorem migrateLoad_path {cfg : Config} {s : Sys} {src dst : Nat} {l : LoadId} (hr : s.reb = none)
    (hl : l ∈ (s.g.streams src).loadQ) (hlt : dst < cfg.nrCores) (hu : (s.g.streams dst).used = true)
    (hne : src ≠ dst) :
    ∃ log, Path (AtomicStep cfg) s log { s with g := migrateLoad src dst s.g l } := by
  have h1 : AtomicStep cfg (.relink l src dst) s { s with
      g := abtstAddLoadToStream (abtstRemoveLoadFromStream s.g src l) dst l
      reb := some (l, (s.g.streams dst).rank) } := by
    unfold AtomicStep
    rw [next, if_pos ⟨hr, hl, hlt, hu, hne⟩]
  refine ⟨_, .cons h1 (.single (a := .setDest) ?_)⟩
  unfold AtomicStep
  rw [next, migrateLoad, (relink_frame s.g hne l dst).2.1, hr]

theorem migrateLoads_path {cfg : Config} {src dst : Nat} (hlt : dst < cfg.nrCores) (hne : src ≠ dst)
    (ms : List LoadId) {s : Sys} (hr : s.reb = none) (hu : (s.g.streams dst).used = true)
    (hnodup : ms.Nodup) (hms : ∀ l ∈ ms, l ∈ (s.g.streams src).loadQ) :
    ∃ log, Path (AtomicStep cfg) s log { s with g := ms.foldl (migrateLoad src dst) s.g } := by
  induction ms generalizing s with
  | nil => exact ⟨[], .nil s⟩
  | cons l ms ih =>
    obtain ⟨hl, hnodup⟩ := List.nodup_cons.mp hnodup
    obtain ⟨log, hp⟩ := migrateLoad_path hr (hms l List.mem_cons_self) hlt hu hne
    have hq : ((migrateLoad src dst s.g l).streams src).loadQ = (s.g.streams src).loadQ.erase l := by
      simp [migrateLoad, abtstLoadSetMigrating, abtstAddLoadToStream, abtstRemoveLoadFromStream,
        Global.setLoad, Global.setStream, hne]
    obtain ⟨log', hp'⟩ := ih (s := { s with g := migrateLoad src dst s.g l }) hr
      (((relink_frame s.g hne l dst).2.2).trans hu) hnodup (fun m hm => by
        have hml : m ≠ l := fun he => hl (he ▸ hm)
        change m ∈ ((migrateLoad src dst s.g l).streams src).loadQ
        rw [hq]
        exact (List.mem_erase_of_ne hml).mpr (hms m (List.mem_cons_of_mem _ hm)))
    exact ⟨log ++ log', hp.append hp'⟩

theorem moved_queues (g : Global) {src dst : Nat} (h : src ≠ dst) (ms : List LoadId) (a b a' b' : Nat) :
    SameQueues (g.moved src dst ms a b) (g.moved src dst ms a' b') := by
  refine ⟨?_, ?_, ?_, ?_, fun _ => rfl, rfl, rfl⟩ <;> intro c <;> by_cases hs : c = src <;>
    by_cases hd : c = dst
  all_goals first
    | (subst hs; subst hd; exact absurd rfl h)
    | (subst hs; rw [moved_src g ms a b h, moved_src g ms a' b' h])
    | (subst hd; rw [moved_dst g ms a b, moved_dst g ms a' b'])
    | rw [moved_other g ms a b hs hd, moved_other g ms a' b' hs hd]

/-- Every action of a pass is, for the queues and the targets, a sequence of steps
of the rebalancer in the protocol. -/
theorem RebStep.protocol {cfg : Config} {a : Act} {s : Sys} {g : Global} {S : LoadId → Prop}
    (hr : s.reb = none) (hl : Linked cfg s.g S) (h : RebStep cfg a s.g g) :
    ∃ log t, Path (AtomicStep cfg) s log t ∧ SameQueues t.g g := by
  rcases h.queues with ⟨hq, _⟩ | ⟨src, dst, ms, qsrc, qdst, he, _, hms, rfl⟩ | ⟨c, p, _, _, _, rfl⟩
  · exact ⟨[], s, .nil s, hq⟩
  · obtain ⟨log, hp⟩ := migrateLoads_path (hl.used_lt dst he.used_dst) he.ne ms hr he.used_dst
      ((hl.nodup src).sublist hms) (fun l hm => hms.subset hm)
    refine ⟨log, _, hp, ?_⟩
    dsimp only
    rw [foldl_migrateLoad s.g he.ne ms]
    exact moved_queues s.g he.ne ms _ _ _ _
  · exact ⟨[], s, .nil s, setPartitionId_queues c p s.g⟩

theorem Tracked.at_currRank {cfg : Config} {S : LoadId → Prop} {s : Sys} (h : Tracked cfg S s)
    (hn : NoHanding s) (hs : s.stopping = false) {l : LoadId} (hl : S l) :
    (s.g.streams (s.g.loads l).currRank).used = true ∧ s.located l (s.g.loads l).currRank = 1 ∧
    ∀ d, d ≠ (s.g.loads l).currRank → s.located l d = 0 := by
  have hdropped : s.dropped = [] := by
    by_contra hne
    rw [h.exclusive.stopping hne] at hs
    cases hs
  obtain ⟨c, hc⟩ := h.kept l hl (by simp [hdropped])
  have hcurr := h.here l c hc (fun he => by
    have hh := hn c
    cases hpc : (s.scheds c).pc with
    | updated m n i =>
      rw [hpc] at hh
      cases hh
    | _ =>
      rw [hpc] at he
      cases he)
  subst hcurr
  have hle := h.exclusive.le_one l (s.g.loads l).currRank
  refine ⟨(h.only l _ hc).2, by omega, ?_⟩
  intro d hd
  by_contra hne
  exact hd (h.exclusive.unique l d _ (by omega) hc)

theorem Tracked.queue {cfg : Config} {S : LoadId → Prop} {s : Sys} (h : Tracked cfg S s) {l : LoadId}
    (hr : ∀ r, s.reb ≠ some (l, r)) {c : Nat} (hc : l ∈ (s.g.streams c).loadQ) :
    c = (s.g.loads l).destRank := by
  have hset : (s.settled.loads l).destRank = (s.g.loads l).destRank := by
    unfold Sys.settled
    cases hreb : s.reb with
    | none => rfl
    | some p =>
      obtain ⟨m, r⟩ := p
      have hm : l ≠ m := fun he => hr r (by rw [hreb, he])
      simp [abtstLoadSetMigrating, Global.setLoad, hm]
  have hlinked := h.linked
  have hc' : l ∈ (s.settled.streams c).loadQ := by
    rw [settled_streams]
    exact hc
  have hused := hlinked.used c l hc'
  rw [settled_streams] at hused
  have hdest := hlinked.dest c l hc'
  rw [hset, settled_streams, h.rank_eq hused] at hdest
  exact hdest.symm

/-- In every run of any number of schedulers with the rebalancer, until the system
stops: the unit of each load is in one pool or in the hands of one scheduler, no
two streams run the work of one load, and without further steps of the rebalancer
each load is handed over at most once more and its unit is then at the stream that
lists it. -/
theorem migration_lockless {cfg : Config} (hv : cfg.Valid) (h0 : cfg.partitionMap 0 < 0) {g : Global}
    (hg : Mapped cfg g) {log : List (Label × Sys)} {s : Sys}
    (hp : Path (AtomicStep cfg) (launch g) log s) (hs : s.stopping = false) :
    (∀ l, g.Created l → ∃ c, c ≠ 0 ∧ c < cfg.nrCores ∧ (s.g.streams c).used = true ∧
      s.located l c = 1 ∧ ∀ d, d ≠ c → s.located l d = 0) ∧
    (∀ l c d k k' n n', (s.scheds c).pc = .running l k n → (s.scheds d).pc = .running l k' n' → c = d) ∧
    ∀ log' t, Path (AtomicStep cfg) s log' t → (∀ e ∈ log', e.1.isReb = false) → t.stopping = false →
      ∀ l, g.Created l → (∀ r, s.reb ≠ some (l, r)) → t.forwards l ≤ s.forwards l + 1 ∧
        ∃ c, l ∈ (t.g.streams c).loadQ ∧ (∀ d, l ∈ (t.g.streams d).loadQ → d = c) ∧
          (t.forwards l = s.forwards l + 1 ∨ abtstLoadIsMigrating t.g l = false → t.located l c = 1) := by
  obtain ⟨h, hn, hused⟩ := atomic_tracked hv hg hp
  refine ⟨?_, ?_, ?_⟩
  · intro l hl
    obtain ⟨hu, hone, hother⟩ := h.at_currRank hn hs hl
    refine ⟨(s.g.loads l).currRank, ?_, h.used_lt hu, hu, hone, hother⟩
    intro he
    have := hused _ hu
    rw [he] at this
    omega
  · intro l c d k k' n n' hc hd
    exact h.exclusive.unique l c d (located_held (by rw [hc]; rfl)) (located_held (by rw [hd]; rfl))
  · intro log' t hp' hreb ht l hl hpend
    obtain ⟨h', hn', _⟩ := atomic_tracked hv hg (hp.append hp')
    have hset := Settling.run (l := l) hp' hreb
    have hpend' : ∀ r, t.reb ≠ some (l, r) := by
      rw [hset.reb]
      exact hpend
    obtain ⟨c, hc⟩ := (h'.linked.mem_iff l).mp hl
    rw [settled_streams] at hc
    have hqueue := h'.queue hpend' hc
    refine ⟨?_, c, hc, fun d hd => (h'.queue hpend' hd).trans hqueue.symm, ?_⟩
    · rcases hset.once with ⟨_, hf⟩ | ⟨_, _, hf⟩ <;> omega
    · intro hdone
      have hcurr : (t.g.loads l).currRank = (t.g.loads l).destRank := by
        rcases hdone with hf | hm
        · rcases hset.once with ⟨_, hf'⟩ | ⟨_, hcurr, _⟩
          · omega
          · rw [hcurr, hset.destRank]
        · simpa [abtstLoadIsMigrating] using hm
      rw [hqueue, ← hcurr]
      exact (h'.at_currRank hn' ht hl).2.1

def sendLoad : List Label := [.relink ⟨0, 0⟩ 1 3, .setDest]

theorem sendLoad_result : ((smallStart.bind fun g =>
    play (next smallConfig (atomicStep smallConfig)) sendLoad (launch g)).any fun s =>
      decide (s.stopping = false ∧ s.reb = none ∧ s.forwards ⟨0, 0⟩ = 0) &&
        (play (next smallConfig (atomicStep smallConfig)) (List.replicate 4 (.sched 1 false)) s).any fun t =>
          decide (t.stopping = false ∧ t.forwards ⟨0, 0⟩ = 1 ∧ ⟨0, 0⟩ ∈ (t.g.streams 3).loadQ)) = true := by
  decide +kernel

theorem migration_lockless_sendLoad : ∃ g log s log' t, Mapped smallConfig g ∧ g.Created ⟨0, 0⟩ ∧
    Path (AtomicStep smallConfig) (launch g) log s ∧ Path (AtomicStep smallConfig) s log' t ∧
    t.forwards ⟨0, 0⟩ = s.forwards ⟨0, 0⟩ + 1 ∧ t.located ⟨0, 0⟩ 3 = 1 := by
  obtain ⟨s, hs, hres⟩ := (Option.any_eq_true _ _).mp sendLoad_result
  obtain ⟨g, hg, hplay⟩ := Option.bind_eq_some_iff.mp hs
  rw [Bool.and_eq_true, decide_eq_true_iff, Option.any_eq_true] at hres
  obtain ⟨⟨hstop, hreb, hf⟩, t, ht, hres⟩ := hres
  obtain ⟨hstop', hf', hq⟩ := of_decide_eq_true hres
  obtain ⟨log, _, hp⟩ := play_path hplay
  obtain ⟨log', hlog', hp'⟩ := play_path ht
  have hm := startWith_mapped hg
  have hcreated : g.Created ⟨0, 0⟩ := by
    obtain ⟨g', hg', hl⟩ := smallStart_created
    rw [hg] at hg'
    obtain rfl := Option.some.inj hg'
    exact ⟨hl.1, Nat.lt_of_le_of_lt (Nat.zero_le _) hl.2⟩
  have hnoreb : ∀ e ∈ log', e.1.isReb = false := by
    intro e he
    have hmem : e.1 ∈ List.replicate 4 (Label.sched 1 false) := by
      rw [← hlog']
      exact List.mem_map_of_mem he
    rw [List.eq_of_mem_replicate hmem]
    rfl
  obtain ⟨_, c, _, huniq, hat⟩ := (migration_lockless smallConfig_valid (by decide) hm hp hstop).2.2
    log' t hp' hnoreb hstop' ⟨0, 0⟩ hcreated (fun r => by rw [hreb]; simp)
  have hc : 3 = c := huniq 3 hq
  refine ⟨g, log, s, log', t, hm, hcreated, hp, hp', by omega, ?_⟩
  rw [hc]
  exact hat (Or.inl (by omega))

end AbtSt
