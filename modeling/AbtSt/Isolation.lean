import AbtSt.Lockless
import AbtSt.IoOrder
import AbtSt.Finalize
import AbtSt.Borrowed

/-! Partitions while everything runs. Besides the steps of the protocol the
rebalancer gives an emptied core to another partition, where units of the old one
may still wait. A pass is a run of these steps, and as long as no write changes the
target of a load in the middle of its hand-over, no scheduler ever serves a unit of
a partition that its stream does not belong to. -/

namespace AbtSt

/-- A load is relinked within its partition only. -/
def WithinPart (s : Sys) : Label → Prop
  | .relink _ src dst => (s.g.streams src).partId = (s.g.streams dst).partId
  | _ => True

inductive PartyLabel
  | sys (a : Label)
  | relabel (c p : Nat)

inductive PartyStep (cfg : Config) : PartyLabel → Sys → Sys → Prop
  | sys {a : Label} {s t : Sys} : SplitStep cfg a s t → WithinPart s a → PartyStep cfg (.sys a) s t
  | relabel {s : Sys} {c p : Nat} : s.reb = none → (s.g.streams c).loadQ = [] → p < cfg.nrPartitions →
      PartyStep cfg (.relabel c p) s { s with g := setPartitionId c p s.g }

/-- A step that does not change a target between the two reads of a hand-over. -/
def SteadyParty (cfg : Config) (a : PartyLabel) (s t : Sys) : Prop :=
  PartyStep cfg a s t ∧ ∀ b, a = .sys b → Steady b s

/-- The queues are confined, and so is the old target of a load that the rebalancer
has relinked and not yet re-targeted. -/
structure Isolated (cfg : Config) (S : LoadId → Prop) (s : Sys) : Prop where
  tracked : Tracked cfg S s
  confined : Confined s.g
  pending : ∀ l r, s.reb = some (l, r) →
    (s.g.streams (s.g.loads l).destRank).partId = (s.g.mappings l.mapping).partitionId

section Isolated

variable {cfg : Config} {S : LoadId → Prop} {s t : Sys}

theorem relabel_sites (s : Sys) (c p : Nat) : SameSites s { s with g := setPartitionId c p s.g } := by
  have hq := setPartitionId_queues c p s.g
  refine ⟨fun l d => located_congr ?_ rfl, fun _ => rfl, hq, rfl, rfl, rfl, rfl, fun hs => hs,
    fun _ _ => rfl, fun _ _ => rfl⟩
  by_cases hd : d = c
  · subst hd
    simp [setPartitionId, Global.setStream]
  · rw [setPartitionId_other hd]

theorem mem_relink {g : Global} {src dst : Nat} (hne : src ≠ dst) {l m : LoadId} {c : Nat}
    (h : m ∈ ((abtstAddLoadToStream (abtstRemoveLoadFromStream g src l) dst l).streams c).loadQ) :
    m ∈ (g.streams c).loadQ ∨ m = l ∧ c = dst := by
  have hd : dst ≠ src := fun he => hne he.symm
  by_cases hcd : c = dst
  · subst hcd
    rcases List.mem_cons.mp (by
      simpa [abtstAddLoadToStream, abtstRemoveLoadFromStream, Global.setStream, hd] using h) with he | hm
    · exact Or.inr ⟨he, rfl⟩
    · exact Or.inl hm
  · by_cases hcs : c = src
    · subst hcs
      have hm : m ∈ (g.streams c).loadQ.erase l := by
        simpa [abtstAddLoadToStream, abtstRemoveLoadFromStream, Global.setStream, hcd] using h
      exact Or.inl (List.mem_of_mem_erase hm)
    · exact Or.inl (by
        simpa [abtstAddLoadToStream, abtstRemoveLoadFromStream, Global.setStream, hcd, hcs] using h)

theorem relink_partId (g : Global) {src dst : Nat} (h : src ≠ dst) (l : LoadId) (c : Nat) :
    ((abtstAddLoadToStream (abtstRemoveLoadFromStream g src l) dst l).streams c).partId =
      (g.streams c).partId := by
  have hd : dst ≠ src := fun he => h he.symm
  by_cases hcd : c = dst
  · subst hcd
    simp [abtstAddLoadToStream, abtstRemoveLoadFromStream, Global.setStream, hd]
  · by_cases hcs : c = src
    · subst hcs
      simp [abtstAddLoadToStream, abtstRemoveLoadFromStream, Global.setStream, hcd]
    · simp [abtstAddLoadToStream, abtstRemoveLoadFromStream, Global.setStream, hcd, hcs]

theorem SplitStep.partId {a : Label} (h : SplitStep cfg a s t) (d : Nat) :
    (t.g.streams d).partId = (s.g.streams d).partId := by
  unfold SplitStep at h
  cases a with
  | sched c b =>
    rw [next] at h
    split_ifs at h
    exact splitStep_stream (f := Stream.partId) (fun _ _ => rfl) (splitStep_cases h) d
  | relink l src dst =>
    rw [next] at h
    split_ifs at h with hg
    rw [← Option.some.inj h]
    exact relink_partId s.g hg.2.2.2.2 l d
  | setDest =>
    rw [next] at h
    cases hr : s.reb with
    | none =>
      rw [hr] at h
      cases h
    | some p =>
      rw [hr] at h
      rw [← Option.some.inj h]
      rfl
  | addThread c x =>
    rw [next] at h
    rw [← Option.some.inj h]
    by_cases hd : d = c
    · subst hd
      simp [Sys.push, Sys.setPool, Global.setStream]
    · simp [Sys.push, Sys.setPool, Global.setStream, hd]
  | setBlocking c x =>
    rw [next] at h
    rw [← Option.some.inj h]
    by_cases hd : d = c
    · subst hd
      simp [Global.setStream]
    · simp [Global.setStream, hd]
  | create l x =>
    rw [next] at h
    rw [← Option.some.inj h]
    rfl
  | stop =>
    rw [next] at h
    rw [← Option.some.inj h]

theorem Confined.of_queues {g g' : Global} (h : Confined g) (hq : SameQueues g g')
    (hp : ∀ c, (g'.streams c).partId = (g.streams c).partId) : Confined g' := by
  intro c l hl
  rw [hq.loadQ] at hl
  rw [hp, hq.mappings]
  exact h c l hl

/-- The queue that lists a load is that of its target when no re-targeting is due. -/
theorem Tracked.target_queue (h : Tracked cfg S s) {l : LoadId} (hl : S l)
    (hr : ∀ r, s.reb ≠ some (l, r)) : l ∈ (s.g.streams (s.g.loads l).destRank).loadQ := by
  obtain ⟨c, hc⟩ := (h.linked.mem_iff l).mp hl
  rw [settled_streams] at hc
  rw [← h.queue hr hc]
  exact hc

theorem PartyStep.linked {a : PartyLabel} (hs : PartyStep cfg a s t) (h : Linked cfg s.settled S) :
    Linked cfg t.settled S := by
  cases hs with
  | sys hstep _ => exact hstep.linked h
  | @relabel _ c p _ _ _ => exact h.of_queues (settled_queues (setPartitionId_queues c p s.g) rfl)

/-- Loads are relinked within their partitions, and a core changes its partition when
its queue is empty. -/
theorem PartyStep.confined {a : PartyLabel} (hs : PartyStep cfg a s t) (h : Confined s.g) :
    Confined t.g := by
  cases hs with
  | @relabel _ c p _ hempty _ =>
    intro d l hl
    rw [(setPartitionId_queues c p s.g).loadQ] at hl
    have hdc : d ≠ c := by
      rintro rfl
      rw [hempty] at hl
      cases hl
    rw [setPartitionId_other hdc]
    exact h d l hl
  | @sys a _ _ hstep hpart =>
    have hp := hstep.partId
    cases hstep.move with
    | same hsame => exact h.of_queues hsame.queues hp
    | @push c n b l i _ => exact h.of_queues (pushAt_frame cfg s i (.sched l)).2.2.1 hp
    | @update c n r b l i _ => exact h.of_queues (update_queues s c l n r i) hp
    | @relink l src dst _ hl _ hne =>
      intro c m hm
      rw [hp]
      rcases mem_relink hne hm with hm | ⟨rfl, rfl⟩
      · exact h c m hm
      · exact hpart.symm.trans (h src m hl)
    | @setDest l r _ => exact h
    | _ => exact h.of_queues (.refl _) hp

theorem Isolated.step (hv : cfg.Valid) {a : PartyLabel} (hs : SteadyParty cfg a s t)
    (h : Isolated cfg S s) : Isolated cfg S t := by
  obtain ⟨hs, hsteady⟩ := hs
  have hc := hs.confined h.confined
  cases hs with
  | @relabel _ c p hr _ _ =>
    refine ⟨h.tracked.of_sites (relabel_sites s c p), hc, fun l r hl => ?_⟩
    cases hr.symm.trans hl
  | @sys a _ _ hstep _ =>
    refine ⟨Tracked.step hv ⟨hstep, hsteady a rfl⟩ h.tracked, hc, fun m r hm => ?_⟩
    rw [hstep.partId]
    cases hstep.move with
    | same hsame =>
      rw [hsame.reb] at hm
      rw [hsame.queues.destRank, hsame.queues.mappings]
      exact h.pending m r hm
    | @push c n b l i _ =>
      obtain ⟨-, hloads, hqueues, hreb, -, -⟩ := pushAt_frame cfg s i (.sched l)
      have hm' : s.reb = some (m, r) := hreb ▸ hm
      have hd := hqueues.destRank m
      have hmap := congrFun hqueues.mappings m.mapping
      have hp := h.pending m r hm'
      rw [← hd, ← hmap] at hp
      exact hp
    | @update c n r' b l i _ =>
      rw [(update_queues s c l n r' i).destRank]
      exact h.pending m r hm
    | @relink l src dst hr hl _ hne =>
      -- the old target is the queue that the load has just left
      obtain ⟨rfl, rfl⟩ := Prod.mk.inj (Option.some.inj hm)
      have hS : S l := by
        apply (h.tracked.linked.mem_iff l).mpr
        exact ⟨src, by rw [settled_streams]; exact hl⟩
      have hq := h.tracked.target_queue hS (fun r he => by rw [hr] at he; cases he)
      exact h.confined _ l hq
    | setDest => cases hm
    | _ => exact h.pending m r hm

theorem Isolated.home (h : Isolated cfg S s) {l : LoadId} {c : Nat} (hc : 0 < s.located l c)
    (hleaving : (s.scheds c).pc.leaving ≠ some l) (hm : abtstLoadIsMigrating s.g l = false) :
    (s.g.streams c).partId = (s.g.mappings l.mapping).partitionId := by
  have hcurr := h.tracked.here l c hc hleaving
  have hdest : (s.g.loads l).destRank = c := by
    rw [← hcurr]
    exact (by simpa [abtstLoadIsMigrating] using hm : (s.g.loads l).currRank = _).symm
  by_cases hr : ∃ r, s.reb = some (l, r)
  · obtain ⟨r, hr⟩ := hr
    rw [← hdest]
    exact h.pending l r hr
  · have hq := h.tracked.target_queue (h.tracked.only l c hc).1 (fun r he => hr ⟨r, he⟩)
    rw [hdest] at hq
    exact h.confined c l hq

theorem Isolated.launch (hv : cfg.Valid) {g : Global} (hg : Mapped cfg g) :
    Isolated cfg g.Created (launch g) :=
  ⟨.launch (hg.initial hv), (hg.initial hv).laid.confined, fun _ _ hr => by cases hr⟩

theorem Isolated.run (hv : cfg.Valid) {g : Global} (hg : Mapped cfg g)
    {log : List (PartyLabel × Sys)} (hp : Path (SteadyParty cfg) (AbtSt.launch g) log s) :
    Isolated cfg g.Created s :=
  (hp.invariant (fun _ _ _ hs h => Isolated.step hv hs h) (.launch hv hg)).2

theorem SplitStep.serves {c n : Nat} {b : Bool} {l : LoadId} (h : SplitStep cfg (.sched c b) s t)
    (hpc : (s.scheds c).pc = .holding (.sched l) n ∨ (s.scheds c).pc = .migrating l n)
    (ht : (t.scheds c).pc = .running l 0 n ∨ (t.scheds c).pc = .served l n) :
    abtstLoadIsMigrating s.g l = false := by
  unfold SplitStep at h
  rw [next] at h
  split_ifs at h
  by_contra hm
  rw [Bool.not_eq_false] at hm
  have hne : (s.g.loads l).currRank ≠ (s.g.loads l).destRank := by
    simpa [abtstLoadIsMigrating] using hm
  rcases hpc with hpc | hpc
  · rw [splitStep, hpc] at h
    dsimp only at h
    rw [if_pos hm] at h
    rw [← Option.some.inj h] at ht
    simp [Sys.setPc, Sys.setSched] at ht
  · rw [splitStep, hpc] at h
    dsimp only at h
    rw [if_pos hne] at h
    rw [← Option.some.inj h] at ht
    simp [Sys.setPc, Sys.setSched] at ht

end Isolated

section Migrate

variable {cfg : Config} {s : Sys}

theorem party_migrateLoad {src dst : Nat} {l : LoadId} (hr : s.reb = none)
    (hl : l ∈ (s.g.streams src).loadQ) (hlt : dst < cfg.nrCores) (he : Ends s.g src dst) :
    ∃ t, PartyStep cfg (.sys (.relink l src dst)) s t ∧ t.scheds = s.scheds ∧
      PartyStep cfg (.sys .setDest) t { s with g := migrateLoad src dst s.g l } := by
  refine ⟨{ s with
      g := abtstAddLoadToStream (abtstRemoveLoadFromStream s.g src l) dst l
      reb := some (l, (s.g.streams dst).rank) }, .sys ?_ he.partId, rfl, .sys ?_ trivial⟩
  · unfold SplitStep
    rw [next, if_pos ⟨hr, hl, hlt, he.used_dst, he.ne⟩]
  · unfold SplitStep
    rw [next, migrateLoad, (relink_frame s.g he.ne l dst).2.1, hr]

end Migrate

/-- Two loads on the cores 2 and 3 of partition 1; core 1 is in partition 0. -/
def twoPartsStart : Option Global := startWith (layout 4 twoParts) [1]

/-- The load of core 2 has gone to core 3, and core 2 to partition 0 with the unit
still in its pool. -/
def givenAway (g : Global) : Sys :=
  { launch g with g := setPartitionId 2 0 (migrateLoad 2 3 g ⟨0, 0⟩) }

theorem sched_path {cfg : Config} {c : Nat} {b : Bool} {n : Nat} {s t : Sys}
    (h : play (next cfg (splitStep cfg)) (List.replicate n (.sched c b)) s = some t) :
    ∃ log, Path (SteadyParty cfg) s log t := by
  induction n generalizing s with
  | zero =>
    obtain rfl : s = t := Option.some.inj h
    exact ⟨[], .nil s⟩
  | succ n ih =>
    rw [List.replicate_succ, play] at h
    cases hn : next cfg (splitStep cfg) (.sched c b) s with
    | none =>
      rw [hn] at h
      cases h
    | some u =>
      rw [hn] at h
      obtain ⟨log, hp⟩ := ih h
      refine ⟨_, .cons ⟨.sys hn trivial, fun a ha => ?_⟩ hp⟩
      obtain rfl := PartyLabel.sys.inj ha
      exact fun he => by cases he

theorem givenAway_result : (twoPartsStart.any fun g =>
    decide (⟨0, 0⟩ ∈ (g.streams 2).loadQ ∧ (g.streams 2).used = true ∧ (g.streams 3).used = true ∧
      (g.streams 2).partId = (g.streams 3).partId ∧
      ((migrateLoad 2 3 g ⟨0, 0⟩).streams 2).loadQ = []) &&
    (play (next (layout 4 twoParts) (splitStep (layout 4 twoParts)))
      (List.replicate 3 (.sched 2 false)) (givenAway g)).any fun t =>
        decide ((t.scheds 2).pc = .holding (.sched ⟨0, 0⟩) 1 ∧ (t.g.streams 2).partId = 0 ∧
          (t.g.mappings 0).partitionId = 1)) = true := by
  decide +kernel

theorem givenAway_path : ∃ g log t, Mapped (layout 4 twoParts) g ∧
    Path (SteadyParty (layout 4 twoParts)) (launch g) log (givenAway g) ∧
    (∃ log', Path (SteadyParty (layout 4 twoParts)) (givenAway g) log' t) ∧
    (t.scheds 2).pc = .holding (.sched ⟨0, 0⟩) 1 ∧ (t.g.streams 2).partId = 0 ∧
    (t.g.mappings 0).partitionId = 1 := by
  obtain ⟨g, hg, hres⟩ := (Option.any_eq_true _ _).mp givenAway_result
  rw [Bool.and_eq_true, decide_eq_true_iff, Option.any_eq_true] at hres
  obtain ⟨⟨hmem, hsrc, hdst, hpart, hempty⟩, t, ht, hres⟩ := hres
  obtain ⟨hpc, hpid, hmap⟩ := of_decide_eq_true hres
  obtain ⟨u, hrelink, hu, hdest⟩ := party_migrateLoad (s := launch g) rfl hmem
    (show 3 < (layout 4 twoParts).nrCores by decide) ⟨by decide, hsrc, hdst, hpart⟩
  have hrelabel : PartyStep (layout 4 twoParts) (.relabel 2 0)
      { launch g with g := migrateLoad 2 3 g ⟨0, 0⟩ } (givenAway g) := .relabel rfl hempty (by decide)
  have hsteady : ∀ a, Steady a u := NoHanding.steady (fun c => by rw [hu]; exact launch_noHanding g c)
  refine ⟨g, _, t, startWith_mapped hg, .cons ⟨hrelink, fun a _ => (launch_noHanding g).steady a⟩
    (.cons ⟨hdest, fun a _ => hsteady a⟩ (.single ⟨hrelabel, fun a ha => by cases ha⟩)),
    sched_path ht, hpc, hpid, hmap⟩

/-- Cores change their partitions while the schedulers and the rebalancer run. In
every interleaving the queues are confined to their partitions. If no write changes
the target of a load between the computation of its new stream and the next read of
the target, a unit on a stream of another partition is migrating, and a scheduler
serves units of the partition of its stream only. -/
theorem served_in_partition {cfg : Config} (hv : cfg.Valid) {g : Global} (hg : Mapped cfg g)
    {log : List (PartyLabel × Sys)} {s : Sys} (hp : Path (PartyStep cfg) (launch g) log s) :
    (∀ c l, l ∈ (s.g.streams c).loadQ → (s.g.streams c).partId = (s.g.mappings l.mapping).partitionId) ∧
    (Path (SteadyParty cfg) (launch g) log s →
      (∀ c l, 0 < s.located l c → (s.scheds c).pc.leaving ≠ some l →
        (s.g.streams c).partId ≠ (s.g.mappings l.mapping).partitionId →
        abtstLoadIsMigrating s.g l = true) ∧
      ∀ c b l n t, SplitStep cfg (.sched c b) s t →
        (s.scheds c).pc = .holding (.sched l) n ∨ (s.scheds c).pc = .migrating l n →
        (t.scheds c).pc = .running l 0 n ∨ (t.scheds c).pc = .served l n →
        (s.g.streams c).partId = (s.g.mappings l.mapping).partitionId) := by
  have hconfined := (hp.invariant (I := fun s => Confined s.g) (fun _ _ _ hs h => hs.confined h)
    (hg.initial hv).laid.confined).2
  refine ⟨hconfined, fun hsteady => ?_⟩
  have h := Isolated.run hv hg hsteady
  refine ⟨fun c l hc hleaving hne => ?_, fun c b l n t hstep hpc ht => ?_⟩
  · by_contra hm
    exact hne (h.home hc hleaving (by simpa using hm))
  · have hheld : (s.scheds c).pc.unit = some (.sched l) := by
      rcases hpc with hpc | hpc <;> rw [hpc] <;> rfl
    have hleaving : (s.scheds c).pc.leaving ≠ some l := by
      rcases hpc with hpc | hpc <;> rw [hpc] <;> simp [Pc.leaving]
    exact h.home (located_held hheld) hleaving (hstep.serves hpc ht)

theorem served_in_partition_givenAway : ∃ g log t, Mapped (layout 4 twoParts) g ∧
    Path (SteadyParty (layout 4 twoParts)) (launch g) log t ∧
    (t.scheds 2).pc = .holding (.sched ⟨0, 0⟩) 1 ∧
    (t.g.streams 2).partId ≠ (t.g.mappings 0).partitionId ∧ abtstLoadIsMigrating t.g ⟨0, 0⟩ = true := by
  obtain ⟨g, log, t, hm, hp, ⟨log', hp'⟩, hpc, hpid, hmap⟩ := givenAway_path
  have hne : (t.g.streams 2).partId ≠ (t.g.mappings 0).partitionId := by
    rw [hpid, hmap]
    decide
  have hserved := served_in_partition twoPartsLayout_valid hm ((hp.append hp').mono fun _ _ _ _ hs => hs.1)
  exact ⟨g, _, t, hm, hp.append hp', hpc, hne,
    (hserved.2 (hp.append hp')).1 2 ⟨0, 0⟩ (located_held (by rw [hpc]; rfl))
      (by rw [hpc]; simp [Pc.leaving]) hne⟩

/-- The global state of a party run agrees with that of a pass on the queues, the
targets and the partitions, with no re-targeting under way. -/
structure Mirrors (s : Sys) (g : Global) : Prop where
  queues : SameQueues s.g g
  partId : ∀ c, (g.streams c).partId = (s.g.streams c).partId
  reb : s.reb = none

/-- Only the rebalancer moves. -/
structure RebOnly (s t : Sys) : Prop where
  scheds : t.scheds = s.scheds
  pool : ∀ c, (t.g.streams c).pool = (s.g.streams c).pool
  work : ∀ l, (t.g.loads l).pool = (s.g.loads l).pool

section Pass

variable {cfg : Config} {S : LoadId → Prop} {s : Sys} {g g' : Global}

theorem RebOnly.refl (s : Sys) : RebOnly s s := ⟨rfl, fun _ => rfl, fun _ => rfl⟩

theorem RebOnly.trans {t u : Sys} (h : RebOnly s t) (h' : RebOnly t u) : RebOnly s u :=
  ⟨h'.scheds.trans h.scheds, fun c => (h'.pool c).trans (h.pool c), fun l => (h'.work l).trans (h.work l)⟩

theorem SameQueues.moved (h : SameQueues g g') {src dst : Nat} (hne : src ≠ dst) (ms : List LoadId)
    (a b a' b' : Nat) : SameQueues (g.moved src dst ms a b) (g'.moved src dst ms a' b') := by
  have hshape := moved_sameShape g ms a b hne
  have hshape' := moved_sameShape g' ms a' b' hne
  refine ⟨?_, ?_, ?_, ?_, ?_, h.nrMappings, h.mappings⟩
  · intro c
    rw [hshape.rank, hshape'.rank, h.rank]
  · intro c
    rw [hshape.used, hshape'.used, h.used]
  · intro c
    by_cases hs : c = src
    · rw [hs, moved_src _ _ _ _ hne, moved_src _ _ _ _ hne, h.loadQ]
    · by_cases hd : c = dst
      · rw [hd, moved_dst, moved_dst, h.loadQ]
      · rw [moved_other _ _ _ _ hs hd, moved_other _ _ _ _ hs hd, h.loadQ]
  · intro c
    by_cases hs : c = src
    · rw [hs, moved_src _ _ _ _ hne, moved_src _ _ _ _ hne]
      dsimp only
      rw [h.nrLoads]
    · by_cases hd : c = dst
      · rw [hd, moved_dst, moved_dst]
        dsimp only
        rw [h.nrLoads]
      · rw [moved_other _ _ _ _ hs hd, moved_other _ _ _ _ hs hd, h.nrLoads]
  · intro l
    rw [moved_destRank, moved_destRank, h.rank, h.destRank]

theorem party_migrateLoads {src dst : Nat} (hlt : dst < cfg.nrCores) (ms : List LoadId) {s : Sys}
    (hr : s.reb = none) (he : Ends s.g src dst) (hnodup : ms.Nodup)
    (hms : ∀ l ∈ ms, l ∈ (s.g.streams src).loadQ) :
    ∃ log, Path (PartyStep cfg) s log { s with g := ms.foldl (migrateLoad src dst) s.g } := by
  induction ms generalizing s with
  | nil => exact ⟨[], .nil s⟩
  | cons l ms ih =>
    obtain ⟨hl, hnodup⟩ := List.nodup_cons.mp hnodup
    obtain ⟨t, hrelink, -, hdest⟩ := party_migrateLoad hr (hms l List.mem_cons_self) hlt he
    have hmoved : migrateLoad src dst s.g l =
        s.g.moved src dst [l] (s.g.qdepth src) (s.g.qdepth dst) := foldl_migrateLoad s.g he.ne [l]
    have he' : Ends (migrateLoad src dst s.g l) src dst := by
      rw [hmoved]
      exact he.of_shape (moved_sameShape s.g [l] _ _ he.ne)
    have hrest : ∀ m ∈ ms, m ∈ ((migrateLoad src dst s.g l).streams src).loadQ := by
      intro m hm
      have hml : m ≠ l := fun he => hl (he ▸ hm)
      rw [hmoved, moved_src _ _ _ _ he.ne, List.diff_cons, List.diff_nil]
      exact (List.mem_erase_of_ne hml).mpr (hms m (List.mem_cons_of_mem _ hm))
    obtain ⟨log, hp⟩ := ih (s := { s with g := migrateLoad src dst s.g l }) hr he' hnodup hrest
    exact ⟨_, .cons hrelink (.cons hdest hp)⟩

theorem Mirrors.step (h : Mirrors s g) (hl : Linked cfg g S) {a : Act} (hst : RebStep cfg a g g') :
    ∃ log t, Path (PartyStep cfg) s log t ∧ Mirrors t g' ∧ RebOnly s t := by
  rcases hst.queues with ⟨hq, hp⟩ | ⟨src, dst, ms, x, y, he, _, hms, rfl⟩ | ⟨c, p, rfl, hp, hempty, rfl⟩
  · exact ⟨[], s, .nil s, ⟨h.queues.trans hq, fun c => (hp c).trans (h.partId c), h.reb⟩, .refl s⟩
  · have he' : Ends s.g src dst := ⟨he.ne, by rw [← h.queues.used, he.used_src],
      by rw [← h.queues.used, he.used_dst], by rw [← h.partId, ← h.partId, he.partId]⟩
    obtain ⟨log, hpath⟩ := party_migrateLoads (s := s) (hl.used_lt dst he.used_dst) ms h.reb he'
      ((hl.nodup src).sublist hms) (fun l hm => by rw [← h.queues.loadQ]; exact hms.subset hm)
    rw [foldl_migrateLoad s.g he.ne ms] at hpath
    have hshape := moved_sameShape g ms x y he.ne
    have hshape' := moved_sameShape s.g ms (s.g.qdepth src) (s.g.qdepth dst) he.ne
    refine ⟨log, _, hpath, ⟨h.queues.moved he.ne ms _ _ x y, fun c => ?_, h.reb⟩,
      rfl, fun c => ?_, fun l => ?_⟩
    · rw [hshape.partId, hshape'.partId, h.partId]
    · by_cases hs : c = src
      · rw [hs, moved_src _ _ _ _ he.ne]
      · by_cases hd : c = dst
        · rw [hd, moved_dst]
        · rw [moved_other _ _ _ _ hs hd]
    · unfold Global.moved
      dsimp only
      split_ifs <;> rfl
  · have hstep : PartyStep cfg (.relabel c p) s { s with g := setPartitionId c p s.g } := by
      refine .relabel h.reb ?_ hp
      rw [← h.queues.loadQ]
      exact hl.emptied hempty
    refine ⟨_, _, .single hstep, ⟨?_, fun d => ?_, h.reb⟩, rfl, fun d => ?_, fun _ => rfl⟩
    · have hold := (setPartitionId_queues c p s.g)
      have hnew := h.queues.trans (setPartitionId_queues c p g)
      exact ⟨fun d => (hnew.rank d).trans (hold.rank d).symm, fun d => (hnew.used d).trans (hold.used d).symm,
        fun d => (hnew.loadQ d).trans (hold.loadQ d).symm,
        fun d => (hnew.nrLoads d).trans (hold.nrLoads d).symm, hnew.destRank, hnew.nrMappings, hnew.mappings⟩
    · by_cases hd : d = c
      · subst hd
        simp [setPartitionId, Global.setStream]
      · rw [setPartitionId_other hd, setPartitionId_other hd]
        exact h.partId d
    · by_cases hd : d = c
      · subst hd
        simp [setPartitionId, Global.setStream]
      · rw [setPartitionId_other hd]

theorem Mirrors.path {log : List (Act × Global)} (hp : Path (RebStep cfg) g log g') {s : Sys}
    (h : Mirrors s g) (hl : Linked cfg g S) :
    ∃ log' t, Path (PartyStep cfg) s log' t ∧ Mirrors t g' ∧ RebOnly s t := by
  induction hp generalizing s with
  | nil g => exact ⟨[], s, .nil s, h, .refl s⟩
  | cons hst _ ih =>
    obtain ⟨log₁, u, hp₁, hu, hr₁⟩ := h.step hl hst
    obtain ⟨log₂, t, hp₂, ht, hr₂⟩ := ih hu (hst.linked hl)
    exact ⟨log₁ ++ log₂, t, hp₁.append hp₂, ht, hr₁.trans hr₂⟩

theorem PartyStep.partsInRange {a : PartyLabel} {s t : Sys} (hs : PartyStep cfg a s t)
    (h : PartsInRange cfg s.g) : PartsInRange cfg t.g := by
  cases hs with
  | sys hstep _ =>
    intro c hc
    rw [hstep.partId]
    exact h c (by rw [← hstep.move.used]; exact hc)
  | @relabel _ c p _ _ hp =>
    intro d hd
    by_cases hdc : d = c
    · subst hdc
      simpa [setPartitionId, Global.setStream] using hp
    · rw [setPartitionId_other hdc] at hd ⊢
      exact h d hd

end Pass

/-- A pass of the rebalancer, at any level, is a run of the parties' steps in which
the rebalancer alone moves: from any state of any interleaved run in which it has
nothing pending, and for any sizes, settings and sleep times, these steps lead to
the queues, targets and partitions that the pass leaves. -/
theorem pass_is_party_run {cfg : Config} (hv : cfg.Valid) {g : Global} (hg : Mapped cfg g)
    {log : List (PartyLabel × Sys)} {s : Sys} (hp : Path (PartyStep cfg) (launch g) log s)
    (hr : s.reb = none) {u : Global} (hu : Between s.g u) (pf : Platform) :
    ∃ log' t, Path (PartyStep cfg) s log' t ∧ RebOnly s t ∧ t.reb = none ∧
      SameQueues t.g ((rebPass pf cfg).run u).st ∧
      ∀ c, (((rebPass pf cfg).run u).st.streams c).partId = (t.g.streams c).partId := by
  have hlinked : Linked cfg s.g g.Created := by
    have h := (hp.invariant (I := fun s => Linked cfg s.settled g.Created) (fun _ _ _ hs h => hs.linked h)
      (hg.initial hv).laid.linked).2
    unfold Sys.settled at h
    rw [hr] at h
    exact h
  have hparts := (hp.invariant (I := fun s => PartsInRange cfg s.g) (fun _ _ _ hs h => hs.partsInRange h)
    (hg.initial hv).parts).2
  have hseen : PartsInRange cfg u := by
    intro c hc
    rw [hu.partId]
    exact hparts c (by rw [← hu.queues.used]; exact hc)
  obtain ⟨l, _, hpath⟩ := rebPass_path pf hv hseen
  have hfirst := updateStreamsStat_queues cfg u
  have hq := hu.queues.trans hfirst.1
  have hm : Mirrors s (abtstUpdateStreamsStat cfg u) :=
    ⟨hq, fun c => (hfirst.2 c).trans (hu.partId c), hr⟩
  obtain ⟨log', t, hp', ht, honly⟩ := hm.path hpath (hlinked.of_queues hq)
  exact ⟨log', t, hp', honly, ht.reb, ht.queues, ht.partId⟩

/-- While scheduler 2 holds the unit of a load, a pass moves the load to core 3 and
gives core 2 to the other partition. -/
theorem pass_is_party_run_moved : ∃ g log s log' t, Mapped sharedConfig g ∧
    Path (PartyStep sharedConfig) (launch g) log s ∧ (s.scheds 2).pc = .holding (.sched ⟨1, 0⟩) 1 ∧
    Path (PartyStep sharedConfig) s log' t ∧ RebOnly s t ∧
    ⟨1, 0⟩ ∈ (s.g.streams 2).loadQ ∧ ⟨1, 0⟩ ∈ (t.g.streams 3).loadQ ∧
    (s.g.streams 2).partId = 1 ∧ (t.g.streams 2).partId = 0 := by
  have hrun : (startWith sharedConfig [0, 1]).any (fun g =>
      (play (next sharedConfig (splitStep sharedConfig)) (List.replicate 3 (.sched 2 false))
        (launch g)).any fun s => decide ((s.scheds 2).pc = .holding (.sched ⟨1, 0⟩) 1 ∧ s.reb = none ∧
          ⟨1, 0⟩ ∈ (s.g.streams 2).loadQ ∧ (s.g.streams 2).partId = 1 ∧
          ⟨1, 0⟩ ∈ ((afterRush (busy rush 2 s.g)).streams 3).loadQ ∧
          ((afterRush (busy rush 2 s.g)).streams 2).partId = 0)) = true := by
    decide +kernel
  obtain ⟨g, hg, hrun⟩ := (Option.any_eq_true _ _).mp hrun
  obtain ⟨s, hs, hrun⟩ := (Option.any_eq_true _ _).mp hrun
  obtain ⟨hpc, hr, hbefore, howner, hmoved, hlent⟩ := of_decide_eq_true hrun
  obtain ⟨log, hp⟩ := sched_path hs
  have hp : Path (PartyStep sharedConfig) (launch g) log s := hp.mono fun _ _ _ _ hst => hst.1
  have hm := startWith_mapped hg
  obtain ⟨log', t, hp', honly, -, hq, hpart⟩ :=
    pass_is_party_run sharedConfig_valid hm hp hr (busy_between rush 2 s.g) sortedPlatform
  refine ⟨g, log, s, log', t, hm, hp, hpc, hp', honly, hbefore, ?_, howner, (hpart 2).symm.trans hlent⟩
  rw [← hq.loadQ]
  exact hmoved

end AbtSt
