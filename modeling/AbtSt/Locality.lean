import AbtSt.Runs
import AbtSt.Env

/-! Runs of passes from an arbitrary state. Below level 3 no load leaves the
node that it started on, and at every level a partition that had a core on a
node keeps one there. -/

namespace AbtSt

/-- The states between passes of a run that starts in `g`, where every pass
starts in a state of `Ok`. -/
inductive RunFrom (cfg : Config) (Ok : Global → Prop) (g : Global) : Global → Prop
  | start : RunFrom cfg Ok g g
  | between {s t : Global} : RunFrom cfg Ok g s → Between s t → RunFrom cfg Ok g t
  | pass {s : Global} {pf : Platform} : RunFrom cfg Ok g s → Ok s →
      (rebPass pf cfg).fault s = none → RunFrom cfg Ok g ((rebPass pf cfg).run s).st

inductive SeenFrom (cfg : Config) (Ok : Global → Prop) (g : Global) : Global → Prop
  | run {s : Global} : RunFrom cfg Ok g s → SeenFrom cfg Ok g s
  | during {s : Global} {pf : Platform} {e : Act × Global} : RunFrom cfg Ok g s → Ok s →
      e ∈ ((rebPass pf cfg).run s).log → SeenFrom cfg Ok g e.2

theorem SeenFrom.invariant {cfg : Config} (hv : cfg.Valid) {Ok I : Global → Prop} {g s : Global}
    (hok : ∀ a s t, RebStep cfg a s t → Ok s → Ok t) (hstart : I g)
    (hbetween : ∀ s t, Between s t → I s → I t)
    (hstep : ∀ a s t, RebStep cfg a s t → Ok s → I s → I t) (h : SeenFrom cfg Ok g s) : I s := by
  have hpass : ∀ {s : Global} (pf : Platform), Ok s → I s →
      (∀ e ∈ ((rebPass pf cfg).run s).log, I e.2) ∧ I ((rebPass pf cfg).run s).st := by
    intro s pf hs hi
    have hpath := (rebPass_follows_any pf hv).path (s := s) trivial
    have hinv := hpath.invariant (I := fun t => Ok t ∧ I t)
      (fun a t u htu ht => ⟨hok a t u htu ht.1, hstep a t u htu ht.1 ht.2⟩) ⟨hs, hi⟩
    exact ⟨fun e he => (hinv.1 e he).2, hinv.2.2⟩
  have hrun : ∀ {s : Global}, RunFrom cfg Ok g s → I s := by
    intro s h
    induction h with
    | start => exact hstart
    | between _ hb ih => exact hbetween _ _ hb ih
    | @pass _ pf _ hs _ ih => exact (hpass pf hs ih).2
  cases h with
  | run h => exact hrun h
  | @during _ pf e h hs he => exact (hpass pf hs (hrun h)).1 e he

def Config.env (cfg : Config) : Env := ⟨cfg.nrCores, cfg.nrNumas, cfg.numaInfo⟩

/-- The node of a core, as the rebalancer looks it up. -/
def Config.numaOf (cfg : Config) (c : Nat) : Option Nat := abtstEnvGetNumaId cfg.env c

theorem Config.Valid.numaOf_eq {cfg : Config} (hv : cfg.Valid) {n c : Nat} (hn : n < cfg.nrNumas)
    (hc : c ∈ cfg.coresOf n) : cfg.numaOf c = some n := by
  apply abtstEnvGetNumaId_eq cfg.env hn
  · exact Numa.has_iff.mpr (mem_coresOf.mp hc)
  · intro k hk hkc
    exact hv.numa_unique hk hn (mem_coresOf.mpr (Numa.has_iff.mp hkc)) hc

theorem SameNuma.numaOf_eq {cfg : Config} (hv : cfg.Valid) {src dst : Nat}
    (h : SameNuma cfg src dst) : cfg.numaOf src = cfg.numaOf dst := by
  obtain ⟨n, hn, hs, hd⟩ := h
  rw [hv.numaOf_eq hn hs, hv.numaOf_eq hn hd]

/-- The loads are linked, each on the node where it is in `g`. -/
structure AtHome (cfg : Config) (S : LoadId → Prop) (g s : Global) : Prop where
  linked : Linked cfg s S
  numa : ∀ l c d, l ∈ (g.streams c).loadQ → l ∈ (s.streams d).loadQ → cfg.numaOf d = cfg.numaOf c

section AtHome

variable {cfg : Config} {S : LoadId → Prop} {g s t : Global}

theorem AtHome.refl (h : Linked cfg g S) : AtHome cfg S g g :=
  ⟨h, fun l c d hc hd => by rw [h.unique c d l hc hd]⟩

theorem AtHome.of_queues (hq : SameQueues s t) (h : AtHome cfg S g s) : AtHome cfg S g t := by
  refine ⟨h.linked.of_queues hq, ?_⟩
  intro l c d hc hd
  rw [hq.loadQ] at hd
  exact h.numa l c d hc hd

theorem AtHome.step (hv : cfg.Valid) {a : Act} (hst : RebStep cfg a s t)
    (hlevel : s.rebalance.rebalanceLevel ≤ 2) (h : AtHome cfg S g s) : AtHome cfg S g t := by
  rcases hst.queues with ⟨hq, _⟩ | ⟨src, dst, ms, x, y, he, hr, hms, rfl⟩ | ⟨c, p, _, _, _, rfl⟩
  · exact h.of_queues hq
  · refine ⟨h.linked.moved x y he.ne he.used_dst hms, ?_⟩
    -- nodes are crossed at level 3 only
    have hsame : SameNuma cfg src dst := by
      rcases hr with hr | hr
      · exact hr
      · have := hr.1
        omega
    intro l c d hc hd
    rcases (mem_moved_loadQ x y h.linked he.ne hms d l).mp hd with ⟨hl, rfl⟩ | ⟨_, hl⟩
    · rw [← hsame.numaOf_eq hv]
      exact h.numa l c src hc (hms.subset hl)
    · exact h.numa l c d hc hl
  · exact h.of_queues (setPartitionId_queues c p s)

end AtHome

/-- No traffic between nodes below level 3: in every state of a run of passes at
level 2 or less, each load is on one stream, on the node where it started. -/
theorem load_keeps_numa_below_level_three {cfg : Config} (hv : cfg.Valid) {S : LoadId → Prop}
    {g : Global} (hg : Linked cfg g S) :
    ∀ s, SeenFrom cfg (fun s => s.rebalance.rebalanceLevel ≤ 2) g s → ∀ l, S l →
      ∃ c d, l ∈ (g.streams c).loadQ ∧ l ∈ (s.streams d).loadQ ∧
        (∀ e, l ∈ (s.streams e).loadQ → e = d) ∧ cfg.numaOf d = cfg.numaOf c := by
  intro s hs l hl
  have hkeep : ∀ a s t, RebStep cfg a s t → s.rebalance.rebalanceLevel ≤ 2 →
      t.rebalance.rebalanceLevel ≤ 2 := fun a s t h hs => by rw [h.rebalance_eq]; exact hs
  have hhome : AtHome cfg S g s := hs.invariant hv hkeep (.refl hg)
    (fun _ _ hb => AtHome.of_queues hb.queues) (fun _ _ _ hst hlevel => AtHome.step hv hst hlevel)
  obtain ⟨c, hc⟩ := (hg.mem_iff l).mp hl
  obtain ⟨d, hd⟩ := (hhome.linked.mem_iff l).mp hl
  exact ⟨c, d, hc, hd, fun e he => hhome.linked.unique e d l he hd, hhome.numa l c d hc hd⟩

theorem load_keeps_numa_below_level_three_moved : ∃ g d, RushHour g ∧
    SeenFrom sharedConfig (fun s => s.rebalance.rebalanceLevel ≤ 2) g (afterRush g) ∧ d ≠ 2 ∧
    ⟨1, 0⟩ ∈ ((afterRush g).streams d).loadQ ∧ sharedConfig.numaOf d = sharedConfig.numaOf 2 := by
  obtain ⟨g, hg, h⟩ := exists_rushHour
  have hp := (Visited.reachable h.reachable).placed sharedConfig_valid
  have hseen : SeenFrom sharedConfig (fun s => s.rebalance.rebalanceLevel ≤ 2) g (afterRush g) :=
    .run (.pass .start (by rw [h.level]) h.completes)
  obtain ⟨c, d, hc, hd, hunique, heq⟩ :=
    load_keeps_numa_below_level_three sharedConfig_valid hp.linked _ hseen _ h.created
  obtain rfl := hp.linked.unique 2 c _ h.before hc
  obtain rfl := hunique 3 h.moved
  exact ⟨g, 3, h, hseen, by decide, hd, heq⟩

/-- No partition loses its last core on a node, and no stream is put in or out
of use. -/
structure Keeps (cfg : Config) (g s : Global) : Prop where
  used : ∀ c, (s.streams c).used = (g.streams c).used
  mappings : s.mappings = g.mappings
  cores : ∀ n < cfg.nrNumas, ∀ p, g.group (cfg.coresOf n) p ≠ [] → s.group (cfg.coresOf n) p ≠ []

section Keeps

variable {cfg : Config} {g s t : Global}

theorem Keeps.refl (cfg : Config) (g : Global) : Keeps cfg g g :=
  ⟨fun _ => rfl, rfl, fun _ _ _ h => h⟩

theorem Keeps.of_labels (hu : ∀ c, (t.streams c).used = (s.streams c).used)
    (hp : ∀ c, (t.streams c).partId = (s.streams c).partId) (hm : t.mappings = s.mappings)
    (h : Keeps cfg g s) : Keeps cfg g t := by
  refine ⟨fun c => (hu c).trans (h.used c), hm.trans h.mappings, fun n hn p hne => ?_⟩
  rw [Global.group_congr hu hp]
  exact h.cores n hn p hne

theorem Keeps.setPartitionId (hv : cfg.Valid) {c d n p : Nat} (he : Ends s c d)
    (hn : n < cfg.nrNumas) (hc : c ∈ cfg.coresOf n) (hd : d ∈ cfg.coresOf n) (h : Keeps cfg g s) :
    Keeps cfg g (setPartitionId c p s) := by
  have hother : ∀ e, e ≠ c → (AbtSt.setPartitionId c p s).streams e = s.streams e := fun e hec => by
    simp [AbtSt.setPartitionId, Global.setStream, hec]
  refine ⟨fun e => ((setPartitionId_queues c p s).used e).trans (h.used e), h.mappings,
    fun m hm q hne => ?_⟩
  obtain ⟨e, hmem⟩ := List.exists_mem_of_ne_nil _ (h.cores m hm q hne)
  obtain ⟨hem, heu, hep⟩ := Global.mem_group.mp hmem
  by_cases hec : e = c
  · -- the core that leaves has the receiver of its loads beside it
    subst hec
    obtain rfl := hv.numa_unique hm hn hem hc
    have hde := hother d (fun hd => he.ne hd.symm)
    exact List.ne_nil_of_mem (Global.mem_group.mpr
      ⟨hd, by rw [hde]; exact he.used_dst, by rw [hde, ← he.partId]; exact hep⟩)
  · have hse := hother e hec
    exact List.ne_nil_of_mem (Global.mem_group.mpr ⟨hem, by rw [hse]; exact heu, by rw [hse]; exact hep⟩)

theorem Keeps.step (hv : cfg.Valid) {a : Act} (hst : RebStep cfg a s t) (h : Keeps cfg g s) :
    Keeps cfg g t := by
  rcases hst.queues with ⟨hq, hp⟩ | ⟨_, _, ms, x, y, he, _, _, rfl⟩ | ⟨c, p, rfl, _, _, _⟩
  · exact h.of_labels hq.used hp hq.mappings
  · have hshape := moved_sameShape s ms x y he.ne
    exact h.of_labels hshape.used hshape.partId hshape.mappings
  · cases hst with
    | setPartition he hn hc hd => exact h.setPartitionId hv he hn hc hd

end Keeps

/-- No partition is starved: in every state of every run the used streams are
those of the start, and a partition with a core on a node at the start has one
there, so that its loads have a stream there that may take them. -/
theorem partition_keeps_core {cfg : Config} (hv : cfg.Valid) (g : Global) :
    ∀ s, SeenFrom cfg (fun _ => True) g s →
      (∀ c, (s.streams c).used = (g.streams c).used) ∧
      (∀ p, ∀ n < cfg.nrNumas, 1 ≤ (g.group (cfg.coresOf n) p).length →
        1 ≤ (s.group (cfg.coresOf n) p).length) ∧
      ∀ l : LoadId, ∀ n < cfg.nrNumas,
        g.group (cfg.coresOf n) (g.mappings l.mapping).partitionId ≠ [] →
        ∃ c ∈ cfg.coresOf n, (s.streams c).used = true ∧
          (s.streams c).partId = (s.mappings l.mapping).partitionId := by
  intro s hs
  have hkeeps : Keeps cfg g s := hs.invariant hv (fun _ _ _ _ _ => trivial) (.refl cfg g)
    (fun _ _ hb h => h.of_labels hb.queues.used hb.partId hb.queues.mappings)
    (fun _ _ _ hst _ h => h.step hv hst)
  refine ⟨hkeeps.used, ?_, ?_⟩
  · intro p n hn hlen
    have hne := hkeeps.cores n hn p (List.ne_nil_of_length_pos hlen)
    exact List.length_pos_of_ne_nil hne
  · intro l n hn hne
    obtain ⟨c, hc⟩ := List.exists_mem_of_ne_nil _ (hkeeps.cores n hn _ hne)
    obtain ⟨hcn, hu, hp⟩ := Global.mem_group.mp hc
    exact ⟨c, hcn, hu, by rw [hp, hkeeps.mappings]⟩

theorem partition_keeps_core_lent : ∃ g, RushHour g ∧
    SeenFrom sharedConfig (fun _ => True) g (afterRush g) ∧
    1 ≤ ((afterRush g).group (sharedConfig.coresOf 0) 1).length := by
  obtain ⟨g, -, h⟩ := exists_rushHour
  have hp := (Visited.reachable h.reachable).placed sharedConfig_valid
  have hseen : SeenFrom sharedConfig (fun _ => True) g (afterRush g) :=
    .run (.pass .start trivial h.completes)
  have hmem : 2 ∈ g.group (sharedConfig.coresOf 0) 1 :=
    Global.mem_group.mpr ⟨by decide, hp.linked.used 2 _ h.before, h.owner⟩
  exact ⟨g, h, hseen, (partition_keeps_core sharedConfig_valid g _ hseen).2.1 1 0 (by decide)
    (List.length_pos_of_mem hmem)⟩

end AbtSt
