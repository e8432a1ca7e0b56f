import AbtSt.Defined
import AbtSt.Depth
import AbtSt.Locality

/-! Layouts on which the rebalancer never divides by zero: every node has a core in
use and, where there are several partitions, a core of each of them. A run keeps
this, so that it is enough to look at the start. -/

namespace AbtSt

/-- All that a pass divides by is positive, the interval apart. -/
structure Supplied (cfg : Config) (g : Global) : Prop where
  node : ∀ n < cfg.nrNumas, g.usedIn (cfg.coresOf n) ≠ []
  partition : ¬ cfg.nrPartitions ≤ 1 → ∀ n < cfg.nrNumas, Represented cfg g n

/-- The interval in milliseconds, as the source computes it. -/
def Global.Timed (g : Global) : Prop := u32 (1000 * g.rebalance.rebalanceInterval) ≠ 0

section Supplied

variable {cfg : Config} {g s : Global}

theorem Supplied.keeps (h : Supplied cfg g) (hk : Keeps cfg g s) : Supplied cfg s := by
  refine ⟨fun n hn => ?_, fun hmany n hn p hp => hk.cores n hn p (h.partition hmany n hn p hp)⟩
  rw [Global.usedIn_congr hk.used]
  exact h.node n hn

theorem Supplied.gap (h : Supplied cfg g) (ht : g.Timed) : ¬ Gap cfg g := by
  rintro (⟨n, hn, hnil⟩ | ⟨n, p, hmany, hn, hp, hnil⟩ | hzero)
  · exact h.node n hn hnil
  · exact h.partition hmany n hn p hp hnil
  · exact ht hzero

theorem Placed.fits (h : Placed cfg g) : ¬ Overfull g := by
  rintro ⟨c, hc⟩
  have := h.linked.count c
  omega

theorem RunFrom.keeps (hv : cfg.Valid) (hp : Placed cfg g) (h : RunFrom cfg (fun _ => True) g s) :
    Placed cfg s ∧ Keeps cfg g s :=
  SeenFrom.invariant hv (I := fun s => Placed cfg s ∧ Keeps cfg g s) (fun _ _ _ _ _ => trivial)
    ⟨hp, .refl cfg g⟩
    (fun _ _ hb hi => ⟨hi.1.between hb, hi.2.of_labels hb.queues.used hb.partId hb.queues.mappings⟩)
    (fun _ _ _ hst _ hi => ⟨hi.1.step hst, hi.2.step hv hst⟩) (.run h)

theorem length_usedIn_le_nrCores (hv : cfg.Valid) (g : Global) {n : Nat} (hn : n < cfg.nrNumas) :
    (g.usedIn (cfg.coresOf n)).length ≤ cfg.nrCores := by
  have hsub : g.usedIn (cfg.coresOf n) ⊆ List.range cfg.nrCores := fun c hc =>
    List.mem_range.mpr (hv.core_lt hn (Global.mem_usedIn.mp hc).1)
  simpa using ((g.usedIn_nodup cfg n).subperm hsub).length_le

theorem updateStat_follows (pf : Platform) :
    Follows (RebStep cfg) (fun s => s = g) (abtstRebUpdateStat pf cfg)
      (fun _ s => Fresh cfg s ∧ s.streams = (abtstUpdateStreamsStat cfg g).streams ∧
        s.rebalance = g.rebalance) (fun _ _ => True) := by
  refine .bind (Q := fun _ s => s = abtstUpdateStreamsStat cfg g) (.act fun s hs => ?_) (fun _ => ?_)
  · rw [hs]
    exact ⟨.updateStreamsStat g, rfl⟩
  · refine .bind (Q := fun _ s => FreshParts cfg s ∧
      s.streams = (abtstUpdateStreamsStat cfg g).streams ∧ s.rebalance = g.rebalance) (.act fun s hs => ?_)
      (fun _ => ?_)
    · obtain ⟨_, _, hf⟩ := abtstUpdatePartitionStats_frame cfg s
      refine ⟨.updatePartitionStats s, updatePartitionStats_fresh cfg s, ?_⟩
      rw [hf, hs]
      exact ⟨rfl, rfl⟩
    · refine .bind (updateNumaStats_keeps (fun _ _ _ hs => hs) (fun _ _ _ _ _ _ => trivial)) (fun _ => ?_)
      refine .forM _ (fun i _ => .perform ?_ (fun _ _ _ _ => trivial))
      intro s t hs ht
      obtain ⟨pct, rfl⟩ := updatePowerStat_ok ht
      exact ⟨.updatePowerStat s i pct, hs.1.of_streams rfl rfl rfl rfl, hs.2⟩

end Supplied

/-- All the packets under way are `k` packets of one load. -/
def overload (g : Global) (l : LoadId) (k : Nat) : Global := busy (fun m => if m = l then k else 0) 2 g

section Overload

variable {cfg : Config} {g : Global} {l : LoadId} {k : Nat}

theorem overload_between (g : Global) (l : LoadId) (k : Nat) : Between g (overload g l k) :=
  busy_between _ 2 g

end Overload

section Booted

variable {cfg : Config} {g : Global}

/-- The configuration is in force. -/
def InForce (cfg : Config) (g : Global) : Prop :=
  ∀ c < cfg.nrCores, 0 ≤ cfg.partitionMap c →
    (g.streams c).used = true ∧ (g.streams c).partId = (cfg.partitionMap c).toNat

theorem Mapped.inForce (h : Mapped cfg g) : InForce cfg g := by
  induction h with
  | @start g g' abt _ hs =>
    intro c hc h0
    rw [abtstInitStreams_streams hs]
    simp [hc, initXstream, applyStreamConfig, h0]
  | @create g g' abt type partid id _ hc hid ih =>
    obtain ⟨_, n, rfl⟩ := abtstCreateMapping_loop hc hid
    refine initLoadsLoop_keeps (I := InForce cfg) (fun g i r h => h) (fun g c i h d hd h0 => ?_) n 0 0 ih
    by_cases hdc : d = c
    · subst hdc
      simpa [abtstAddLoadToStream, abtPoolAddSched, Global.setStream] using h d hd h0
    · simpa [abtstAddLoadToStream, abtPoolAddSched, Global.setStream, hdc] using h d hd h0

end Booted

/-- A machine whose nodes are found as they are, and partitions that are numbered in
order and list a core of every node each. -/
structure Deployed (m : Machine) (nodes : List (List CpuItem)) (parts : List Partition) : Prop where
  described : Described m nodes
  contiguous : Contiguous m.nrCores nodes
  wellFormed : WellFormed m.nrCores parts
  nonempty : parts ≠ []
  ids : ∀ (i : Nat) (p : Partition), parts[i]? = some p → p.partitionId = i
  spread : ∀ p ∈ parts, ∀ i < nodes.length, ∃ c : Nat, Owns nodes i c ∧ (c : Int) ∈ p.partitionCores

section Deployed

variable {m : Machine} {nodes : List (List CpuItem)} {parts : List Partition} {env : Env} {map : Nat → Int}

theorem Described.nrNumas_le (h : Described m nodes) (henv : abtstInitEnv m = .ok env) :
    env.nrCores = m.nrCores ∧ env.nrNumas ≤ nodes.length := by
  have hpos := h.nodes_pos
  rw [abtstInitEnv_eq h] at henv
  split_ifs at henv <;> rw [← Except.ok.inj henv]
  · exact ⟨rfl, hpos⟩
  · exact ⟨rfl, Nat.le_refl _⟩

theorem Deployed.few (h : Deployed m nodes parts) : parts.length ≤ maxPartitions := by
  by_contra hlt
  have hget := List.getElem?_eq_getElem (Nat.not_le.mp hlt)
  have hid := h.ids _ _ hget
  have hmax := (h.wellFormed.ids _ (List.mem_of_getElem? hget)).2
  omega

end Deployed

end AbtSt
