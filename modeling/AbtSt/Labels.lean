import AbtSt.Pass

/-! Which actions the parts of a pass can log. Only level 2 changes the partition of
a core, and only power saving switches a node. -/

namespace AbtSt

def Act.Relabels : Act → Prop
  | .setPartition _ _ => True
  | _ => False

def Act.Switches : Act → Prop
  | .setPsState _ _ => True
  | _ => False

/-- All actions of the program are in `A`. -/
def Within {α : Type} (A : Act → Prop) (m : Reb α) : Prop :=
  Follows (fun a _ _ => A a) (fun _ => True) m (fun _ _ => True) (fun _ _ => True)

namespace Within

variable {α β : Type} {A A' : Act → Prop}

theorem pure (a : α) : Within A (pure a : Reb α) := Follows.pure (fun _ _ => trivial)

theorem act {a : Act} (h : A a) (f : Global → Global) : Within A (Prog.act a f) :=
  Follows.act (fun _ _ => ⟨h, trivial⟩)

theorem perform {a : Act} (h : A a) (f : Global → Except Fault Global) : Within A (Prog.perform a f) :=
  Follows.perform (fun _ _ _ _ => ⟨h, trivial⟩) (fun _ _ _ _ => trivial)

theorem bind {m : Reb α} {f : α → Reb β} (hm : Within A m) (hf : ∀ a, Within A (f a)) :
    Within A (m >>= f) :=
  Follows.bind hm hf

theorem read_bind {f : Global → Reb β} (h : ∀ g, Within A (f g)) : Within A (Prog.read >>= f) :=
  Follows.read_bind (fun s _ => (h s).pre (fun _ _ => trivial))

theorem readStats_bind {f : Global → Reb β} (hA : A .readStats) (h : ∀ g, Within A (f g)) :
    Within A (readStats >>= f) := by
  unfold readStats
  rw [bind_assoc]
  exact .bind (.act hA _) (fun _ => .read_bind h)

theorem lift_bind {e : Except Fault α} {f : α → Reb β} (h : ∀ a, Within A (f a)) :
    Within A (Prog.lift e >>= f) :=
  Follows.lift_bind (fun _ _ _ _ => trivial) (fun a _ => h a)

theorem forM {f : α → Reb PUnit} (l : List α) (h : ∀ x, Within A (f x)) : Within A (l.forM f) :=
  Follows.forM l (fun x _ => h x)

theorem onlyIf {c : Prop} [Decidable c] {m : Reb Unit} (h : Within A m) : Within A (Prog.onlyIf c m) :=
  Follows.onlyIf (fun _ => h) (fun _ _ _ => trivial)

theorem mono {m : Reb α} (h : Within A m) (hA : ∀ a, A a → A' a) : Within A' m :=
  Follows.relax h (fun _ _ _ => hA _)

end Within

/-- What the actions of a part keep, the part keeps. -/
theorem Follows.within {α : Type} {cfg : Config} {A : Act → Prop} {m : Reb α} {P I : Global → Prop}
    {Q : α → Global → Prop} {E : Fault → Global → Prop}
    (hI : ∀ a s t, RebStep cfg a s t → A a → I s → I t) (h : Follows (RebStep cfg) P m Q E)
    (hw : Within A m) :
    Follows (RebStep cfg) (fun s => P s ∧ I s) m (fun a s => Q a s ∧ I s) (fun _ _ => True) := by
  have hboth := (h.and (hw.pre (fun _ _ => trivial))).and_invariant (I := I)
    (fun a s t hst hs => hI a s t hst.1 hst.2 hs)
  exact ((hboth.relax (fun _ _ _ hst => hst.1)).post (fun _ _ hs => ⟨hs.1.1, hs.2⟩)).faults
    (fun _ _ _ => trivial)

theorem lowerLevels_keep {cfg : Config} {A : Act → Prop} {I : Global → Prop} (hv : cfg.Valid) (pf : Platform)
    (level : Int) (hI : ∀ a s t, RebStep cfg a s t → A a → I s → I t)
    (hnumas : Within A (abtstRebInNumas pf cfg)) (hparts : Within A (abtstRebInPartitions pf cfg))
    (hreset : A .resetStreamsStat) :
    Follows (RebStep cfg) (fun s => Fresh cfg s ∧ I s)
      (do
        Prog.onlyIf (2 ≤ level) (abtstRebInNumas pf cfg)
        Prog.onlyIf (1 ≤ level) (abtstRebInPartitions pf cfg)
        Prog.act .resetStreamsStat (abtstResetStreamsStat cfg))
      (fun _ => I) (fun _ _ => True) := by
  refine .bind (Q := fun _ s => Fresh cfg s ∧ I s) (.onlyIf (fun _ => ?_) (fun _ _ hs => hs)) (fun _ => ?_)
  · exact (rebInNumas_follows hv).within hI hnumas
  refine .bind (Q := fun _ s => Fresh cfg s ∧ I s) (.onlyIf (fun _ => ?_) (fun _ _ hs => hs)) (fun _ => ?_)
  · exact (rebInPartitions_follows hv).within hI hparts
  · refine .act (fun s hs => ⟨.resetStreamsStat s, ?_⟩)
    exact hI _ s _ (.resetStreamsStat s) hreset hs.2

/-- The actions that only count. -/
def Act.Counts : Act → Prop
  | .readStats | .updateStreamsStat | .updatePartitionStats | .updateNumaStat _ | .updatePowerStat _
  | .resetStreamsStat => True
  | _ => False

/-- The actions that every level takes. -/
def Act.Plain (a : Act) : Prop := ¬ a.Relabels ∧ ¬ a.Switches

theorem Act.Counts.plain {a : Act} (h : a.Counts) : a.Plain := by
  cases a with
  | setPartition _ _ => exact absurd h id
  | setPsState _ _ => exact absurd h id
  | _ => exact ⟨id, id⟩

section Parts

variable (pf : Platform) (cfg : Config)

theorem combineStreams_plain (src dst : Nat) : Within Act.Plain (combineStreams src dst) :=
  .perform ⟨id, id⟩ _

theorem updatePartitionStats_counts : Within Act.Counts (updatePartitionStats cfg) :=
  .act trivial _

theorem abtstUpdateNumaStats_counts : Within Act.Counts (abtstUpdateNumaStats pf cfg) :=
  .forM _ (fun _ => .perform trivial _)

theorem abtstUpdatePowerStats_counts : Within Act.Counts (abtstUpdatePowerStats pf cfg) :=
  .forM _ (fun _ => .perform trivial _)

theorem abtstRebUpdateStat_counts : Within Act.Counts (abtstRebUpdateStat pf cfg) :=
  .bind (.act trivial _) fun _ => .bind (updatePartitionStats_counts cfg) fun _ =>
    .bind (abtstUpdateNumaStats_counts pf cfg) fun _ => abtstUpdatePowerStats_counts pf cfg

theorem rebInPartition_within {A : Act → Prop} (hread : A .readStats)
    (hmove : ∀ src dst, A (.rebalance src dst))
    (n p : Nat) : Within A (rebInPartition pf cfg n p) := by
  refine .readStats_bind hread (fun g => ?_)
  dsimp only
  cases sortStreams pf cfg g (some n) (some p) with
  | none => exact .pure ()
  | some params =>
    refine .lift_bind (fun last => .lift_bind (fun first => ?_))
    split_ifs
    · exact .pure ()
    · exact .pure ()
    · refine .lift_bind (fun avg => .lift_bind (fun r => ?_))
      cases r with
      | none => exact .pure ()
      | some g' => exact .act (hmove _ _) _

theorem abtstRebInPartitions_within {A : Act → Prop} (hread : A .readStats)
    (hmove : ∀ src dst, A (.rebalance src dst)) : Within A (abtstRebInPartitions pf cfg) := by
  refine .forM _ (fun i => .forM _ (fun j => .readStats_bind hread (fun g => ?_)))
  split_ifs
  · exact .pure ()
  · exact rebInPartition_within pf cfg hread hmove i j

theorem abtstRebInPartitions_plain : Within Act.Plain (abtstRebInPartitions pf cfg) :=
  abtstRebInPartitions_within pf cfg ⟨id, id⟩ (fun _ _ => ⟨id, id⟩)

theorem rebInNuma_awake (n : Nat) : Within (fun a => ¬ a.Switches) (rebInNuma pf cfg n) := by
  refine .readStats_bind id (fun g => .lift_bind (fun parts => .lift_bind (fun r => ?_)))
  cases r with
  | none => exact .pure ()
  | some pids =>
    dsimp only
    cases sortStreams pf cfg g (some n) (some pids.1) with
    | none => exact .pure ()
    | some params =>
      refine .lift_bind (fun r => .bind ((combineStreams_plain r.1 r.2).mono fun _ h => h.2) (fun _ => ?_))
      exact .bind (.act id _) fun _ =>
        (updatePartitionStats_counts cfg).mono fun _ h => h.plain.2

theorem abtstRebInNumas_awake : Within (fun a => ¬ a.Switches) (abtstRebInNumas pf cfg) := by
  unfold abtstRebInNumas
  split_ifs
  · exact .pure ()
  · refine .forM _ (fun i => .readStats_bind id (fun g => ?_))
    split_ifs
    · exact .pure ()
    · exact rebInNuma_awake pf cfg i

theorem migrateStreams_plain (dst budget : Nat) (params : List SortParam) (is : List Nat) (count : Int) :
    Within Act.Plain (migrateStreams dst budget params is count) := by
  induction is generalizing count with
  | nil => exact .pure ()
  | cons i is ih =>
    rw [migrateStreams]
    refine .lift_bind (fun e => .read_bind (fun g => ?_))
    split_ifs
    · exact ih count
    · exact ih count
    · exact .bind (combineStreams_plain e.stream dst) (fun _ => ih _)

theorem abtstRebBetweenNumas_plain : Within Act.Plain (abtstRebBetweenNumas pf cfg) := by
  refine .readStats_bind ⟨id, id⟩ (fun g => ?_)
  dsimp only
  split_ifs
  · exact .pure ()
  · cases chooseNumas g (abtstGetAverageQdepth cfg g) (sortNumas pf cfg g true true) with
    | none => exact .pure ()
    | some pair =>
      have h : ∀ s, Follows (fun a _ _ => Act.Plain a) (fun t => t = s)
          (rebBetweenNumas pf cfg pair.1 pair.2 (abtstGetAverageQdepth cfg g)) (fun _ _ => True)
          (fun _ _ => True) := by
        intro s
        refine rebBetweenNumas_cases ⟨id, id⟩ trivial (fun p paramsFrom paramsTo e _ _ _ _ => ?_)
        refine (Within.bind (migrateStreams_plain _ _ _ _ _) fun _ => ?_).pre (fun _ _ => trivial)
        refine Within.mono ?_ (fun _ => Act.Counts.plain)
        exact .bind (updatePartitionStats_counts cfg) fun _ => abtstUpdateNumaStats_counts pf cfg
      exact fun r _ => h r.st r rfl

theorem rebCombineNumas_plain (n : Nat) : Within Act.Plain (rebCombineNumas cfg n) := by
  refine .readStats_bind ⟨id, id⟩ (fun g => ?_)
  split_ifs
  · exact .pure true
  · cases planCores cfg g n (List.range cfg.nrPartitions) (fun _ => none) with
    | none => exact .pure false
    | some toCores =>
      refine .bind (.forM _ (fun i => .read_bind (fun g => ?_))) (fun _ => .pure true)
      split_ifs
      · cases toCores (g.streams i).partId with
        | none => exact Follows.lift (fun _ _ _ _ => trivial) (fun _ _ _ _ => trivial)
        | some toCore => exact combineStreams_plain i toCore
      · exact .pure ()

theorem refresh_counts : Within Act.Counts (updatePartitionStats cfg >>= fun _ =>
    abtstUpdateNumaStats pf cfg >>= fun _ => abtstUpdatePowerStats pf cfg) :=
  .bind (updatePartitionStats_counts cfg) fun _ =>
    .bind (abtstUpdateNumaStats_counts pf cfg) fun _ => abtstUpdatePowerStats_counts pf cfg

theorem abtstRebPowerSaving_home : Within (fun a => ¬ a.Relabels) (abtstRebPowerSaving pf cfg) := by
  refine .readStats_bind id (fun g => ?_)
  dsimp only
  split_ifs
  · exact .pure ()
  · exact .pure ()
  · refine .lift_bind (fun e0 => .lift_bind (fun e1 => ?_))
    refine .bind ((rebCombineNumas_plain cfg _).mono fun _ h => h.1) (fun ok => ?_)
    refine .bind (.onlyIf (.act id _)) (fun _ => ?_)
    exact (refresh_counts pf cfg).mono fun _ h => h.plain.1
  · exact .pure ()
  · cases (sortNumas pf cfg g false false).reverse.find? fun e => g.power.psState e.stream with
    | none => exact .pure ()
    | some e => exact .act id _
  · exact .pure ()

end Parts

end AbtSt
