import AbtSt.Level3
import Mathlib.Algebra.BigOperators.Ring.List

/-! The two nodes of level 3. The array is sorted and searched from both ends,
so that the target has the smallest average of the nodes that may receive and
the source the largest of those that may give, and no such pair is missed. -/

namespace AbtSt

variable {pf : Platform} {cfg : Config} {g : Global}

/-- The nodes that `abtst_reb_between_numas` hands to `reb_between_numas`, as
(`from_numa`, `to_numa`). -/
def selectNumas (pf : Platform) (cfg : Config) (g : Global) : Option (Nat × Nat) :=
  chooseNumas g (abtstGetAverageQdepth cfg g) (sortNumas pf cfg g true true)

/-- With at most one node awake there is nothing to choose from. -/
theorem selectNumas_short
    (h : (sortNumas pf cfg g true true).length ≤ 1) : selectNumas pf cfg g = none := by
  have hz : (sortNumas pf cfg g true true).length - 1 = 0 := by omega
  simp [selectNumas, chooseNumas, hz]

theorem selectNumas_some {src dst : Nat} :
    selectNumas pf cfg g = some (src, dst) ↔ ∃ s t,
      twoEnds (isTarget g (abtstGetAverageQdepth cfg g)) (isSource g (abtstGetAverageQdepth cfg g))
        (sortNumas pf cfg g true true) = some (s, t) ∧ s.stream = src ∧ t.stream = dst := by
  unfold selectNumas
  rw [chooseNumas_eq, Option.map_eq_some_iff]
  constructor
  · rintro ⟨⟨s, t⟩, hfound, heq⟩
    exact ⟨s, t, hfound, congrArg Prod.fst heq, congrArg Prod.snd heq⟩
  · rintro ⟨s, t, hfound, rfl, rfl⟩
    exact ⟨(s, t), hfound, rfl⟩

structure EligibleTarget (cfg : Config) (g : Global) (n : Nat) : Prop where
  numa : n < cfg.nrNumas
  awake : g.power.psState n = false
  used : 0 < (g.numaStat n).usedCores
  below : (g.numaStat n).avgQdepth < abtstGetAverageQdepth cfg g

structure EligibleSource (cfg : Config) (g : Global) (n : Nat) : Prop where
  numa : n < cfg.nrNumas
  awake : g.power.psState n = false
  used : 0 < (g.numaStat n).usedCores
  above : 2 * abtstGetAverageQdepth cfg g ≤ (g.numaStat n).avgQdepth
  busy : 2 * minIosToStartReb < (g.numaStat n).avgQdepth

structure Extremal (cfg : Config) (g : Global) (src dst : Nat) : Prop where
  ne : src ≠ dst
  target : EligibleTarget cfg g dst
  source : EligibleSource cfg g src
  least : ∀ n, EligibleTarget cfg g n → (g.numaStat dst).avgQdepth ≤ (g.numaStat n).avgQdepth
  greatest : ∀ n, EligibleSource cfg g n → (g.numaStat n).avgQdepth ≤ (g.numaStat src).avgQdepth

/-- Complete and extremal. -/
structure WellPaired (pf : Platform) (cfg : Config) (g : Global) : Prop where
  complete : (∃ pair, selectNumas pf cfg g = some pair) ↔
    (∃ n, EligibleTarget cfg g n) ∧ ∃ n, EligibleSource cfg g n
  extremal : ∀ src dst, selectNumas pf cfg g = some (src, dst) → Extremal cfg g src dst

theorem sortNumas_sorted (pf : Platform) (cfg : Config) (g : Global) (sortQdepth checkPs : Bool) :
    (sortNumas pf cfg g sortQdepth checkPs).Pairwise fun a b => a.ios ≤ b.ios := by
  have key : ∀ params : List SortParam,
      (if 1 < params.length then pf.qsort params else params).Pairwise fun a b => a.ios ≤ b.ios := by
    intro params
    split_ifs with h
    · exact pf.qsort_sorted params
    · match params, h with
      | [], _ => exact List.Pairwise.nil
      | [e], _ => exact List.pairwise_singleton _ e
      | _ :: _ :: _, h => simp at h
  exact key _

theorem exists_entry (pf : Platform) {n : Nat} (hn : n < cfg.nrNumas)
    (hps : g.power.psState n = false) : ∃ e ∈ sortNumas pf cfg g true true, e.stream = n := by
  have hmem : n ∈ (List.range cfg.nrNumas).filter fun i => !(true && g.power.psState i) :=
    List.mem_filter.mpr ⟨List.mem_range.mpr hn, by simp [hps]⟩
  exact List.mem_map.mp ((sortNumas_perm pf cfg g true true).mem_iff.mpr hmem)

theorem eligibleTarget_iff {e : SortParam}
    (he : e ∈ sortNumas pf cfg g true true) :
    EligibleTarget cfg g e.stream ↔ isTarget g (abtstGetAverageQdepth cfg g) e = true := by
  obtain ⟨hn, hps⟩ := sortNumas_mem he
  simp only [isTarget, Bool.and_eq_true, decide_eq_true_eq]
  constructor
  · rintro ⟨-, -, hu, hlt⟩
    exact ⟨hu, hlt⟩
  · rintro ⟨hu, hlt⟩
    exact ⟨hn, hps rfl, hu, hlt⟩

theorem eligibleSource_iff {e : SortParam}
    (hA : abtstGetAverageQdepth cfg g < 2 ^ 31) (he : e ∈ sortNumas pf cfg g true true) :
    EligibleSource cfg g e.stream ↔ isSource g (abtstGetAverageQdepth cfg g) e = true := by
  obtain ⟨hn, hps⟩ := sortNumas_mem he
  have hdouble := u32_of_lt (n := 2 * abtstGetAverageQdepth cfg g) (by omega)
  push_cast at hdouble
  simp only [isSource, Bool.and_eq_true, decide_eq_true_eq, hdouble]
  constructor
  · rintro ⟨-, -, hu, hle, hbusy⟩
    exact ⟨⟨hu, hle⟩, hbusy⟩
  · rintro ⟨⟨hu, hle⟩, hbusy⟩
    exact ⟨hn, hps rfl, hu, hle, hbusy⟩

theorem target_lt_source {a b : SortParam}
    (hA : abtstGetAverageQdepth cfg g < 2 ^ 31) (ha : a ∈ sortNumas pf cfg g true true)
    (hb : b ∈ sortNumas pf cfg g true true)
    (hP : isTarget g (abtstGetAverageQdepth cfg g) a = true)
    (hQ : isSource g (abtstGetAverageQdepth cfg g) b = true) :
    (g.numaStat a.stream).avgQdepth < (g.numaStat b.stream).avgQdepth := by
  have hbelow := ((eligibleTarget_iff ha).mpr hP).below
  have habove := ((eligibleSource_iff hA hb).mpr hQ).above
  omega

/-- What holds of an entry of the array is what holds of a node that is awake. -/
theorem exists_entry_iff (pf : Platform) {P : SortParam → Bool}
    {E : Nat → Prop} (hE : ∀ n, E n → n < cfg.nrNumas ∧ g.power.psState n = false)
    (h : ∀ e ∈ sortNumas pf cfg g true true, (E e.stream ↔ P e = true)) :
    (∃ e ∈ sortNumas pf cfg g true true, P e = true) ↔ ∃ n, E n := by
  constructor
  · rintro ⟨e, he, hP⟩
    exact ⟨e.stream, (h e he).mpr hP⟩
  · rintro ⟨n, hn⟩
    obtain ⟨e, he, rfl⟩ := exists_entry pf (hE n hn).1 (hE n hn).2
    exact ⟨e, he, (h e he).mp hn⟩

section Bounded

variable (havg : ∀ n < cfg.nrNumas, (g.numaStat n).avgQdepth < 2 ^ 31)

include havg

/-- The average of the system is one of the averages of its nodes at most, so
that its double still fits. -/
theorem averageQdepth_lt (hsum : g.countedCores cfg < 2 ^ 32) :
    abtstGetAverageQdepth cfg g < 2 ^ 31 := by
  rcases Nat.eq_zero_or_pos (g.countedCores cfg) with hz | hpos
  · rw [averageQdepth_unused hz]
    decide
  · have hle : ((List.range cfg.nrNumas).map fun n =>
        (g.numaStat n).avgQdepth * (g.numaStat n).usedCores).sum ≤
        ((List.range cfg.nrNumas).map fun n => (2 ^ 31 - 1) * (g.numaStat n).usedCores).sum := by
      refine List.sum_le_sum (fun n hn => Nat.mul_le_mul_right _ ?_)
      have := havg n (List.mem_range.mp hn)
      omega
    rw [List.sum_map_mul_left] at hle
    have hmul := Nat.le_of_mul_le_mul_right ((averageQdepth_mul_le hsum).trans hle) hpos
    omega

theorem sortNumas_avg {pf : Platform} {e : SortParam} (he : e ∈ sortNumas pf cfg g true true) :
    e.ios = (g.numaStat e.stream).avgQdepth := by
  obtain ⟨n, hn, rfl⟩ := List.mem_map.mp ((sortNumas_entries pf cfg g true true).mem_iff.mp he)
  have hlt := havg n (List.mem_range.mp (List.mem_filter.mp hn).1)
  rw [if_pos rfl]
  exact i32_of_lt (by omega) (by omega)

theorem sortNumas_sorted_avg (pf : Platform) :
    (sortNumas pf cfg g true true).Pairwise fun a b =>
      (g.numaStat a.stream).avgQdepth ≤ (g.numaStat b.stream).avgQdepth := by
  refine (sortNumas_sorted pf cfg g true true).imp_of_mem (fun ha hb hab => ?_)
  rw [sortNumas_avg havg ha, sortNumas_avg havg hb] at hab
  exact Int.ofNat_le.mp hab

theorem selectNumas_complete (hA : abtstGetAverageQdepth cfg g < 2 ^ 31) (pf : Platform) :
    (∃ pair, selectNumas pf cfg g = some pair) ↔
      (∃ n, EligibleTarget cfg g n) ∧ ∃ n, EligibleSource cfg g n := by
  rw [← exists_entry_iff pf (fun n h => ⟨h.numa, h.awake⟩) (fun e => eligibleTarget_iff),
    ← exists_entry_iff pf (fun n h => ⟨h.numa, h.awake⟩) (fun e => eligibleSource_iff hA),
    ← twoEnds_isSome_iff (sortNumas_sorted_avg havg pf) (fun a ha b hb => target_lt_source hA ha hb)]
  constructor
  · rintro ⟨⟨src, dst⟩, h⟩
    obtain ⟨s, t, hfound, -⟩ := selectNumas_some.mp h
    exact ⟨(s, t), hfound⟩
  · rintro ⟨⟨s, t⟩, hfound⟩
    exact ⟨(s.stream, t.stream), selectNumas_some.mpr ⟨s, t, hfound, rfl, rfl⟩⟩

theorem selectNumas_extremal (hA : abtstGetAverageQdepth cfg g < 2 ^ 31)
    {src dst : Nat} (h : selectNumas pf cfg g = some (src, dst)) : Extremal cfg g src dst := by
  have hsorted := sortNumas_sorted_avg havg pf
  obtain ⟨s, t, hfound, rfl, rfl⟩ := selectNumas_some.mp h
  obtain ⟨l₁, l₂, l₃, hsplit, hP, hQ, -⟩ := twoEnds_some hfound
  have ht : t ∈ sortNumas pf cfg g true true := by simp [hsplit]
  have hs : s ∈ sortNumas pf cfg g true true := by simp [hsplit]
  have hlt := target_lt_source hA ht hs hP hQ
  refine ⟨fun he => ?_, (eligibleTarget_iff ht).mpr hP, (eligibleSource_iff hA hs).mpr hQ, ?_, ?_⟩
  · rw [he] at hlt
    omega
  · intro n hn
    obtain ⟨e, he, rfl⟩ := exists_entry pf hn.numa hn.awake
    exact twoEnds_least hsorted hfound he ((eligibleTarget_iff he).mp hn)
  · intro n hn
    obtain ⟨e, he, rfl⟩ := exists_entry pf hn.numa hn.awake
    exact twoEnds_greatest hsorted hfound he ((eligibleSource_iff hA he).mp hn)

theorem abtstRebBetweenNumas_wellPaired (hsum : g.countedCores cfg < 2 ^ 32) (pf : Platform) :
    (abtstRebBetweenNumas pf cfg = do
      let g ← readStats
      match selectNumas pf cfg g with
      | none => pure ()
      | some (src, dst) => rebBetweenNumas pf cfg src dst (abtstGetAverageQdepth cfg g)) ∧
    WellPaired pf cfg g := by
  have hA := averageQdepth_lt havg hsum
  refine ⟨?_, selectNumas_complete havg hA pf, fun src dst => selectNumas_extremal havg hA⟩
  unfold abtstRebBetweenNumas
  congr 1
  funext g
  dsimp only
  split_ifs with hshort
  · rw [selectNumas_short hshort]
  · rfl

end Bounded

theorem busyNode_wellPaired :
    selectNumas sortedPlatform splitConfig busyNode = some (0, 1) ∧
    WellPaired sortedPlatform splitConfig busyNode ∧ Extremal splitConfig busyNode 0 1 := by
  have hpair : selectNumas sortedPlatform splitConfig busyNode = some (0, 1) := by decide +kernel
  have havg : ∀ n < splitConfig.nrNumas, (busyNode.numaStat n).avgQdepth < 2 ^ 31 := by
    decide +kernel
  have hsum : busyNode.countedCores splitConfig < 2 ^ 32 := by decide +kernel
  have h := (abtstRebBetweenNumas_wellPaired havg hsum sortedPlatform).2
  exact ⟨hpair, h, h.extremal 0 1 hpair⟩

def threeNodes : Config := { splitConfig with nrNumas := 3 }

/-- More used cores than a `uint32_t` holds: their sum wraps to 1, the average
comes out as `2 ^ 31 + 2` and twice the average as 4. -/
def wrappedNodes : Global :=
  { blank with
    numaStat := fun n =>
      if n = 0 then ⟨2 ^ 31 - 1, 2⟩ else if n = 1 then ⟨2 ^ 31 - 1, 0⟩ else ⟨3, 715827884⟩ }

theorem wrappedNodes_not_wellPaired :
    (∀ n < threeNodes.nrNumas, (wrappedNodes.numaStat n).usedCores < 2 ^ 31 ∧
      (wrappedNodes.numaStat n).avgQdepth < 2 ^ 31 ∧
      ((wrappedNodes.numaStat n).usedCores = 0 → (wrappedNodes.numaStat n).avgQdepth = 0)) ∧
    selectNumas sortedPlatform threeNodes wrappedNodes = some (2, 1) ∧
    (¬ ∃ n, EligibleSource threeNodes wrappedNodes n) ∧
    ¬ WellPaired sortedPlatform threeNodes wrappedNodes := by
  have hpair : selectNumas sortedPlatform threeNodes wrappedNodes = some (2, 1) := by decide +kernel
  have hnone : ¬ ∃ n, EligibleSource threeNodes wrappedNodes n := by
    rintro ⟨n, hn⟩
    have hfew : ∀ n < threeNodes.nrNumas, (wrappedNodes.numaStat n).avgQdepth <
        2 * abtstGetAverageQdepth threeNodes wrappedNodes := by decide +kernel
    have habove := hn.above
    have hbelow := hfew n hn.numa
    omega
  exact ⟨by decide +kernel, hpair, hnone, fun h => hnone (h.complete.mp ⟨_, hpair⟩).2⟩

end AbtSt
