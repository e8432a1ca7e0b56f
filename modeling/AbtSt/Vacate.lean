import AbtSt.Level3

/-! Emptying a node for power saving is all or nothing: either a partition has
nowhere to go and nothing is touched, or every load leaves the node. -/

namespace AbtSt

/-- A partition with a used core in node `n` and none in another node that is
awake. -/
def Stranded (cfg : Config) (g : Global) (n p : Nat) : Prop :=
  g.group (cfg.coresOf n) p ≠ [] ∧
    ∀ m < cfg.nrNumas, m ≠ n → g.power.psState m = false → g.group (cfg.coresOf m) p = []

theorem planCores_none_iff {cfg : Config} {g : Global} {n : Nat} (is : List Nat)
    (init : Nat → Option Nat) :
    planCores cfg g n is init = none ↔ ∃ i ∈ is, (g.numaStats i n).usedCores ≠ 0 ∧
      ∀ m < cfg.nrNumas, m ≠ n → g.power.psState m = false → (g.numaStats i m).usedCores = 0 := by
  induction is generalizing init with
  | nil => simp [planCores]
  | cons i is ih =>
    rw [planCores]
    by_cases hz : (g.numaStats i n).usedCores = 0
    · rw [if_pos hz, ih]
      simp [hz]
    · rw [if_neg hz]
      cases hf : (List.range cfg.nrNumas).find? fun j =>
          j != n && !g.power.psState j && (g.numaStats i j).usedCores != 0 with
      | none =>
        have hnone : ∀ m < cfg.nrNumas, m ≠ n → g.power.psState m = false →
            (g.numaStats i m).usedCores = 0 := by
          intro m hm hmn hps
          have := List.find?_eq_none.mp hf m (List.mem_range.mpr hm)
          simpa [hmn, hps] using this
        simp only [true_iff]
        exact ⟨i, by simp, hz, hnone⟩
      | some m =>
        have hm := List.find?_some hf
        have hlt := List.mem_range.mp (List.mem_of_find?_eq_some hf)
        simp only [Bool.and_eq_true, bne_iff_ne, ne_eq, Bool.not_eq_true'] at hm
        have hrest : ∀ init, planCores cfg g n is init = none ↔ ∃ j ∈ i :: is,
            (g.numaStats j n).usedCores ≠ 0 ∧ ∀ m < cfg.nrNumas, m ≠ n →
              g.power.psState m = false → (g.numaStats j m).usedCores = 0 := by
          intro init
          rw [ih]
          constructor
          · rintro ⟨j, hj, h⟩
            exact ⟨j, List.mem_cons_of_mem _ hj, h⟩
          · rintro ⟨j, hj, h⟩
            rcases List.mem_cons.mp hj with rfl | hj
            · exact absurd (h.2 m hlt hm.1.1 hm.1.2) hm.2
            · exact ⟨j, hj, h⟩
        dsimp only
        cases (cfg.coresOf m).find? (g.inPart i) with
        | none => exact hrest _
        | some j => exact hrest _

/-- A state as a pass finds it after taking its statistics. -/
structure Settled (cfg : Config) (g : Global) : Prop where
  fresh : Fresh cfg g
  parts : PartsInRange cfg g
  count : ∀ c, (g.streams c).nrLoads = (g.streams c).loadQ.length
  used : ∀ c l, l ∈ (g.streams c).loadQ → (g.streams c).used = true
  depth : ∀ c, (g.streams c).used = true → g.qdepth c = u32 (getStreamIos g c)

theorem Settled.depth_zero {cfg : Config} {g : Global} (h : Settled cfg g) {c : Nat}
    (hu : (g.streams c).used = true) (hnil : (g.streams c).loadQ = []) : g.qdepth c = 0 := by
  rw [h.depth c hu, getStreamIos, hnil]
  exact u32_of_lt (n := 0) (by decide)

theorem Settled.idle {cfg : Config} {g : Global} (h : Settled cfg g) {n : Nat} (hn : n < cfg.nrNumas)
    (hz : (g.numaStat n).usedCores = 0) : ∀ c ∈ cfg.coresOf n, ¬ (g.streams c).used = true := by
  intro c hc hu
  have hlen := (h.fresh.numas n (List.mem_range.mpr hn)).1
  rw [hz] at hlen
  have hpos := List.length_pos_of_mem (Global.mem_usedIn.mpr ⟨hc, hu⟩)
  omega

/-- The loop over the cores of node `n` has passed `pre`. -/
structure Leaving (cfg : Config) (g : Global) (n : Nat) (toCores : Nat → Option Nat)
    (pre : List Nat) (t : Global) : Prop where
  shape : SameShape g t
  ahead : ∀ c ∈ cfg.coresOf n, c ∉ pre → t.streams c = g.streams c
  empty : ∀ c ∈ pre, (g.streams c).used = true → (t.streams c).loadQ = [] ∧ t.qdepth c = 0
  arrived : ∀ c ∈ pre, ∀ l ∈ (g.streams c).loadQ, ∃ d,
    toCores (g.streams c).partId = some d ∧ l ∈ (t.streams d).loadQ

section Combine

variable {g s : Global} {src dst : Nat} (hne : src ≠ dst)
  (hcount : (g.streams src).nrLoads = (g.streams src).loadQ.length)
  (he : abtstCombineStreams g src dst = .ok s)

include hne hcount he

theorem combine_depth :
    (g.streams src).loadQ = [] ∧ s.qdepth src = g.qdepth src ∨ s.qdepth src = 0 := by
  rcases abtstCombineStreams_ok hne he with ⟨hz, rfl⟩ | ⟨_, _, rfl⟩
  · exact Or.inl ⟨List.length_eq_zero_iff.mp (hcount.symm.trans hz), rfl⟩
  · exact Or.inr (moved_qdepth g hne _ _ _).1

theorem combine_mem {c : Nat} (hc : c ≠ src) {l : LoadId} (hl : l ∈ (g.streams c).loadQ) :
    l ∈ (s.streams c).loadQ := by
  by_cases hd : c = dst
  · subst hd
    rw [(combine_queues hne hcount he).2]
    exact List.mem_append_right _ hl
  · rw [combine_other hne he hc hd]
    exact hl

end Combine

theorem Leaving.combine {cfg : Config} {g t u : Global} {n i d : Nat} {toCores : Nat → Option Nat}
    {pre : List Nat} (h : Leaving cfg g n toCores pre t) (hg : Settled cfg g)
    (hpre : ∀ c ∈ pre, c ∈ cfg.coresOf n) (hi : i ∈ cfg.coresOf n) (hnot : i ∉ pre)
    (hout : ∀ p d, toCores p = some d → d ∉ cfg.coresOf n)
    (hto : toCores (g.streams i).partId = some d) (hu : (g.streams i).used = true)
    (he : abtstCombineStreams t i d = .ok u) : Leaving cfg g n toCores (pre ++ [i]) u := by
  have hd := hout _ d hto
  have hne : i ≠ d := fun hid => hd (hid ▸ hi)
  have hsame := h.ahead i hi hnot
  have hcount : (t.streams i).nrLoads = (t.streams i).loadQ.length := by
    rw [hsame]
    exact hg.count i
  obtain ⟨hempty, hmoved⟩ := combine_queues hne hcount he
  refine ⟨h.shape.trans (combine_sameShape hne he), ?_, ?_, ?_⟩
  · intro c hc hnc
    have hci : c ≠ i := fun hci => hnc (by simp [hci])
    have hcd : c ≠ d := fun hcd => hd (hcd ▸ hc)
    rw [combine_other hne he hci hcd]
    exact h.ahead c hc (fun hp => hnc (by simp [hp]))
  · intro c hc huc
    rcases List.mem_append.mp hc with hc | hc
    · have hci : c ≠ i := fun hci => hnot (hci ▸ hc)
      have hcd : c ≠ d := fun hcd => hd (hcd ▸ hpre c hc)
      have hkept := combine_other hne he hci hcd
      rw [Global.qdepth, hkept]
      exact h.empty c hc huc
    · obtain rfl := List.mem_singleton.mp hc
      refine ⟨hempty, ?_⟩
      rcases combine_depth hne hcount he with ⟨hnil, hq⟩ | hq
      · rw [hsame] at hnil
        rw [hq, Global.qdepth, hsame]
        exact hg.depth_zero hu hnil
      · exact hq
  · intro c hc l hl
    rcases List.mem_append.mp hc with hc | hc
    · obtain ⟨e, hte, hle⟩ := h.arrived c hc l hl
      have hei : e ≠ i := fun hei => hout _ e hte (hei ▸ hi)
      exact ⟨e, hte, combine_mem hne hcount he hei hle⟩
    · obtain rfl := List.mem_singleton.mp hc
      refine ⟨d, hto, ?_⟩
      rw [hmoved, hsame]
      exact List.mem_append_left _ (List.mem_reverse.mpr hl)

theorem Leaving.skip {cfg : Config} {g t : Global} {n i : Nat} {toCores : Nat → Option Nat}
    {pre : List Nat} (h : Leaving cfg g n toCores pre t) (hg : Settled cfg g)
    (hu : ¬ (g.streams i).used = true) : Leaving cfg g n toCores (pre ++ [i]) t := by
  refine ⟨h.shape, fun c hc hnc => h.ahead c hc (fun hp => hnc (by simp [hp])), ?_, ?_⟩
  · intro c hc huc
    rcases List.mem_append.mp hc with hc | hc
    · exact h.empty c hc huc
    · obtain rfl := List.mem_singleton.mp hc
      exact absurd huc hu
  · intro c hc l hl
    rcases List.mem_append.mp hc with hc | hc
    · exact h.arrived c hc l hl
    · obtain rfl := List.mem_singleton.mp hc
      exact absurd (hg.used c l hl) hu

/-- No load is left in node `n`: each is on a used stream of its partition in
another node that is awake. -/
structure Vacated (cfg : Config) (g : Global) (n : Nat) (t : Global) : Prop where
  empty : ∀ c ∈ cfg.coresOf n, (t.streams c).used = true →
    (t.streams c).loadQ = [] ∧ t.qdepth c = 0
  arrived : ∀ c ∈ cfg.coresOf n, ∀ l ∈ (g.streams c).loadQ,
    ∃ m < cfg.nrNumas, m ≠ n ∧ t.power.psState m = false ∧ ∃ d ∈ cfg.coresOf m,
      (t.streams d).used = true ∧ (t.streams d).partId = (g.streams c).partId ∧
      l ∈ (t.streams d).loadQ

theorem Leaving.vacated {cfg : Config} {g t : Global} {n : Nat} {toCores : Nat → Option Nat}
    (hp : planCores cfg g n (List.range cfg.nrPartitions) (fun _ => none) = some toCores)
    (ht : Leaving cfg g n toCores (cfg.coresOf n) t) : Vacated cfg g n t := by
  constructor
  · intro c hc hu
    rw [ht.shape.used] at hu
    exact ht.empty c hc hu
  · intro c hc l hl
    obtain ⟨d, hto, hld⟩ := ht.arrived c hc l hl
    obtain ⟨hin, m, hm, hmn, hdm, hps⟩ := planCores_some (by simp) hp hto
    have hpart : (g.streams d).used = true ∧ (g.streams d).partId = (g.streams c).partId := by
      simpa [Global.inPart] using hin
    refine ⟨m, hm, hmn, by rw [ht.shape.power]; exact hps, d, hdm, ?_, ?_, hld⟩
    · rw [ht.shape.used, hpart.1]
    · rw [ht.shape.partId, hpart.2]

section Vacate

variable {cfg : Config} (hdis : ∀ m < cfg.nrNumas, ∀ n < cfg.nrNumas, m ≠ n →
    List.Disjoint (cfg.coresOf m) (cfg.coresOf n)) {g : Global} (h : Settled cfg g) {n : Nat}
  (hn : n < cfg.nrNumas)
include h hn

theorem planCores_none_iff_stranded :
    planCores cfg g n (List.range cfg.nrPartitions) (fun _ => none) = none ↔
      ∃ p, Stranded cfg g n p := by
  rw [planCores_none_iff]
  have hcount : ∀ m < cfg.nrNumas, ∀ p, (g.numaStats p m).usedCores = 0 ↔
      g.group (cfg.coresOf m) p = [] := by
    intro m hm p
    rw [(h.fresh.parts.numaStats m hm p).1, List.length_eq_zero_iff]
  constructor
  · rintro ⟨p, -, hused, hnone⟩
    refine ⟨p, fun hnil => hused ((hcount n hn p).mpr hnil), ?_⟩
    intro m hm hmn hps
    exact (hcount m hm p).mp (hnone m hm hmn hps)
  · rintro ⟨p, hused, hnone⟩
    obtain ⟨c, hc⟩ := List.exists_mem_of_ne_nil _ hused
    obtain ⟨-, hu, hp⟩ := Global.mem_group.mp hc
    refine ⟨p, List.mem_range.mpr (hp ▸ h.parts c hu), fun hz => hused ((hcount n hn p).mp hz), ?_⟩
    intro m hm hmn hps
    exact (hcount m hm p).mpr (hnone m hm hmn hps)

include hdis

/-- The loop that moves the loads, with a plan for every partition of the node. -/
theorem combineLoop_vacates {toCores : Nat → Option Nat}
    (hp : planCores cfg g n (List.range cfg.nrPartitions) (fun _ => none) = some toCores) :
    Follows AnyAct (fun s => s = g)
      ((cfg.coresOf n).forM fun i => do
        let g ← Prog.read
        if (g.streams i).used = true then
          match toCores (g.streams i).partId with
          | none => Prog.lift (.error .badIndex)
          | some toCore => combineStreams i toCore
        else pure ())
      (fun _ t => Vacated cfg g n t) (fun _ _ => False) := by
  have hout : ∀ p d, toCores p = some d → d ∉ cfg.coresOf n := by
    intro p d hto hdn
    obtain ⟨-, m, hm, hmn, hdm, -⟩ := planCores_some (by simp) hp hto
    exact hdis m hm n hn hmn hdm hdn
  refine Follows.mono (P := Leaving cfg g n toCores []) (Q := fun _ => Leaving cfg g n toCores (cfg.coresOf n))
    (Follows.forM_prefix _ ?_) ?_ (fun _ t ht => ht.vacated hp)
  · intro pre i post hl
    have hi : i ∈ cfg.coresOf n := by rw [hl]; simp
    have hpre : ∀ c ∈ pre, c ∈ cfg.coresOf n := by
      intro c hc
      rw [hl]
      exact List.mem_append_left _ hc
    have hnot : i ∉ pre := not_mem_of_split (cfg.coresOf_nodup n) hl
    refine .read_bind (fun t ht => ?_)
    rw [ht.ahead i hi hnot]
    by_cases hu : (g.streams i).used = true
    · rw [if_pos hu]
      cases hto : toCores (g.streams i).partId with
      | none =>
        refine absurd hto (planCores_total h.fresh.parts hp (Or.inr ?_) ?_)
        · exact List.mem_range.mpr (h.parts i hu)
        · rw [(h.fresh.parts.numaStats n hn _).1]
          exact Nat.ne_of_gt (List.length_pos_of_mem (Global.mem_group.mpr ⟨hi, hu, rfl⟩))
      | some d =>
        apply Follows.perform
        · rintro s u rfl hcomb
          exact ⟨trivial, ht.combine h hpre hi hnot hout hto hu hcomb⟩
        · rintro s e rfl hcomb
          obtain ⟨u, hu⟩ := abtstCombineStreams_counted (g := s) d (by
            rw [ht.ahead i hi hnot]
            exact h.count i)
          rw [hu] at hcomb
          cases hcomb
    · rw [if_neg hu]
      refine .pure ?_
      rintro s rfl
      exact ht.skip h hu
  · rintro s rfl
    exact ⟨.refl _, fun _ _ _ => rfl, by simp, by simp⟩

/-- `reb_combine_numas` fails, with nothing changed, exactly if a partition of
the node has no core in another node that is awake; otherwise the node is left
without loads. -/
theorem rebCombineNumas_all_or_nothing :
    ∃ ok r, rebCombineNumas cfg n ⟨g, []⟩ = .ok ok r ∧
      (ok = false ↔ ∃ p, Stranded cfg g n p) ∧ (ok = false → r.st = g) ∧
      (ok = true → Vacated cfg g n r.st) := by
  have hrun : Follows AnyAct (fun s => s = g) (rebCombineNumas cfg n)
      (fun ok t => (ok = false ↔ ∃ p, Stranded cfg g n p) ∧ (ok = false → t = g) ∧
        (ok = true → Vacated cfg g n t)) (fun _ _ => False) := by
    refine readStats_bind (fun s hs => ?_)
    subst hs
    refine ⟨trivial, ?_⟩
    by_cases hz : (s.numaStat n).usedCores = 0
    · -- no used core: nothing to move, and no partition can be stranded
      rw [if_pos hz]
      have hidle := h.idle hn hz
      refine .pure ?_
      rintro t rfl
      refine ⟨⟨fun hf => Bool.noConfusion hf, ?_⟩, fun _ => rfl, fun _ => ⟨?_, ?_⟩⟩
      · rintro ⟨p, hne, -⟩
        obtain ⟨c, hc⟩ := List.exists_mem_of_ne_nil _ hne
        obtain ⟨hcn, hu, -⟩ := Global.mem_group.mp hc
        exact absurd hu (hidle c hcn)
      · intro c hc hu
        exact absurd hu (hidle c hc)
      · intro c hc l hl
        exact absurd (h.used c l hl) (hidle c hc)
    · rw [if_neg hz]
      have hiff := planCores_none_iff_stranded h hn
      cases hp : planCores cfg s n (List.range cfg.nrPartitions) (fun _ => none) with
      | none =>
        refine .pure ?_
        rintro t rfl
        exact ⟨⟨fun _ => hiff.mp hp, fun _ => rfl⟩, fun _ => rfl, fun ht => Bool.noConfusion ht⟩
      | some toCores =>
        refine .bind (combineLoop_vacates hdis h hn hp) (fun _ => .pure ?_)
        intro t ht
        refine ⟨⟨fun hf => Bool.noConfusion hf, fun hs => ?_⟩, fun hf => Bool.noConfusion hf, fun _ => ht⟩
        rw [hiff.mpr hs] at hp
        cases hp
  have hres := hrun ⟨g, []⟩ rfl
  cases hm : rebCombineNumas cfg n ⟨g, []⟩ with
  | ok ok r =>
    rw [hm] at hres
    exact ⟨ok, r, rfl, hres.2⟩
  | error e r =>
    rw [hm] at hres
    exact absurd hres.2 id

end Vacate

theorem busyNode_streams : busyNode.streams = busyStreams.streams := by
  obtain ⟨t, u, hf⟩ := abtstUpdatePartitionStats_frame splitConfig busyStreams
  unfold busyNode Global.setNumaStat
  rw [hf]

theorem busyNode_settled : Settled splitConfig busyNode := by
  refine ⟨busyNode_fresh, ?_, ?_, ?_, ?_⟩
  · intro c _
    rw [busyNode_streams]
    show 0 < splitConfig.nrPartitions
    decide
  · intro c
    rw [busyNode_streams]
    simp only [busyStreams]
    by_cases h1 : c = 1
    · simp [h1]
    · by_cases h2 : c = 2 <;> simp [h1, h2]
  · intro c l hl
    rw [busyNode_streams] at hl ⊢
    simp only [busyStreams] at hl ⊢
    by_cases h1 : c = 1
    · simp [h1]
    · by_cases h2 : c = 2
      · simp [h2]
      · simp [h1, h2] at hl
  · intro c hu
    rw [busyNode_streams] at hu
    have hc : 1 ≤ c ∧ c ≤ 6 := of_decide_eq_true hu
    have hall : ∀ c < 7, busyNode.qdepth c = u32 (getStreamIos busyNode c) := by decide +kernel
    exact hall c (by omega)

theorem busyNode_vacated : ∃ r, rebCombineNumas splitConfig 0 ⟨busyNode, []⟩ = .ok true r ∧
    Vacated splitConfig busyNode 0 r.st := by
  obtain ⟨ok, r, hrun, hfail, -, hdone⟩ :=
    rebCombineNumas_all_or_nothing splitConfig_valid.disjoint busyNode_settled (show 0 < 2 by decide)
  cases ok with
  | true => exact ⟨r, hrun, hdone rfl⟩
  | false =>
    exfalso
    obtain ⟨p, hne, hnone⟩ := hfail.mp rfl
    rw [Global.group_eq busyNode_streams] at hne hnone
    have hp : p = 0 := by
      obtain ⟨c, hc⟩ := List.exists_mem_of_ne_nil _ hne
      exact (Global.mem_group.mp hc).2.2.symm
    subst hp
    exact absurd (hnone 1 (by decide) (by decide) rfl) (by decide)

end AbtSt
