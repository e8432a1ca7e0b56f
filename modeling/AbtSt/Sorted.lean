import AbtSt.Fresh
import AbtSt.TwoEnds

/-! The sorted arrays of the rebalancer: what `sort_streams`, `sort_partitions`
and `sort_numas` return, whatever order `qsort` gives to equal keys. -/

namespace AbtSt

structure Collected (cfg : Config) (g : Global) (n p : Nat) (params : List SortParam) : Prop where
  numa : n < cfg.nrNumas
  perm : params.Perm ((g.group (cfg.coresOf n) p).map fun c => ⟨i32 (g.qdepth c), c⟩)
  sorted : params.Pairwise (fun a b => a.ios ≤ b.ios)
  pos : 0 < params.length

theorem collectStreams_some (cfg : Config) (g : Global) {n : Nat} (hn : n < cfg.nrNumas) (p : Nat) :
    collectStreams cfg g (some n) (some p) = g.group (cfg.coresOf n) p := by
  simp [collectStreams, hn]

theorem sortStreams_some {pf : Platform} {cfg : Config} {g : Global} {n p : Nat}
    {params : List SortParam} (h : sortStreams pf cfg g (some n) (some p) = some params) :
    Collected cfg g n p params := by
  unfold sortStreams at h
  by_cases hn : n < cfg.nrNumas
  · rw [collectStreams_some cfg g hn p] at h
    cases he : g.group (cfg.coresOf n) p with
    | nil => simp [he] at h
    | cons c cs =>
      simp only [he, Option.some.injEq] at h
      subst h
      refine ⟨hn, by rw [he]; exact pf.qsort_perm _, pf.qsort_sorted _, ?_⟩
      rw [(pf.qsort_perm _).length_eq]
      simp
  · simp [collectStreams, hn, Global.group] at h

namespace Collected

variable {cfg : Config} {g : Global} {n p : Nat} {params : List SortParam}

theorem length_eq (h : Collected cfg g n p params) :
    params.length = (g.group (cfg.coresOf n) p).length := by
  simpa using h.perm.length_eq

theorem streams_perm (h : Collected cfg g n p params) :
    (params.map (·.stream)).Perm (g.group (cfg.coresOf n) p) := by
  have hp := h.perm.map (·.stream)
  rw [List.map_map] at hp
  simpa [Function.comp_def] using hp

theorem mem (h : Collected cfg g n p params) {e : SortParam} (he : e ∈ params) :
    e.stream ∈ g.group (cfg.coresOf n) p ∧ e.ios = i32 (g.qdepth e.stream) := by
  obtain ⟨c, hc, rfl⟩ := List.mem_map.mp (h.perm.mem_iff.mp he)
  exact ⟨hc, by dsimp only⟩

theorem entry_mem (h : Collected cfg g n p params) {i : Nat} {e : SortParam}
    (he : entry params i = .ok e) :
    e.stream ∈ g.group (cfg.coresOf n) p ∧ e.ios = i32 (g.qdepth e.stream) :=
  h.mem (List.mem_of_getElem? (entry_ok he))

theorem entry_ne (h : Collected cfg g n p params) {i j : Nat} {e e' : SortParam}
    (he : entry params i = .ok e) (he' : entry params j = .ok e') (hij : i ≠ j) :
    e.stream ≠ e'.stream := by
  have hnd : (params.map (·.stream)).Nodup :=
    h.streams_perm.nodup_iff.mpr (g.group_nodup cfg n p)
  have hi : (params.map (·.stream))[i]? = some e.stream := by simp [entry_ok he]
  have hj : (params.map (·.stream))[j]? = some e'.stream := by simp [entry_ok he']
  intro hs
  rw [← hs] at hj
  have hlt : i < (params.map (·.stream)).length := (List.getElem?_eq_some_iff.mp hi).1
  exact hij ((List.getElem?_inj hlt hnd).mp (hi.trans hj.symm))

theorem ends (h : Collected cfg g n p params) {i j : Nat} {e e' : SortParam}
    (he : entry params i = .ok e) (he' : entry params j = .ok e') (hij : i ≠ j) :
    Ends g e.stream e'.stream ∧ SameNuma cfg e.stream e'.stream := by
  have hm := Global.mem_group.mp (h.entry_mem he).1
  have hm' := Global.mem_group.mp (h.entry_mem he').1
  exact ⟨⟨h.entry_ne he he' hij, hm.2.1, hm'.2.1, by rw [hm.2.2, hm'.2.2]⟩,
    n, h.numa, hm.1, hm'.1⟩

theorem le_last (h : Collected cfg g n p params) {last : SortParam}
    (hl : entry params (params.length - 1) = .ok last) {e : SortParam} (he : e ∈ params) :
    e.ios ≤ last.ios := by
  obtain ⟨i, hi, rfl⟩ := List.getElem_of_mem he
  obtain ⟨hlt, rfl⟩ := List.getElem?_eq_some_iff.mp (entry_ok hl)
  by_cases heq : i = params.length - 1
  · subst heq
    exact Int.le_refl _
  · exact List.pairwise_iff_getElem.mp h.sorted i (params.length - 1) hi hlt (by omega)

end Collected

theorem index_ne {params : List SortParam} {i : Nat} {first last : SortParam}
    (hf : entry params 0 = .ok first) (hl : entry params i = .ok last)
    (hmin : ¬ i32 (last.ios - first.ios) < minIosToStartReb) : i ≠ 0 := by
  intro h0
  rw [h0, hf, Except.ok.injEq] at hl
  subst hl
  simp [minIosToStartReb, i32] at hmin

theorem sortPartitions_ok {pf : Platform} {cfg : Config} {g : Global} {numaId : Option Nat}
    {params : List SortParam} (h : sortPartitions pf cfg g numaId = .ok params) :
    (params.map (·.stream)).Perm (List.range cfg.nrPartitions) := by
  obtain ⟨r, hr, h⟩ := except_bind_eq_ok.mp h
  obtain rfl : pf.qsort r = params := Except.ok.inj h
  have hs : r.map (·.stream) = List.range cfg.nrPartitions := by
    refine mapM_map_eq ?_ hr
    intro i e he
    obtain ⟨q, _, he⟩ := except_bind_eq_ok.mp he
    rw [← Except.ok.inj he]
  rw [← hs]
  exact (pf.qsort_perm r).map _

theorem sortPartitions_error {pf : Platform} {cfg : Config} {g : Global} {numaId : Option Nat}
    {e : Fault} (h : sortPartitions pf cfg g numaId = .error e) :
    e = .divByZero ∧ ∃ p < cfg.nrPartitions, (partitionStat g numaId p).usedCores = 0 := by
  rcases except_bind_eq_error.mp h with h | ⟨_, _, h⟩
  · obtain ⟨p, hp, h⟩ := mapM_error h
    rcases except_bind_eq_error.mp h with h | ⟨_, _, h⟩
    · obtain ⟨he, hz⟩ := Platform.div_error h
      exact ⟨he, p, List.mem_range.mp hp, hz⟩
    · cases h
  · cases h

theorem sortPartitions_trap {pf : Platform} (hpf : pf.divZero = none) {cfg : Config} {g : Global}
    {numaId : Option Nat} {params : List SortParam} (h : sortPartitions pf cfg g numaId = .ok params)
    {p : Nat} (hp : p < cfg.nrPartitions) : (partitionStat g numaId p).usedCores ≠ 0 := by
  obtain ⟨r, hr, -⟩ := except_bind_eq_ok.mp h
  obtain ⟨e, he⟩ := mapM_ok hr p (List.mem_range.mpr hp)
  obtain ⟨q, hq, -⟩ := except_bind_eq_ok.mp he
  exact Platform.div_trap hpf hq

theorem choosePartitions_some {pf : Platform} {g : Global} {n : Nat} {params : List SortParam}
    {fromPid toPid : Nat} (h : choosePartitions pf g n params = .ok (some (fromPid, toPid))) :
    canGive g n fromPid = true ∧ canTake pf g n toPid = .ok true ∧
    ∃ i e e', entry params i = .ok e ∧ e.stream = fromPid ∧ e' ∈ params.drop (i + 1) ∧
      e'.stream = toPid := by
  unfold choosePartitions at h
  dsimp only at h
  cases hf : (List.range (params.length - 1)).find? fun i => (params[i]?).any fun e =>
      canGive g n e.stream with
  | none =>
    rw [hf] at h
    cases h
  | some i =>
    rw [hf] at h
    obtain ⟨e, he, h⟩ := except_bind_eq_ok.mp h
    obtain ⟨r, hr, h⟩ := except_bind_eq_ok.mp h
    have hg : canGive g n e.stream = true := by simpa [entry_ok he] using List.find?_some hf
    cases r with
    | none => cases h
    | some e' =>
      obtain ⟨hm, ht⟩ := findM?_ok hr
      simp only [Option.map_some] at h
      have h := Option.some.inj (Except.ok.inj h)
      rw [Prod.mk.injEq] at h
      obtain ⟨rfl, rfl⟩ := h
      exact ⟨hg, ht, i, e, e', he, rfl, List.mem_reverse.mp hm, rfl⟩

theorem choosePartitions_error {pf : Platform} {g : Global} {n : Nat} {params : List SortParam}
    {e : Fault} (h : choosePartitions pf g n params = .error e) :
    e = .divByZero ∧ ∃ x ∈ params, (g.numaStats x.stream n).usedCores = 0 := by
  unfold choosePartitions at h
  dsimp only at h
  cases hf : (List.range (params.length - 1)).find? fun i => (params[i]?).any fun e =>
      canGive g n e.stream with
  | none =>
    rw [hf] at h
    cases h
  | some i =>
    rw [hf] at h
    dsimp only at h
    have hi : i < params.length := by
      have := List.mem_range.mp (List.mem_of_find?_eq_some hf)
      omega
    rw [entry_of_lt hi] at h
    rcases except_bind_eq_error.mp h with h | ⟨_, _, h⟩
    · cases h
    · rcases except_bind_eq_error.mp h with h | ⟨_, _, h⟩
      · obtain ⟨x, hmem, hx⟩ := findM?_error h
        unfold canTake at hx
        dsimp only at hx
        split_ifs at hx with ha
        · rcases except_bind_eq_error.mp hx with hx | ⟨_, _, hx⟩
          · obtain ⟨he, hz⟩ := Platform.div_error hx
            exact ⟨he, x, List.mem_of_mem_drop (List.mem_reverse.mp hmem), hz⟩
          · cases hx
        · cases hx
      · cases h

theorem chooseStreams_ok {cfg : Config} {g : Global} {n p usedCores : Nat}
    {params : List SortParam} (hc : Collected cfg g n p params) {r : Nat × Nat}
    (h : chooseStreams cfg g usedCores params = .ok r) :
    Ends g r.1 r.2 ∧ r.1 ∈ g.group (cfg.coresOf n) p ∧ r.2 ∈ g.group (cfg.coresOf n) p := by
  obtain ⟨e0, h0, h⟩ := except_bind_eq_ok.mp h
  obtain ⟨e1, h1, h⟩ := except_bind_eq_ok.mp h
  obtain ⟨b, _, h⟩ := except_bind_eq_ok.mp h
  cases b with
  | none =>
    rw [← Except.ok.inj h]
    exact ⟨(hc.ends h0 h1 (by omega)).1, (hc.entry_mem h0).1, (hc.entry_mem h1).1⟩
  | some i =>
    obtain ⟨e, he, h⟩ := except_bind_eq_ok.mp h
    rw [← Except.ok.inj h]
    by_cases hi : 1 ≤ i
    · simp only [if_pos hi]
      exact ⟨(hc.ends he h0 (by omega)).1, (hc.entry_mem he).1, (hc.entry_mem h0).1⟩
    · simp only [if_neg hi]
      exact ⟨(hc.ends he h1 (by omega)).1, (hc.entry_mem he).1, (hc.entry_mem h1).1⟩

theorem chooseStreams_error {cfg : Config} {g : Global} {params : List SortParam} {e : Fault}
    (hl : 1 < params.length) : chooseStreams cfg g params.length params ≠ .error e := by
  intro h
  unfold chooseStreams at h
  rw [entry_of_lt (by omega), entry_of_lt hl] at h
  rcases except_bind_eq_error.mp h with h | ⟨_, _, h⟩
  · cases h
  rcases except_bind_eq_error.mp h with h | ⟨_, _, h⟩
  · cases h
  rcases except_bind_eq_error.mp h with h | ⟨r, hr, h⟩
  · obtain ⟨i, hi, h⟩ := findM?_error h
    rw [entry_of_lt (List.mem_range.mp hi)] at h
    cases h
  · cases r with
    | none => cases h
    | some i =>
      have hi := List.mem_range.mp (findM?_ok hr).1
      dsimp only at h
      rw [entry_of_lt hi] at h
      cases h

theorem sortNumas_entries (pf : Platform) (cfg : Config) (g : Global) (sortQdepth checkPs : Bool) :
    (sortNumas pf cfg g sortQdepth checkPs).Perm
      (((List.range cfg.nrNumas).filter fun i => !(checkPs && g.power.psState i)).map fun i =>
        ⟨i32 (if sortQdepth then (g.numaStat i).avgQdepth else (g.numaStat i).usedCores), i⟩) := by
  have key : ∀ params : List SortParam,
      (if 1 < params.length then pf.qsort params else params).Perm params := by
    intro params
    split_ifs
    · exact pf.qsort_perm params
    · exact List.Perm.refl params
  exact key _

theorem sortNumas_perm (pf : Platform) (cfg : Config) (g : Global) (sortQdepth checkPs : Bool) :
    ((sortNumas pf cfg g sortQdepth checkPs).map (·.stream)).Perm
      ((List.range cfg.nrNumas).filter fun i => !(checkPs && g.power.psState i)) := by
  have h := (sortNumas_entries pf cfg g sortQdepth checkPs).map (·.stream)
  rwa [List.map_map, Function.comp_def, List.map_id'] at h

theorem sortNumas_mem {pf : Platform} {cfg : Config} {g : Global} {sortQdepth checkPs : Bool}
    {e : SortParam} (h : e ∈ sortNumas pf cfg g sortQdepth checkPs) :
    e.stream < cfg.nrNumas ∧ (checkPs = true → g.power.psState e.stream = false) := by
  have hm := (sortNumas_perm pf cfg g sortQdepth checkPs).mem_iff.mp (List.mem_map_of_mem h)
  rw [List.mem_filter, List.mem_range] at hm
  refine ⟨hm.1, ?_⟩
  rintro rfl
  simpa using hm.2

theorem sortNumas_nodup (pf : Platform) (cfg : Config) (g : Global) (sortQdepth checkPs : Bool) :
    ((sortNumas pf cfg g sortQdepth checkPs).map (·.stream)).Nodup :=
  (sortNumas_perm pf cfg g sortQdepth checkPs).nodup_iff.mpr (List.nodup_range.filter _)

theorem stream_ne_of_nodup {params : List SortParam} (h : (params.map (·.stream)).Nodup) {i : Nat}
    {e e' : SortParam} (hi : params[i]? = some e) (he' : e' ∈ params.drop (i + 1)) :
    e.stream ≠ e'.stream := by
  intro hs
  have hlt := (List.getElem?_eq_some_iff.mp hi).1
  have he : params = params.take i ++ e :: params.drop (i + 1) := by
    rw [← (List.getElem?_eq_some_iff.mp hi).2, List.cons_getElem_drop_succ, List.take_append_drop]
  rw [he, List.map_append, List.map_cons, List.nodup_append] at h
  exact (List.nodup_cons.mp h.2.1).1 (by rw [hs]; exact List.mem_map_of_mem he')

def isTarget (g : Global) (avg : Nat) (e : SortParam) : Bool :=
  0 < (g.numaStat e.stream).usedCores && (g.numaStat e.stream).avgQdepth < avg

def isSource (g : Global) (avg : Nat) (e : SortParam) : Bool :=
  0 < (g.numaStat e.stream).usedCores && u32 (2 * avg) ≤ (g.numaStat e.stream).avgQdepth &&
    2 * minIosToStartReb < (g.numaStat e.stream).avgQdepth

theorem chooseNumas_eq (g : Global) (avg : Nat) (params : List SortParam) :
    chooseNumas g avg params = (twoEnds (isTarget g avg) (isSource g avg) params).map
      fun pair => (pair.1.stream, pair.2.stream) := by
  unfold chooseNumas twoEnds
  have hscan : ((List.range (params.length - 1)).find? fun i => (params[i]?).any fun e =>
      0 < (g.numaStat e.stream).usedCores && (g.numaStat e.stream).avgQdepth < avg) =
      (List.range (params.length - 1)).find? fun i => (params[i]?).any (isTarget g avg) := rfl
  dsimp only
  rw [hscan]
  cases (List.range (params.length - 1)).find? fun i => (params[i]?).any (isTarget g avg) with
  | none => rfl
  | some i =>
    dsimp only
    cases params[i]? with
    | none => rfl
    | some t =>
      dsimp only
      rw [Option.map_map]
      rfl

theorem chooseNumas_some {g : Global} {avg src dst : Nat} {params : List SortParam}
    (h : chooseNumas g avg params = some (src, dst)) :
    ∃ i e e', params[i]? = some e ∧ e.stream = dst ∧ e' ∈ params.drop (i + 1) ∧ e'.stream = src ∧
      (0 < (g.numaStat dst).usedCores ∧ (g.numaStat dst).avgQdepth < avg) ∧
      0 < (g.numaStat src).usedCores ∧ u32 (2 * avg) ≤ (g.numaStat src).avgQdepth := by
  rw [chooseNumas_eq] at h
  obtain ⟨⟨e', e⟩, hpair, heq⟩ := Option.map_eq_some_iff.mp h
  rw [Prod.mk.injEq] at heq
  obtain ⟨rfl, rfl⟩ := heq
  obtain ⟨l₁, l₂, l₃, rfl, hto, hfrom, -⟩ := twoEnds_some hpair
  simp only [isTarget, isSource, Bool.and_eq_true, decide_eq_true_eq] at hto hfrom
  exact ⟨l₁.length, e, e', by simp, rfl, by simp [List.drop_append], rfl, hto, hfrom.1⟩

theorem planCores_some {cfg : Config} {g : Global} {n : Nat} {is : List Nat}
    {init toCores : Nat → Option Nat}
    (hinit : ∀ p c, init p = some c → g.inPart p c = true ∧
      ∃ m < cfg.nrNumas, m ≠ n ∧ c ∈ cfg.coresOf m ∧ g.power.psState m = false)
    (h : planCores cfg g n is init = some toCores) {p c : Nat} (hc : toCores p = some c) :
    g.inPart p c = true ∧
      ∃ m < cfg.nrNumas, m ≠ n ∧ c ∈ cfg.coresOf m ∧ g.power.psState m = false := by
  induction is generalizing init with
  | nil =>
    obtain rfl : init = toCores := Option.some.inj h
    exact hinit p c hc
  | cons i is ih =>
    rw [planCores] at h
    by_cases hz : (g.numaStats i n).usedCores = 0
    · rw [if_pos hz] at h
      exact ih hinit h
    · rw [if_neg hz] at h
      cases hf : (List.range cfg.nrNumas).find? fun j =>
          j != n && !g.power.psState j && (g.numaStats i j).usedCores != 0 with
      | none => simp [hf] at h
      | some m =>
        have hm := List.find?_some hf
        have hlt := List.mem_range.mp (List.mem_of_find?_eq_some hf)
        simp only [Bool.and_eq_true, bne_iff_ne, ne_eq, Bool.not_eq_true'] at hm
        rw [hf] at h
        dsimp only at h
        cases hj : (cfg.coresOf m).find? (g.inPart i) with
        | none =>
          rw [hj] at h
          exact ih hinit h
        | some j =>
          rw [hj] at h
          refine ih ?_ h
          intro q d hd
          by_cases hq : q = i
          · subst hq
            obtain rfl : j = d := by simpa using hd
            exact ⟨List.find?_some hj, m, hlt, hm.1.1, List.mem_of_find?_eq_some hj, hm.1.2⟩
          · exact hinit q d (by simpa [hq] using hd)

theorem planCores_total {cfg : Config} {g : Global} (hf : FreshParts cfg g) {n : Nat} {is : List Nat}
    {init toCores : Nat → Option Nat} (h : planCores cfg g n is init = some toCores) {p : Nat}
    (hp : init p ≠ none ∨ p ∈ is) (hz : (g.numaStats p n).usedCores ≠ 0) : toCores p ≠ none := by
  induction is generalizing init with
  | nil =>
    obtain rfl : init = toCores := Option.some.inj h
    simpa using hp
  | cons i is ih =>
    rw [planCores] at h
    by_cases hzi : (g.numaStats i n).usedCores = 0
    · rw [if_pos hzi] at h
      have hpi : p ≠ i := fun he => hz (he ▸ hzi)
      exact ih h (by simpa [hpi] using hp)
    · rw [if_neg hzi] at h
      cases hm : (List.range cfg.nrNumas).find? fun j =>
          j != n && !g.power.psState j && (g.numaStats i j).usedCores != 0 with
      | none => simp [hm] at h
      | some m =>
        have hused : (g.numaStats i m).usedCores ≠ 0 := by
          have := List.find?_some hm
          simp only [Bool.and_eq_true, bne_iff_ne, ne_eq] at this
          exact this.2
        have hlt := List.mem_range.mp (List.mem_of_find?_eq_some hm)
        rw [(hf.numaStats m hlt i).1] at hused
        obtain ⟨c, hc⟩ := List.exists_mem_of_length_pos (Nat.pos_of_ne_zero hused)
        rw [hm] at h
        dsimp only at h
        cases hj : (cfg.coresOf m).find? (g.inPart i) with
        | none =>
          have hc' := List.mem_filter.mp hc
          exact absurd hc'.2 (List.find?_eq_none.mp hj c hc'.1)
        | some j =>
          rw [hj] at h
          apply ih h
          by_cases hpi : p = i
          · subst hpi
            simp
          · simpa [hpi] using hp

end AbtSt
