import AbtSt.Level1

/-! The exact outcome of `abtst_rebalance_streams`. Whether it starts, which
loads it picks and what it stores are settled for every input; its guarantees
then come down to conditions on the foreign loads and the smallest load. -/

namespace AbtSt

/-- The tests at entry. -/
def Opens (p1 p2 : SortParam) (avg : Nat) : Prop :=
  u32 p1.ios < avg ∧ avg < u32 p2.ios ∧ 3 * p1.ios ≤ 2 * p2.ios

/-- The load may be moved at the start of the second scan. -/
def Fits (g : Global) (p1 p2 : SortParam) (avg : Nat) (l : LoadId) : Prop :=
  g.loadSize l ≠ 0 ∧ avg ≤ u32 (i32 (p2.ios - g.loadSize l)) ∧
    u32 (i32 (p1.ios + g.loadSize l)) ≤ avg

def Smallest (g : Global) (ls : List LoadId) (l : LoadId) : Prop :=
  l ∈ ls ∧ g.loadSize l ≠ 0 ∧ ∀ m ∈ ls, g.loadSize m ≠ 0 → g.loadSize l ≤ g.loadSize m

/-- The test on the smallest load. -/
def Accepts (g : Global) (p1 p2 : SortParam) (l : LoadId) : Prop :=
  2 * i32 (p1.ios + g.loadSize l) < 3 * i32 (p2.ios - g.loadSize l)

theorem i32_range (x : Int) : -2 ^ 31 ≤ i32 x ∧ i32 x < 2 ^ 31 := by
  unfold i32
  rw [Int.bmod_def]
  split_ifs <;> omega

theorem loadSize_range (g : Global) (l : LoadId) :
    -2 ^ 31 ≤ g.loadSize l ∧ g.loadSize l < 2 ^ 31 := by
  unfold Global.loadSize
  split_ifs
  · exact i32_range _
  · omega

section Scan

variable {g : Global} {p1 p2 : SortParam} {avg toLoads : Nat}

/-- A scan over `seen` that has chosen nothing. -/
structure Pick.Idle (g : Global) (p1 p2 : SortParam) (seen : List LoadId) (p : Pick) : Prop where
  ios : p.ios = p1.ios
  fromIos : p.fromIos = p2.ios
  mloads : p.mloads = []
  least : (p.minLoad = none ∧ p.minLsize = 0 ∧ ∀ m ∈ seen, g.loadSize m = 0) ∨
    ∃ l, p.minLoad = some l ∧ p.minLsize = g.loadSize l ∧ Smallest g seen l

theorem startPick_idle : (startPick p1 p2).Idle g p1 p2 [] :=
  ⟨rfl, rfl, rfl, Or.inl ⟨rfl, rfl, by simp⟩⟩

theorem Pick.Idle.skip {seen : List LoadId} {p : Pick} {l : LoadId} (h : p.Idle g p1 p2 seen)
    (hz : g.loadSize l = 0) : p.Idle g p1 p2 (seen ++ [l]) := by
  refine ⟨h.ios, h.fromIos, h.mloads, ?_⟩
  have hall : ∀ m ∈ seen ++ [l], g.loadSize m ≠ 0 → m ∈ seen := by
    intro m hm hne
    rcases List.mem_append.mp hm with hm | hm
    · exact hm
    · obtain rfl : m = l := by simpa using hm
      exact absurd hz hne
  rcases h.least with ⟨hnone, hzero, hseen⟩ | ⟨k, hk, hsize, hmem, hne, hle⟩
  · refine Or.inl ⟨hnone, hzero, fun m hm => ?_⟩
    by_contra hne
    exact hne (hseen m (hall m hm hne))
  · exact Or.inr ⟨k, hk, hsize, by simp [hmem], hne, fun m hm hm0 => hle m (hall m hm hm0) hm0⟩

theorem Pick.Idle.visit {seen : List LoadId} {p : Pick} {l : LoadId} (h : p.Idle g p1 p2 seen)
    (hz : g.loadSize l ≠ 0) (hfit : ¬ Fits g p1 p2 avg l) :
    (p.visit g avg l).Idle g p1 p2 (seen ++ [l]) := by
  have hno : ¬ (avg ≤ u32 (i32 (p2.ios - g.loadSize l)) ∧ u32 (i32 (p1.ios + g.loadSize l)) ≤ avg) :=
    fun hh => hfit ⟨hz, hh⟩
  have hmem : ∀ m ∈ seen ++ [l], m ∈ seen ∨ m = l := by simp
  unfold Pick.visit
  dsimp only
  by_cases hm : p.minLsize = 0 ∨ g.loadSize l < p.minLsize
  · simp only [hm, if_true, h.ios, h.fromIos, hno, if_false]
    refine ⟨rfl, rfl, h.mloads, Or.inr ⟨l, rfl, rfl, by simp, hz, ?_⟩⟩
    intro m hmm hne
    rcases hmem m hmm with hmm | rfl
    · rcases h.least with ⟨_, _, hseen⟩ | ⟨k, _, hsize, _, hk0, hle⟩
      · exact absurd (hseen m hmm) hne
      · have := hle m hmm hne
        rw [hsize] at hm
        omega
    · exact Int.le_refl _
  · simp only [hm, if_false, h.ios, h.fromIos, hno]
    refine ⟨h.ios, h.fromIos, h.mloads, Or.inr ?_⟩
    rcases h.least with ⟨_, hzero, _⟩ | ⟨k, hk, hsize, hkm, hk0, hle⟩
    · exact absurd (Or.inl hzero) hm
    · refine ⟨k, hk, hsize, by simp [hkm], hk0, fun m hmm hne => ?_⟩
      rcases hmem m hmm with hmm | rfl
      · exact hle m hmm hne
      · rw [hsize] at hm
        omega

/-- A step that has chosen nothing is not the last one. -/
theorem scanFitting_idle_cons {ls seen : List LoadId} {p : Pick} {l : LoadId}
    (havg : u32 p1.ios < avg) (hz : g.loadSize l ≠ 0)
    (h : (p.visit g avg l).Idle g p1 p2 seen) :
    scanFitting g avg toLoads (l :: ls) p = scanFitting g avg toLoads ls (p.visit g avg l) := by
  have hcount : ¬ (loadsPerXstream / 16 ≤ (p.visit g avg l).mloads.length ∧ toLoads ≠ 0) := by
    rw [h.mloads]
    exact fun hh => absurd hh.1 (by decide)
  have hios : ¬ u32 (p.visit g avg l).ios = avg := by
    rw [h.ios]
    omega
  rw [scanFitting_cons, if_neg hz, if_neg hcount, if_neg hios]

theorem scanFitting_idle {ls seen : List LoadId} {p : Pick} (havg : u32 p1.ios < avg)
    (hfit : ∀ l ∈ ls, ¬ Fits g p1 p2 avg l) (h : p.Idle g p1 p2 seen) :
    (scanFitting g avg toLoads ls p).Idle g p1 p2 (seen ++ ls) := by
  induction ls generalizing seen p with
  | nil => simpa [scanFitting] using h
  | cons l ls ih =>
    have hrest : ∀ m ∈ ls, ¬ Fits g p1 p2 avg m := fun m hm => hfit m (by simp [hm])
    rw [show seen ++ l :: ls = (seen ++ [l]) ++ ls by simp]
    by_cases hz : g.loadSize l = 0
    · rw [scanFitting_cons, if_pos hz]
      exact ih hrest (h.skip hz)
    · have hv := h.visit hz (hfit l (by simp))
      rw [scanFitting_idle_cons havg hz hv]
      exact ih hrest hv

theorem scanFitting_ne_nil {ls : List LoadId} {p : Pick} (h : p.mloads ≠ []) :
    (scanFitting g avg toLoads ls p).mloads ≠ [] :=
  scanFitting_induct g avg toLoads (I := fun _ q => q.mloads ≠ []) (fun _ _ _ _ hq => hq)
    (fun l _ q _ hq => by
      rcases q.visit_mloads g avg l with hv | hv
      · rw [hv]
        exact hq
      · rw [hv]
        simp)
    (fun _ _ hq => hq) ls p h

theorem scanFitting_fits {ls seen : List LoadId} {p : Pick} (havg : u32 p1.ios < avg)
    (hfit : ∃ l ∈ ls, Fits g p1 p2 avg l) (h : p.Idle g p1 p2 seen) :
    (scanFitting g avg toLoads ls p).mloads ≠ [] := by
  induction ls generalizing seen p with
  | nil => simp at hfit
  | cons l ls ih =>
    by_cases hl : Fits g p1 p2 avg l
    · have hne : (p.visit g avg l).mloads ≠ [] := by
        have hh := hl.2
        rw [← h.ios, ← h.fromIos] at hh
        unfold Pick.visit
        by_cases hm : p.minLsize = 0 ∨ g.loadSize l < p.minLsize <;> simp [hm, hh, Pick.choose]
      rw [scanFitting_cons, if_neg hl.1]
      split_ifs
      · exact hne
      · exact hne
      · exact scanFitting_ne_nil hne
    · have hrest : ∃ m ∈ ls, Fits g p1 p2 avg m := by
        obtain ⟨m, hm, hmf⟩ := hfit
        rcases List.mem_cons.mp hm with rfl | hm
        · exact absurd hmf hl
        · exact ⟨m, hm, hmf⟩
      by_cases hz : g.loadSize l = 0
      · rw [scanFitting_cons, if_pos hz]
        exact ih hrest (h.skip hz)
      · have hv := h.visit hz hl
        rw [scanFitting_idle_cons havg hz hv]
        exact ih hrest hv

theorem pickLoads_fits (havg : u32 p1.ios < avg) (hf : g.foreign p2.stream = [])
    (hfit : ∃ l ∈ (g.streams p2.stream).loadQ, Fits g p1 p2 avg l) :
    pickLoads g p1 p2 avg = fitting g p1 p2 avg ∧ (fitting g p1 p2 avg).mloads ≠ [] := by
  have hne : (fitting g p1 p2 avg).mloads ≠ [] := scanFitting_fits havg hfit startPick_idle
  rw [pickLoads_home avg hf, if_pos hne]
  exact ⟨rfl, hne⟩

theorem Smallest.size_eq {ls : List LoadId} {k l : LoadId} (hk : Smallest g ls k)
    (hl : Smallest g ls l) : g.loadSize k = g.loadSize l :=
  Int.le_antisymm (hk.2.2 l hl.1 hl.2.1) (hl.2.2 k hk.1 hk.2.1)

theorem pickLoads_unfit (havg : u32 p1.ios < avg) (hf : g.foreign p2.stream = [])
    (hfit : ∀ l ∈ (g.streams p2.stream).loadQ, ¬ Fits g p1 p2 avg l) :
    ((∀ l ∈ (g.streams p2.stream).loadQ, g.loadSize l = 0) ∧ (pickLoads g p1 p2 avg).mloads = []) ∨
    ∃ l, Smallest g (g.streams p2.stream).loadQ l ∧
      ((Accepts g p1 p2 l ∧ (pickLoads g p1 p2 avg).mloads = [l]) ∨
        (¬ Accepts g p1 p2 l ∧ (pickLoads g p1 p2 avg).mloads = [])) := by
  have hidle : (fitting g p1 p2 avg).Idle g p1 p2 (g.streams p2.stream).loadQ := by
    simpa [fitting] using scanFitting_idle havg hfit startPick_idle
  rw [pickLoads_home avg hf, if_neg (not_not.mpr hidle.mloads)]
  unfold Pick.fallback
  rcases hidle.least with ⟨hnone, _, hzero⟩ | ⟨l, hl, hsize, hleast⟩
  · rw [hnone]
    exact Or.inl ⟨hzero, hidle.mloads⟩
  · rw [hl, hsize]
    dsimp only
    refine Or.inr ⟨l, hleast, ?_⟩
    by_cases ha : Accepts g p1 p2 l
    · rw [if_pos ⟨hleast.2.1, ha⟩]
      exact Or.inl ⟨ha, by rw [hidle.mloads]; rfl⟩
    · rw [if_neg (fun hh => ha hh.2)]
      exact Or.inr ⟨ha, hidle.mloads⟩

/-- The loads that fit keep the target at or below the average and the source
at or above it, whatever the sizes are. -/
theorem fitting_bounds (ho : Opens p1 p2 avg) (h1 : 0 ≤ p1.ios) (h1' : p1.ios < 2 ^ 31)
    (h2' : p2.ios < 2 ^ 31) :
    (∀ l ∈ (fitting g p1 p2 avg).mloads, g.loadSize l ≠ 0) ∧
    0 ≤ p1.ios + g.sizeOf (fitting g p1 p2 avg).mloads ∧
    p1.ios + g.sizeOf (fitting g p1 p2 avg).mloads ≤ avg ∧
    ((fitting g p1 p2 avg).mloads ≠ [] → avg ≤ p2.ios - g.sizeOf (fitting g p1 p2 avg).mloads) := by
  obtain ⟨ha1, ha2, hratio⟩ := ho
  have hu1 : (u32 p1.ios : Int) = p1.ios := u32_of_nonneg h1 (by omega)
  have hu2 : (u32 p2.ios : Int) = p2.ios := u32_of_nonneg (by omega) (by omega)
  have hinv := scanFitting_induct g avg (g.streams p1.stream).nrLoads
    (I := fun _ q => q.ios = p1.ios + g.sizeOf q.mloads ∧ 0 ≤ q.ios ∧ q.ios ≤ avg ∧
      (q.fromIos - (p2.ios - g.sizeOf q.mloads)) % 2 ^ 32 = 0 ∧
      (∀ l ∈ q.mloads, g.loadSize l ≠ 0) ∧ (q.mloads ≠ [] → avg ≤ p2.ios - g.sizeOf q.mloads))
    (fun _ _ _ _ hq => hq)
    (fun l rest q hz hq => by
      obtain ⟨hios, h0, hle, hfrom, hsizes, hkeep⟩ := hq
      rcases visit_cases g avg q l with ⟨hm, hi, hf⟩ | ⟨hm, hi, hf, hge, hfit⟩
      · rw [hm, hi, hf]
        exact ⟨hios, h0, hle, hfrom, hsizes, hkeep⟩
      · have hr := loadSize_range g l
        -- a sum that is negative or too large is above the average as an unsigned number
        have hcast := cast_u32 (i32 (q.ios + g.loadSize l))
        have hmod := i32_emod (q.ios + g.loadSize l)
        have hx : 0 ≤ q.ios + g.loadSize l ∧ q.ios + g.loadSize l ≤ avg := by omega
        have hexact : i32 (q.ios + g.loadSize l) = q.ios + g.loadSize l :=
          i32_of_lt (by omega) (by omega)
        have hcast' := cast_u32 (i32 (q.fromIos - g.loadSize l))
        have hmod' := i32_emod (q.fromIos - g.loadSize l)
        have hsum : g.sizeOf (q.mloads ++ [l]) = g.sizeOf q.mloads + g.loadSize l := by simp
        rw [hm, hi, hf, hexact, hsum]
        refine ⟨by omega, hx.1, hx.2, by omega, ?_, fun _ => by omega⟩
        intro m hmem
        rcases List.mem_append.mp hmem with hmem | hmem
        · exact hsizes m hmem
        · obtain rfl : m = l := by simpa using hmem
          exact hz)
    (fun _ _ hq => hq) (g.streams p2.stream).loadQ (startPick p1 p2)
    ⟨by simp [startPick], h1, by simp only [startPick]; omega, by simp [startPick],
      by simp [startPick], by simp [startPick]⟩
  obtain ⟨hios, h0, hle, _, hsizes, hkeep⟩ := hinv
  change (fitting g p1 p2 avg).ios = _ at hios
  change 0 ≤ (fitting g p1 p2 avg).ios at h0
  change (fitting g p1 p2 avg).ios ≤ _ at hle
  rw [hios] at h0 hle
  exact ⟨hsizes, h0, hle, hkeep⟩

/-- What the call returns, for every input: it moves the loads that it picks and
stores the two depths modulo `2^32`. -/
theorem abtstRebalanceStreams_eq (avg : Nat) (hne : p2.stream ≠ p1.stream)
    (hroom : (g.streams p2.stream).loadQ.length ≤ (g.streams p2.stream).nrLoads) :
    (Opens p1 p2 avg → (pickLoads g p1 p2 avg).mloads ≠ [] →
      abtstRebalanceStreams g p1 p2 avg = .ok (some (g.moved p2.stream p1.stream
        (pickLoads g p1 p2 avg).mloads
        (u32 (p2.ios - g.sizeOf (pickLoads g p1 p2 avg).mloads))
        (u32 (p1.ios + g.sizeOf (pickLoads g p1 p2 avg).mloads))))) ∧
    (¬ (Opens p1 p2 avg ∧ (pickLoads g p1 p2 avg).mloads ≠ []) →
      abtstRebalanceStreams g p1 p2 avg = .ok none) := by
  have hlen := (pickLoads_sublist g p1 p2 avg).length_le
  constructor
  · intro ho hm
    have hacc := pickLoads_accounts hm
    have hdst : u32 (pickLoads g p1 p2 avg).ios =
        u32 (p1.ios + g.sizeOf (pickLoads g p1 p2 avg).mloads) := by
      simp only [Pick.Accounts] at hacc
      simp only [u32]
      omega
    have hsrc : u32 (i32 (p2.ios - i32 ((pickLoads g p1 p2 avg).ios - p1.ios))) =
        u32 (p2.ios - g.sizeOf (pickLoads g p1 p2 avg).mloads) := by
      have hmod := i32_emod ((pickLoads g p1 p2 avg).ios - p1.ios)
      rw [u32_i32]
      simp only [Pick.Accounts] at hacc
      simp only [u32]
      omega
    have htest : ¬ (avg ≤ u32 p1.ios ∨ u32 p2.ios ≤ avg) := by
      have := ho.1
      have := ho.2.1
      omega
    have hratio : ¬ 2 * p2.ios < 3 * p1.ios := by
      have := ho.2.2
      omega
    unfold abtstRebalanceStreams
    rw [if_neg htest, if_neg hratio]
    dsimp only
    rw [if_neg (by omega), if_neg hm, foldl_migrateLoad g hne, moved_updateQdepth g hne, hdst, hsrc]
  · intro hno
    cases hr : abtstRebalanceStreams g p1 p2 avg with
    | error e =>
      unfold abtstRebalanceStreams at hr
      dsimp only at hr
      split_ifs at hr
      omega
    | ok r =>
      cases r with
      | none => rfl
      | some t =>
        obtain ⟨h1, h2, h3, hm, _⟩ := abtstRebalanceStreams_some hne hr
        exact absurd ⟨⟨h1, h2, h3⟩, hm⟩ hno

end Scan

theorem moved_loads_inj {g : Global} {src dst : Nat} {ms ms' : List LoadId} {a b a' b' : Nat}
    (h : g.moved src dst ms a b = g.moved src dst ms' a' b') : ms = ms' := by
  have hq : ((g.moved src dst ms a b).streams dst).loadQ =
      ((g.moved src dst ms' a' b').streams dst).loadQ := by rw [h]
  rw [moved_dst, moved_dst] at hq
  exact List.reverse_injective (List.append_cancel_right hq)

/-- The two stored depths are the cached ones plus and minus the sizes of the
loads that moved, as integers: none of them has wrapped. -/
def Unwrapped (g : Global) (p1 p2 : SortParam) (avg : Nat) : Prop :=
  ∀ t, abtstRebalanceStreams g p1 p2 avg = .ok (some t) → ∃ ms,
    t = g.moved p2.stream p1.stream ms (t.qdepth p2.stream) (t.qdepth p1.stream) ∧
    (t.qdepth p1.stream : Int) = p1.ios + g.sizeOf ms ∧
    (t.qdepth p2.stream : Int) = p2.ios - g.sizeOf ms

/-- What is moved is no larger than the cached depth of the source, and no more
negative than that of the target: all foreign loads, or else the smallest load if
none fits. Loads that fit need a target with a non-negative depth. -/
def Covered (g : Global) (p1 p2 : SortParam) (avg : Nat) : Prop :=
  Opens p1 p2 avg →
    (g.foreign p2.stream ≠ [] → 0 ≤ p1.ios + g.sizeOf (g.foreign p2.stream) ∧
      g.sizeOf (g.foreign p2.stream) ≤ p2.ios) ∧
    (g.foreign p2.stream = [] → (∃ l ∈ (g.streams p2.stream).loadQ, Fits g p1 p2 avg l) →
      0 ≤ p1.ios) ∧
    (g.foreign p2.stream = [] → (∀ l ∈ (g.streams p2.stream).loadQ, ¬ Fits g p1 p2 avg l) →
      ∀ l, Smallest g (g.streams p2.stream).loadQ l → Accepts g p1 p2 l →
        0 ≤ p1.ios + g.loadSize l ∧ g.loadSize l ≤ p2.ios)

section Wrap

variable {g : Global} {p1 p2 : SortParam} {avg : Nat}

theorem pickLoads_foreign_mloads (p1 : SortParam) (avg : Nat) (hf : g.foreign p2.stream ≠ []) :
    (pickLoads g p1 p2 avg).mloads = g.foreign p2.stream := by
  rw [pickLoads_foreign avg hf, scanForeign_mloads]
  rfl

theorem unwrapped_iff_picked (hne : p2.stream ≠ p1.stream)
    (hroom : (g.streams p2.stream).loadQ.length ≤ (g.streams p2.stream).nrLoads)
    (h1 : p1.ios < 2 ^ 31) (h2 : p2.ios < 2 ^ 31) :
    Unwrapped g p1 p2 avg ↔ (Opens p1 p2 avg → (pickLoads g p1 p2 avg).mloads ≠ [] →
      0 ≤ p1.ios + g.sizeOf (pickLoads g p1 p2 avg).mloads ∧
      g.sizeOf (pickLoads g p1 p2 avg).mloads ≤ p2.ios) := by
  obtain ⟨hsome, hnone⟩ := abtstRebalanceStreams_eq avg hne hroom
  constructor
  · intro hu ho hm
    obtain ⟨ms, hms, hdst, hsrc⟩ := hu _ (hsome ho hm)
    obtain rfl := moved_loads_inj hms
    omega
  · intro hb t ht
    by_cases hh : Opens p1 p2 avg ∧ (pickLoads g p1 p2 avg).mloads ≠ []
    · obtain ⟨h0, hle⟩ := hb hh.1 hh.2
      rw [hsome hh.1 hh.2, Except.ok.injEq, Option.some.injEq] at ht
      subst ht
      obtain ⟨hqs, hqd⟩ := moved_qdepth g hne (pickLoads g p1 p2 avg).mloads
        (u32 (p2.ios - g.sizeOf (pickLoads g p1 p2 avg).mloads))
        (u32 (p1.ios + g.sizeOf (pickLoads g p1 p2 avg).mloads))
      refine ⟨_, by rw [hqs, hqd], ?_, ?_⟩
      · rw [hqd, u32_of_nonneg h0 (by omega)]
      · rw [hqs, u32_of_nonneg (by omega) (by omega)]
    · rw [hnone hh] at ht
      cases ht

theorem Opens.nonneg (ho : Opens p1 p2 avg) (h1 : -2 ^ 31 ≤ p1.ios) (h2 : p2.ios < 2 ^ 31)
    (hsum : 0 ≤ p1.ios + p2.ios) : 0 ≤ p1.ios := by
  obtain ⟨ha1, ha2, hratio⟩ := ho
  have hc1 := cast_u32 p1.ios
  have hc2 := cast_u32 p2.ios
  omega

end Wrap

/-- The stored depths do not wrap exactly if what is moved is covered by the
cached depths. -/
theorem unwrapped_iff_covered {g : Global} {p1 p2 : SortParam} {avg : Nat}
    (hne : p2.stream ≠ p1.stream)
    (hroom : (g.streams p2.stream).loadQ.length ≤ (g.streams p2.stream).nrLoads)
    (h1 : -2 ^ 31 ≤ p1.ios ∧ p1.ios < 2 ^ 31) (h2 : -2 ^ 31 ≤ p2.ios ∧ p2.ios < 2 ^ 31) :
    Unwrapped g p1 p2 avg ↔ Covered g p1 p2 avg := by
  rw [unwrapped_iff_picked hne hroom h1.2 h2.2]
  constructor
  · intro hb ho
    have hb := hb ho
    refine ⟨?_, ?_, ?_⟩
    · intro hf
      have hms := pickLoads_foreign_mloads p1 avg hf
      rw [hms] at hb
      exact hb hf
    · intro hf hfit
      obtain ⟨hpick, hm⟩ := pickLoads_fits ho.1 hf hfit
      rw [hpick] at hb
      have hbound := hb hm
      exact ho.nonneg h1.1 h2.2 (by omega)
    · intro hf hfit l hl ha
      rcases pickLoads_unfit ho.1 hf hfit with ⟨hzero, _⟩ | ⟨k, hk, ⟨_, hms⟩ | ⟨hno, _⟩⟩
      · exact absurd (hzero l hl.1) hl.2.1
      · rw [hms] at hb
        have hbound := hb (by simp)
        simpa [hl.size_eq hk] using hbound
      · unfold Accepts at ha hno
        rw [hl.size_eq hk] at ha
        exact absurd ha hno
  · intro hc ho hm
    obtain ⟨hforeign, hfits, hsmall⟩ := hc ho
    by_cases hf : g.foreign p2.stream = []
    · by_cases hfit : ∃ l ∈ (g.streams p2.stream).loadQ, Fits g p1 p2 avg l
      · obtain ⟨hpick, _⟩ := pickLoads_fits ho.1 hf hfit
        have h0 := hfits hf hfit
        obtain ⟨_, hlow, hle, _⟩ := fitting_bounds (g := g) ho h0 h1.2 h2.2
        have hu2 := u32_of_nonneg (x := p2.ios) (by have := ho.2.2; omega) (by omega)
        have havg := ho.2.1
        rw [hpick]
        exact ⟨hlow, by omega⟩
      · have hno : ∀ l ∈ (g.streams p2.stream).loadQ, ¬ Fits g p1 p2 avg l :=
          fun l hl hh => hfit ⟨l, hl, hh⟩
        rcases pickLoads_unfit ho.1 hf hno with ⟨_, hms⟩ | ⟨k, hk, ⟨ha, hms⟩ | ⟨_, hms⟩⟩
        · exact absurd hms hm
        · have hbound := hsmall hf hno k hk ha
          rw [hms]
          simpa using hbound
        · exact absurd hms hm
    · rw [pickLoads_foreign_mloads p1 avg hf]
      exact hforeign hf

/-- Two streams with one load each; `curr` is the current rank of the second load. -/
def twoLoads (size1 size2 curr : Nat) : Global :=
  { blank with
    streams := fun c =>
      { rank := c, used := decide (1 ≤ c ∧ c ≤ 2), sleepNsec := 1
        loadQ := if c = 1 then [⟨0, 0⟩] else if c = 2 then [⟨0, 1⟩] else []
        nrLoads := if 1 ≤ c ∧ c ≤ 2 then 1 else 0 }
    loads := fun l => if l.index = 0 then { pktStarted := size1, initRank := 1, currRank := 1 }
      else { pktStarted := size2, initRank := 2, currRank := curr } }

theorem unwrapped_iff_covered_two : Unwrapped (twoLoads 10 200 1) ⟨10, 1⟩ ⟨300, 2⟩ 155 := by
  refine (unwrapped_iff_covered (by decide) (by decide) (by decide) (by decide)).mpr (fun _ => ?_)
  refine ⟨fun _ => by decide +kernel, fun hf => ?_, fun hf => ?_⟩
  · exact absurd hf (by decide +kernel)
  · exact absurd hf (by decide +kernel)

/-- A foreign load that has grown to 300 since the depth 200 was cached. -/
theorem grown_foreign_load_wraps :
    (∃ t, abtstRebalanceStreams (twoLoads 0 300 1) ⟨0, 1⟩ ⟨200, 2⟩ 100 = .ok (some t) ∧
      t.qdepth 1 = 300 ∧ t.qdepth 2 = 2 ^ 32 - 100) ∧
    ¬ Unwrapped (twoLoads 0 300 1) ⟨0, 1⟩ ⟨200, 2⟩ 100 := by
  have hrun : (match abtstRebalanceStreams (twoLoads 0 300 1) ⟨0, 1⟩ ⟨200, 2⟩ 100 with
      | .ok (some t) => decide (t.qdepth 1 = 300) && decide (t.qdepth 2 = 2 ^ 32 - 100)
      | _ => false) = true := by decide +kernel
  split at hrun
  · rename_i t ht
    simp only [Bool.and_eq_true, decide_eq_true_eq] at hrun
    refine ⟨⟨t, ht, hrun⟩, fun hu => ?_⟩
    obtain ⟨ms, _, hdst, hsrc⟩ := hu t ht
    rw [hrun.1] at hdst
    rw [hrun.2] at hsrc
    dsimp only at hdst hsrc
    omega
  · cases hrun

/-- A call on two streams with their current depths. -/
structure DepthInput (g : Global) (p1 p2 : SortParam) : Prop where
  ne : p2.stream ≠ p1.stream
  count : (g.streams p2.stream).nrLoads = (g.streams p2.stream).loadQ.length
  first : p1.ios = g.demand p1.stream
  last : p2.ios = g.demand p2.stream
  first_lt : p1.ios < 2 ^ 31
  last_lt : p2.ios < 2 ^ 31

/-- All loads of the source are at home. -/
structure HomeInput (g : Global) (p1 p2 : SortParam) : Prop extends DepthInput g p1 p2 where
  home : ∀ l ∈ (g.streams p2.stream).loadQ, (g.loads l).currRank = (g.loads l).initRank

/-- Loads that fit have moved: the average lies between the two new depths. -/
structure MovedFitting (g t : Global) (p1 p2 : SortParam) (avg : Nat) (ms : List LoadId) : Prop where
  sizes : ∀ l ∈ ms, g.loadSize l ≠ 0
  target : p1.ios < t.qdepth p1.stream ∧ t.qdepth p1.stream ≤ avg
  source : avg ≤ t.qdepth p2.stream ∧ t.qdepth p2.stream < p2.ios
  few : (g.streams p1.stream).nrLoads ≠ 0 → ms.length ≤ loadsPerXstream / 16

/-- The smallest load has moved: both new depths are below the old maximum. -/
structure MovedSmallest (g t : Global) (p1 p2 : SortParam) (l : LoadId) : Prop where
  smallest : Smallest g (g.streams p2.stream).loadQ l
  target : t.qdepth p1.stream < p2.ios
  source : t.qdepth p2.stream < p2.ios

def HomeOutcome (g : Global) (p1 p2 : SortParam) (avg : Nat) : Prop :=
  ∃ r, abtstRebalanceStreams g p1 p2 avg = .ok r ∧ ∀ t, r = some t → ∃ ms,
    t = g.moved p2.stream p1.stream ms (t.qdepth p2.stream) (t.qdepth p1.stream) ∧
    ms.Sublist (g.streams p2.stream).loadQ ∧
    (MovedFitting g t p1 p2 avg ms ∨ ∃ l, ms = [l] ∧ MovedSmallest g t p1 p2 l) ∧
    (t.qdepth p1.stream : Int) + t.qdepth p2.stream = p1.ios + p2.ios

theorem scanFitting_few {g : Global} {avg toLoads : Nat} (hto : toLoads ≠ 0) (ls : List LoadId)
    {p : Pick} (h : p.mloads.length < loadsPerXstream / 16) :
    (scanFitting g avg toLoads ls p).mloads.length ≤ loadsPerXstream / 16 := by
  induction ls generalizing p with
  | nil => exact Nat.le_of_lt h
  | cons l ls ih =>
    rw [scanFitting_cons]
    have hstep : (p.visit g avg l).mloads.length ≤ loadsPerXstream / 16 := by
      rcases p.visit_mloads g avg l with hv | hv
      · rw [hv]
        exact Nat.le_of_lt h
      · rw [hv, List.length_append]
        exact h
    split_ifs with hz hc
    · exact ih h
    · exact hstep
    · exact hstep
    · exact ih (by omega)

section DepthInput

variable {g : Global} {p1 p2 : SortParam} {avg : Nat}

theorem DepthInput.sublist (h : DepthInput g p1 p2) {ms : List LoadId}
    (hms : ms.Sublist (g.streams p2.stream).loadQ) :
    g.sizeOf ms = g.outstandingOf ms ∧ (g.outstandingOf ms : Int) ≤ p2.ios := by
  have hle : g.outstandingOf ms ≤ g.outstandingOf (g.streams p2.stream).loadQ :=
    (hms.map g.outstanding).sum_le_sum (by simp)
  have hl : p2.ios = g.outstandingOf (g.streams p2.stream).loadQ := h.last
  have hlt := h.last_lt
  exact ⟨sizeOf_eq (by omega), by omega⟩

theorem DepthInput.size (h : DepthInput g p1 p2) {l : LoadId}
    (hl : l ∈ (g.streams p2.stream).loadQ) : 0 ≤ g.loadSize l ∧ g.loadSize l ≤ p2.ios := by
  obtain ⟨hs, hle⟩ := h.sublist (List.singleton_sublist.mpr hl)
  have hsize : g.sizeOf [l] = g.loadSize l := by simp
  omega

theorem DepthInput.sizeOf_pos (h : DepthInput g p1 p2) {ms : List LoadId}
    (hms : ms.Sublist (g.streams p2.stream).loadQ) (hne : ms ≠ [])
    (hsizes : ∀ l ∈ ms, g.loadSize l ≠ 0) : 0 < g.sizeOf ms := by
  cases ms with
  | nil => exact absurd rfl hne
  | cons l ms =>
    have hl := h.size (hms.subset (List.mem_cons_self))
    have hz := hsizes l (by simp)
    have htail := (h.sublist ((List.sublist_cons_self l ms).trans hms)).1
    rw [Global.sizeOf_cons]
    omega

theorem DepthInput.opens (h : DepthInput g p1 p2) (ho : Opens p1 p2 avg) :
    p1.ios < avg ∧ avg < p2.ios ∧ 3 * p1.ios ≤ 2 * p2.ios := by
  obtain ⟨ha1, ha2, hratio⟩ := ho
  have hf := h.first
  have hl := h.last
  have hf' := h.first_lt
  have hl' := h.last_lt
  have hu1 := u32_of_nonneg (x := p1.ios) (by omega) (by omega)
  have hu2 := u32_of_nonneg (x := p2.ios) (by omega) (by omega)
  omega

theorem DepthInput.exists_nonzero (h : DepthInput g p1 p2) (ho : Opens p1 p2 avg) :
    ¬ ∀ l ∈ (g.streams p2.stream).loadQ, g.loadSize l = 0 := by
  intro hzero
  obtain ⟨hs, _⟩ := h.sublist (List.Sublist.refl _)
  have hsum : g.sizeOf (g.streams p2.stream).loadQ = 0 := by
    unfold Global.sizeOf
    rw [List.map_congr_left hzero]
    simp
  have hl : p2.ios = g.outstandingOf (g.streams p2.stream).loadQ := h.last
  have hopens := h.opens ho
  have hf := h.first
  omega

/-- A load that would take the target to `2^31` does not fit. -/
theorem DepthInput.unfit (h : DepthInput g p1 p2) (ho : Opens p1 p2 avg) {l : LoadId}
    (hl : l ∈ (g.streams p2.stream).loadQ) (hbig : 2 ^ 31 ≤ p1.ios + g.loadSize l) :
    ¬ Fits g p1 p2 avg l ∧ Accepts g p1 p2 l := by
  have hopens := h.opens ho
  have hsize := h.size hl
  have hf := h.first_lt
  have hlt := h.last_lt
  have hcast := cast_u32 (i32 (p1.ios + g.loadSize l))
  have hmod := i32_emod (p1.ios + g.loadSize l)
  have hrange := i32_range (p1.ios + g.loadSize l)
  constructor
  · rintro ⟨_, _, hfit⟩
    omega
  · unfold Accepts
    rw [i32_of_lt (x := p2.ios - g.loadSize l) (by omega) (by omega)]
    omega

theorem DepthInput.movedFitting (h : DepthInput g p1 p2) (ho : Opens p1 p2 avg)
    (hne : (fitting g p1 p2 avg).mloads ≠ []) {t : Global}
    (hdst : (t.qdepth p1.stream : Int) = p1.ios + g.sizeOf (fitting g p1 p2 avg).mloads)
    (hsrc : (t.qdepth p2.stream : Int) = p2.ios - g.sizeOf (fitting g p1 p2 avg).mloads) :
    MovedFitting g t p1 p2 avg (fitting g p1 p2 avg).mloads := by
  have hf := h.first
  obtain ⟨hsizes, _, hle, hge⟩ := fitting_bounds (g := g) ho (by omega) h.first_lt h.last_lt
  have hpos := h.sizeOf_pos (fitting_sublist g p1 p2 avg) hne hsizes
  have hge := hge hne
  refine ⟨hsizes, ⟨by omega, by omega⟩, ⟨by omega, by omega⟩, fun hto => ?_⟩
  exact scanFitting_few hto _ (by simp [startPick, loadsPerXstream])

theorem DepthInput.smallest_lt (h : DepthInput g p1 p2) (ho : Opens p1 p2 avg) {l : LoadId}
    (hl : l ∈ (g.streams p2.stream).loadQ) (ha : Accepts g p1 p2 l)
    (hsmall : p1.ios + g.loadSize l < 2 ^ 31) : p1.ios + g.loadSize l < p2.ios := by
  have hopens := h.opens ho
  have hsize := h.size hl
  have hf := h.first
  have hlt := h.last_lt
  unfold Accepts at ha
  rw [i32_of_lt (by omega) hsmall, i32_of_lt (by omega) (by omega)] at ha
  -- the test at entry and the test on the load together
  have hbelow : 5 * (p1.ios + g.loadSize l) < 5 * p2.ios := by omega
  omega

theorem DepthInput.movedSmallest (h : DepthInput g p1 p2) (ho : Opens p1 p2 avg) {l : LoadId}
    (hl : Smallest g (g.streams p2.stream).loadQ l) (ha : Accepts g p1 p2 l)
    (hsmall : p1.ios + g.loadSize l < 2 ^ 31) {t : Global}
    (hdst : (t.qdepth p1.stream : Int) = p1.ios + g.loadSize l)
    (hsrc : (t.qdepth p2.stream : Int) = p2.ios - g.loadSize l) : MovedSmallest g t p1 p2 l := by
  have hlt := h.smallest_lt ho hl.1 ha hsmall
  have hsize := h.size hl.1
  have hz := hl.2.1
  exact ⟨hl, by omega, by omega⟩

theorem DepthInput.result (h : DepthInput g p1 p2) (ho : Opens p1 p2 avg)
    (hm : (pickLoads g p1 p2 avg).mloads ≠ []) :
    ∃ t, abtstRebalanceStreams g p1 p2 avg = .ok (some t) ∧
      t = g.moved p2.stream p1.stream (pickLoads g p1 p2 avg).mloads (t.qdepth p2.stream)
        (t.qdepth p1.stream) ∧
      (t.qdepth p1.stream : Int) = p1.ios + g.sizeOf (pickLoads g p1 p2 avg).mloads ∧
      (t.qdepth p2.stream : Int) = p2.ios - g.sizeOf (pickLoads g p1 p2 avg).mloads := by
  have heq := (abtstRebalanceStreams_eq avg h.ne (Nat.le_of_eq h.count.symm)).1 ho hm
  obtain ⟨hqs, hqd⟩ := moved_qdepth g h.ne (pickLoads g p1 p2 avg).mloads
    (u32 (p2.ios - g.sizeOf (pickLoads g p1 p2 avg).mloads))
    (u32 (p1.ios + g.sizeOf (pickLoads g p1 p2 avg).mloads))
  obtain ⟨hs, hle⟩ := h.sublist (pickLoads_sublist g p1 p2 avg)
  have hf := h.first
  have hf' := h.first_lt
  have hl' := h.last_lt
  refine ⟨_, heq, by rw [hqs, hqd], ?_, ?_⟩
  · rw [hqd, u32_of_nonneg (by omega) (by omega)]
  · rw [hqs, u32_of_nonneg (by omega) (by omega)]

theorem DepthInput.no_result (h : DepthInput g p1 p2)
    (hno : ¬ (Opens p1 p2 avg ∧ (pickLoads g p1 p2 avg).mloads ≠ [])) :
    abtstRebalanceStreams g p1 p2 avg = .ok none :=
  (abtstRebalanceStreams_eq avg h.ne (Nat.le_of_eq h.count.symm)).2 hno

/-- If every load would take the target to `2^31`, the smallest one moves. -/
theorem DepthInput.overflow (h : DepthInput g p1 p2) (ho : Opens p1 p2 avg)
    (hf : g.foreign p2.stream = [])
    (hbig : ¬ ∃ l ∈ (g.streams p2.stream).loadQ, g.loadSize l ≠ 0 ∧ p1.ios + g.loadSize l < 2 ^ 31) :
    (pickLoads g p1 p2 avg).mloads ≠ [] ∧
      p2.ios < p1.ios + g.sizeOf (pickLoads g p1 p2 avg).mloads := by
  have hbig : ∀ l ∈ (g.streams p2.stream).loadQ, g.loadSize l ≠ 0 → 2 ^ 31 ≤ p1.ios + g.loadSize l := by
    intro l hl hz
    by_contra hlt
    exact hbig ⟨l, hl, hz, by omega⟩
  have hunfit : ∀ l ∈ (g.streams p2.stream).loadQ, ¬ Fits g p1 p2 avg l :=
    fun l hl hfit => (h.unfit ho hl (hbig l hl hfit.1)).1 hfit
  rcases pickLoads_unfit ho.1 hf hunfit with ⟨hzero, _⟩ | ⟨l, hl, ⟨_, hms⟩ | ⟨hno, _⟩⟩
  · exact absurd hzero (h.exists_nonzero ho)
  · have hone : g.sizeOf [l] = g.loadSize l := by simp
    have hlarge := hbig l hl.1 hl.2.1
    have hlt := h.last_lt
    rw [hms, hone]
    exact ⟨by simp, by omega⟩
  · exact absurd (h.unfit ho hl.1 (hbig l hl.1 hl.2.1)).2 hno

/-- Otherwise what moves without foreign loads keeps the target below the source. -/
theorem DepthInput.picked_lt (h : DepthInput g p1 p2) (ho : Opens p1 p2 avg)
    (hf : g.foreign p2.stream = []) (hm : (pickLoads g p1 p2 avg).mloads ≠ [])
    (hc : ∃ l ∈ (g.streams p2.stream).loadQ, g.loadSize l ≠ 0 ∧ p1.ios + g.loadSize l < 2 ^ 31) :
    p1.ios + g.sizeOf (pickLoads g p1 p2 avg).mloads < p2.ios := by
  have hopens := h.opens ho
  have hfirst := h.first
  by_cases hfit : ∃ l ∈ (g.streams p2.stream).loadQ, Fits g p1 p2 avg l
  · obtain ⟨hpick, _⟩ := pickLoads_fits ho.1 hf hfit
    obtain ⟨_, _, hle, _⟩ := fitting_bounds (g := g) ho (by omega) h.first_lt h.last_lt
    rw [hpick]
    omega
  · have hunfit : ∀ l ∈ (g.streams p2.stream).loadQ, ¬ Fits g p1 p2 avg l :=
      fun l hl hh => hfit ⟨l, hl, hh⟩
    rcases pickLoads_unfit ho.1 hf hunfit with ⟨_, hms⟩ | ⟨l, hl, ⟨ha, hms⟩ | ⟨_, hms⟩⟩
    · exact absurd hms hm
    · obtain ⟨k, hk, hkz, hklt⟩ := hc
      have hle := hl.2.2 k hk hkz
      have hlt := h.smallest_lt ho hl.1 ha (by omega)
      rw [hms]
      simpa using hlt
    · exact absurd hms hm

end DepthInput

theorem HomeInput.foreign {g : Global} {p1 p2 : SortParam} (h : HomeInput g p1 p2) :
    g.foreign p2.stream = [] := by
  simpa [Global.foreign] using h.home

/-- With all loads at home the call does one of two things, or nothing, exactly
if some load would not take the target to `2^31`. -/
theorem home_outcome_iff {g : Global} {p1 p2 : SortParam} {avg : Nat} (h : HomeInput g p1 p2) :
    HomeOutcome g p1 p2 avg ↔ (Opens p1 p2 avg →
      ∃ l ∈ (g.streams p2.stream).loadQ, g.loadSize l ≠ 0 ∧ p1.ios + g.loadSize l < 2 ^ 31) := by
  constructor
  · rintro ⟨r, hr, hout⟩ ho
    by_contra hbig
    obtain ⟨hm, hlarge⟩ := h.overflow ho h.foreign hbig
    obtain ⟨t, ht, _, hdst, _⟩ := h.result ho hm
    rw [hr, Except.ok.injEq] at ht
    obtain ⟨ms, _, _, hcase, _⟩ := hout t ht
    have hopens := h.opens ho
    rcases hcase with hfit | ⟨l, _, hsmall⟩
    · have htarget := hfit.target.2
      omega
    · have htarget := hsmall.target
      omega
  · intro hc
    by_cases hh : Opens p1 p2 avg ∧ (pickLoads g p1 p2 avg).mloads ≠ []
    · obtain ⟨ho, hm⟩ := hh
      obtain ⟨t, ht, hmoved, hdst, hsrc⟩ := h.result ho hm
      refine ⟨some t, ht, fun t' ht' => ?_⟩
      obtain rfl := Option.some.inj ht'
      refine ⟨_, hmoved, pickLoads_sublist g p1 p2 avg, ?_, by omega⟩
      by_cases hfit : ∃ l ∈ (g.streams p2.stream).loadQ, Fits g p1 p2 avg l
      · obtain ⟨hpick, hne⟩ := pickLoads_fits ho.1 h.foreign hfit
        rw [hpick] at hdst hsrc ⊢
        exact Or.inl (h.movedFitting ho hne hdst hsrc)
      · have hunfit : ∀ l ∈ (g.streams p2.stream).loadQ, ¬ Fits g p1 p2 avg l :=
          fun l hl hh => hfit ⟨l, hl, hh⟩
        rcases pickLoads_unfit ho.1 h.foreign hunfit with ⟨_, hms⟩ | ⟨l, hl, ⟨ha, hms⟩ | ⟨_, hms⟩⟩
        · exact absurd hms hm
        · have hone : g.sizeOf [l] = g.loadSize l := by simp
          rw [hms, hone] at hdst hsrc
          obtain ⟨k, hk, hkz, hklt⟩ := hc ho
          have hle := hl.2.2 k hk hkz
          exact Or.inr ⟨l, hms, h.movedSmallest ho hl ha (by omega) hdst hsrc⟩
        · exact absurd hms hm
    · exact ⟨none, h.no_result hh, by simp⟩

theorem twoLoads_home {a b : Nat} (ha : a < 2 ^ 31) (hb : b < 2 ^ 31) :
    HomeInput (twoLoads a b 2) ⟨a, 1⟩ ⟨b, 2⟩ := by
  refine ⟨⟨by simp, rfl, ?_, ?_, ?_, ?_⟩, ?_⟩
  · simp [Global.demand, Global.outstandingOf, Global.outstanding, twoLoads]
  · simp [Global.demand, Global.outstandingOf, Global.outstanding, twoLoads]
  · dsimp only
    omega
  · dsimp only
    omega
  · intro l hl
    obtain rfl : l = ⟨0, 1⟩ := by simpa [twoLoads] using hl
    rfl

theorem homeStart_input : HomeInput homeStart ⟨0, 2⟩ ⟨300, 1⟩ := by
  refine ⟨⟨by decide, ?_, ?_, ?_, by decide, by decide⟩, ?_⟩ <;> decide +kernel

/-- The load of size 100 moves to the empty stream. -/
theorem home_outcome_iff_home : HomeOutcome homeStart ⟨0, 2⟩ ⟨300, 1⟩ 100 ∧
    ∃ t, abtstRebalanceStreams homeStart ⟨0, 2⟩ ⟨300, 1⟩ 100 = .ok (some t) ∧
      (t.streams 2).loadQ = [⟨0, 1⟩] ∧ t.qdepth 2 = 100 := by
  refine ⟨(home_outcome_iff homeStart_input).mpr (fun _ => ?_), ?_⟩
  · exact ⟨⟨0, 1⟩, by decide +kernel, by decide +kernel, by decide +kernel⟩
  · have hrun : (match abtstRebalanceStreams homeStart ⟨0, 2⟩ ⟨300, 1⟩ 100 with
        | .ok (some t) => decide ((t.streams 2).loadQ = [⟨0, 1⟩] ∧ t.qdepth 2 = 100)
        | _ => false) = true := by
      decide +kernel
    split at hrun
    · rename_i t ht
      exact ⟨t, ht, of_decide_eq_true hrun⟩
    · cases hrun

/-- A single load of two thousand million: the sum of the two depths overflows
in the test on the smallest load, and the target ends above the old maximum. -/
theorem large_load_overflows : HomeInput (twoLoads 1200000000 2000000000 2)
      ⟨1200000000, 1⟩ ⟨2000000000, 2⟩ ∧
    (∃ t, abtstRebalanceStreams (twoLoads 1200000000 2000000000 2) ⟨1200000000, 1⟩
      ⟨2000000000, 2⟩ 1600000000 = .ok (some t) ∧ t.qdepth 1 = 3200000000) ∧
    ¬ HomeOutcome (twoLoads 1200000000 2000000000 2) ⟨1200000000, 1⟩ ⟨2000000000, 2⟩ 1600000000 := by
  have hrun : (match abtstRebalanceStreams (twoLoads 1200000000 2000000000 2) ⟨1200000000, 1⟩
        ⟨2000000000, 2⟩ 1600000000 with
      | .ok (some t) => decide (t.qdepth 1 = 3200000000)
      | _ => false) = true := by decide +kernel
  refine ⟨twoLoads_home (by decide) (by decide), ?_⟩
  split at hrun
  · rename_i t ht
    simp only [decide_eq_true_eq] at hrun
    refine ⟨⟨t, ht, hrun⟩, ?_⟩
    rintro ⟨r, hr, hout⟩
    rw [ht, Except.ok.injEq] at hr
    obtain ⟨ms, _, _, hcase, _⟩ := hout t hr.symm
    rcases hcase with hfit | ⟨l, _, hsmall⟩
    · have htarget := hfit.target.2
      dsimp only at htarget
      omega
    · have htarget := hsmall.target
      dsimp only at htarget
      omega
  · cases hrun

end AbtSt
