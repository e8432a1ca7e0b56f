import AbtSt.Runs
import Mathlib.Algebra.Order.Floor.Div
import Mathlib.Data.Int.CardIntervalMod

/-! Placement of the loads of a mapping. The circular search for the next
stream of the partition visits these streams in turn, so that the loads are
dealt out one by one. -/

namespace AbtSt

def Config.allCores (cfg : Config) : List Nat := List.range cfg.nrCores

theorem Config.allCores_split (cfg : Config) {s : Nat} (h : s ≤ cfg.nrCores) :
    cfg.allCores = List.range s ++ List.range' s (cfg.nrCores - s) := by
  rw [Config.allCores, List.range_eq_range', List.range_eq_range']
  have hsum : s + (cfg.nrCores - s) = cfg.nrCores := by omega
  rw [← hsum, ← List.range'_append_1]
  simp

theorem Global.group_append (g : Global) (cs ds : List Nat) (p : Nat) :
    g.group (cs ++ ds) p = g.group cs p ++ g.group ds p := List.filter_append _ _

theorem findNextStream_eq (cfg : Config) (g : Global) (p start : Nat) :
    findNextStream cfg g p start =
      (g.group (List.range' (start % cfg.nrCores) (cfg.nrCores - start % cfg.nrCores)) p ++
        g.group (List.range (start % cfg.nrCores)) p).head? := by
  rw [findNextStream, ← Global.group_append, Global.group, List.head?_filter]

theorem findNextStream_none {cfg : Config} (g : Global) (p : Nat) {start : Nat}
    (h : start % cfg.nrCores ≤ cfg.nrCores) :
    findNextStream cfg g p start = none ↔ g.group cfg.allCores p = [] := by
  rw [findNextStream_eq, cfg.allCores_split h, Global.group_append]
  simp [and_comm]

theorem findNextStream_zero (cfg : Config) (g : Global) (p : Nat) :
    findNextStream cfg g p 0 = (g.group cfg.allCores p)[0]? := by
  rw [findNextStream_eq, Nat.zero_mod, Nat.sub_zero, ← List.range_eq_range', List.range_zero]
  simp [Global.group, Config.allCores, List.head?_eq_getElem?]

/-- From the stream after a member the search finds the next member, with a
wrap at the last one. -/
theorem findNextStream_succ {cfg : Config} {g : Global} {p j c : Nat}
    (h : (g.group cfg.allCores p)[j]? = some c) :
    findNextStream cfg g p (c + 1) =
      (g.group cfg.allCores p)[(j + 1) % (g.group cfg.allCores p).length]? := by
  have hmem := Global.mem_group.mp (List.mem_of_getElem? h)
  have hlt : c < cfg.nrCores := List.mem_range.mp hmem.1
  have hin : g.inPart p c = true := by simpa [Global.inPart] using hmem.2
  have hnodup : (g.group cfg.allCores p).Nodup := List.nodup_range.filter _
  have hsplit := cfg.allCores_split (Nat.succ_le_of_lt hlt)
  -- the members up to `c` end with `c`, which is the one at position `j`
  have hlow : g.group (List.range (c + 1)) p = g.group (List.range c) p ++ [c] := by
    rw [List.range_succ, Global.group_append]
    simp [Global.group, hin]
  have hL : g.group cfg.allCores p = g.group (List.range c) p ++
      c :: g.group (List.range' (c + 1) (cfg.nrCores - (c + 1))) p := by
    rw [hsplit, Global.group_append, hlow]
    simp
  have hj : j = (g.group (List.range c) p).length := by
    have hc : (g.group cfg.allCores p)[(g.group (List.range c) p).length]? = some c := by
      rw [hL]
      simp
    obtain ⟨hjl, _⟩ := List.getElem?_eq_some_iff.mp h
    exact (List.getElem?_inj hjl hnodup).mp (h.trans hc.symm)
  by_cases hend : c + 1 = cfg.nrCores
  · have hhigh : g.group (List.range' (c + 1) (cfg.nrCores - (c + 1))) p = [] := by
      simp [hend, Global.group]
    have hlen : (g.group cfg.allCores p).length = j + 1 := by
      rw [hL, hhigh, hj]
      simp
    have hstart : findNextStream cfg g p (c + 1) = findNextStream cfg g p 0 := by
      rw [findNextStream_eq, findNextStream_eq, hend, Nat.mod_self, Nat.zero_mod]
    rw [hstart, findNextStream_zero, hlen, Nat.mod_self]
  · rw [findNextStream_eq, Nat.mod_eq_of_lt (by omega : c + 1 < cfg.nrCores), hlow, hL, hj]
    cases g.group (List.range' (c + 1) (cfg.nrCores - (c + 1))) p with
    | nil => simp [List.head?_eq_getElem?]
    | cons d ds =>
      rw [Nat.mod_eq_of_lt (by simp), List.getElem?_append_right (by omega)]
      simp

def SameParts (g g' : Global) : Prop :=
  ∀ c, (g'.streams c).rank = (g.streams c).rank ∧ (g'.streams c).used = (g.streams c).used ∧
    (g'.streams c).partId = (g.streams c).partId

theorem SameParts.inPart {g g' : Global} (h : SameParts g g') (p : Nat) : g'.inPart p = g.inPart p := by
  funext c
  simp [Global.inPart, h c]

/-- The first `n` loads of a mapping, dealt to the streams `cs` in turn. -/
def dealLoads (g : Global) (m : Nat) (cs : List Nat) : Nat → Global
  | 0 => g
  | n + 1 => placeLoad (dealLoads g m cs n) (cs[n % cs.length]?.getD 0) ⟨m, n⟩

theorem dealLoads_parts (g : Global) (m : Nat) (cs : List Nat) (n : Nat) :
    SameParts g (dealLoads g m cs n) := by
  induction n with
  | zero => exact fun _ => ⟨rfl, rfl, rfl⟩
  | succ n ih =>
    intro c
    have hs := placeLoad_shape (dealLoads g m cs n) (cs[n % cs.length]?.getD 0) ⟨m, n⟩ c
    exact ⟨hs.1.trans (ih c).1, hs.2.1.trans (ih c).2.1, hs.2.2.trans (ih c).2.2⟩

/-- The turns below `n` that fall to position `j` of `k`. -/
def turns (k n j : Nat) : List Nat := (List.range n).filter (· % k == j)

theorem turns_succ (k n j : Nat) :
    turns k (n + 1) j = if n % k = j then turns k n j ++ [n] else turns k n j := by
  rw [turns, List.range_succ, List.filter_append]
  by_cases h : n % k = j <;> simp [h, turns]

theorem ceilDiv_eq_div_add (n : Nat) {k : Nat} (hk : 0 < k) :
    n ⌈/⌉ k = n / k + if n % k = 0 then 0 else 1 := by
  have hdm := Nat.div_add_mod' n k
  have hlt := Nat.mod_lt n hk
  rw [Nat.ceilDiv_eq_add_pred_div]
  by_cases h : n % k = 0
  · rw [if_pos h, Nat.add_zero]
    apply Nat.div_eq_of_lt_le
    · omega
    · rw [Nat.add_mul]
      omega
  · rw [if_neg h]
    apply Nat.div_eq_of_lt_le
    · rw [Nat.add_mul]
      omega
    · rw [Nat.add_mul, Nat.add_mul]
      omega

theorem turns_length {k j : Nat} (h : j < k) (n : Nat) :
    (turns k n j).length = n / k + if j < n % k then 1 else 0 := by
  have hcount : (turns k n j).length = n.count (· ≡ j [MOD k]) := by
    induction n with
    | zero => rfl
    | succ n ih =>
      have hmod : n ≡ j [MOD k] ↔ n % k = j := by rw [Nat.ModEq, Nat.mod_eq_of_lt h]
      rw [turns_succ, Nat.count_succ, ← ih]
      by_cases hj : n % k = j <;> simp [hj, hmod]
  have hcard := Nat.count_modEq_card n (Nat.zero_lt_of_lt h) j
  rw [hcount, hcard, Nat.mod_eq_of_lt h]

theorem turns_length_bounds {k j : Nat} (h : j < k) (n : Nat) :
    (turns k n j).length = n / k ∨ (turns k n j).length = n ⌈/⌉ k := by
  rw [turns_length h, ceilDiv_eq_div_add n (Nat.zero_lt_of_lt h)]
  by_cases hj : j < n % k
  · rw [if_pos hj, if_neg (by omega : ¬ n % k = 0)]
    exact Or.inr rfl
  · rw [if_neg hj]
    exact Or.inl rfl

theorem dealLoads_stream {cs : List Nat} (hnd : cs.Nodup) {j c : Nat} (hj : cs[j]? = some c)
    (g : Global) (m n : Nat) :
    (dealLoads g m cs n).streams c = { g.streams c with
      pool := (g.streams c).pool ++ (turns cs.length n j).map (fun i => .sched ⟨m, i⟩)
      loadQ := (turns cs.length n j).reverse.map (fun i => ⟨m, i⟩) ++ (g.streams c).loadQ
      nrLoads := (g.streams c).nrLoads + (turns cs.length n j).length } := by
  obtain ⟨hlt, -⟩ := List.getElem?_eq_some_iff.mp hj
  induction n with
  | zero => simp [dealLoads, turns]
  | succ n ih =>
    have hmod : n % cs.length < cs.length := Nat.mod_lt n (Nat.zero_lt_of_lt hlt)
    rw [dealLoads, turns_succ]
    by_cases h : n % cs.length = j
    · rw [if_pos h, h, hj, Option.getD_some, placeLoad_same, ih]
      simp [Nat.add_assoc]
    · have hother : cs[n % cs.length]?.getD 0 ≠ c := by
        intro he
        apply h
        apply (List.getElem?_inj hmod hnd).mp
        rw [hj, ← he, List.getElem?_eq_getElem hmod, Option.getD_some]
      rw [if_neg h, placeLoad_other _ (Ne.symm hother), ih]

theorem dealLoads_other {cs : List Nat} (hne : cs ≠ []) {c : Nat} (hc : c ∉ cs) (g : Global)
    (m n : Nat) : (dealLoads g m cs n).streams c = g.streams c := by
  induction n with
  | zero => rfl
  | succ n ih =>
    have hmod : n % cs.length < cs.length := Nat.mod_lt n (List.length_pos_iff.mpr hne)
    have hother : c ≠ cs[n % cs.length]?.getD 0 := by
      rintro rfl
      apply hc
      rw [List.getElem?_eq_getElem hmod, Option.getD_some]
      exact List.getElem_mem hmod
    rw [dealLoads, placeLoad_other _ hother, ih]

theorem dealLoads_loads (g : Global) (m : Nat) (cs : List Nat) {n i c : Nat} (hi : i < n)
    (hc : cs[i % cs.length]? = some c) :
    (dealLoads g m cs n).loads ⟨m, i⟩ =
      { loadId := i, initRank := (g.streams c).rank, currRank := (g.streams c).rank,
        destRank := (g.streams c).rank } := by
  induction n with
  | zero => omega
  | succ n ih =>
    rw [dealLoads, placeLoad_loads]
    by_cases h : i = n
    · subst h
      rw [hc, Option.getD_some, Function.update_self, (dealLoads_parts g m cs i c).1]
    · have hne : (⟨m, i⟩ : LoadId) ≠ ⟨m, n⟩ := fun he => h (LoadId.mk.inj he).2
      rw [Function.update_of_ne hne]
      exact ih (by omega)

/-- The zeroed table of loads that `abtst_init_loads` starts with. -/
def callocLoads (g : Global) (m : Nat) : Global :=
  { g with loads := fun l => if l.mapping = m then {} else g.loads l }

theorem abtstInitLoads_eq (cfg : Config) (abt : Nat → AbtCall → Bool) (m : Nat) (g : Global) :
    abtstInitLoads cfg abt m g = initLoadsLoop cfg abt m (g.mappings m).partitionId
      (g.mappings m).nrLoads 0 0 (callocLoads g m) := rfl

section Deal

variable {cfg : Config} {g : Global} (hrank : ∀ c < cfg.nrCores, (g.streams c).rank = c)
include hrank

theorem initLoadsLoop_deal {abt : Nat → AbtCall → Bool} {p : Nat} (m n i start : Nat)
    (hne : g.group cfg.allCores p ≠ []) (habt : ∀ j < n, ∀ call, abt (i + j) call = true)
    (hstart : findNextStream cfg g p start =
      (g.group cfg.allCores p)[i % (g.group cfg.allCores p).length]?) :
    initLoadsLoop cfg abt m p n i start (dealLoads g m (g.group cfg.allCores p) i) =
      (true, dealLoads g m (g.group cfg.allCores p) (i + n)) := by
  induction n generalizing i start with
  | zero => rfl
  | succ n ih =>
    have hlen : 0 < (g.group cfg.allCores p).length := List.length_pos_iff.mpr hne
    have hparts := dealLoads_parts g m (g.group cfg.allCores p) i
    obtain ⟨c, hc⟩ : ∃ c, (g.group cfg.allCores p)[i % (g.group cfg.allCores p).length]? = some c :=
      ⟨_, List.getElem?_eq_getElem (Nat.mod_lt i hlen)⟩
    have hcore : c < cfg.nrCores :=
      List.mem_range.mp (Global.mem_group.mp (List.mem_of_getElem? hc)).1
    have hfind : findNextStream cfg (dealLoads g m (g.group cfg.allCores p) i) p start = some c := by
      rw [findNextStream, hparts.inPart, ← findNextStream, hstart, hc]
    have hr : ((dealLoads g m (g.group cfg.allCores p) i).streams c).rank = c :=
      (hparts c).1.trans (hrank c hcore)
    have hcalls : ∀ call, abt i call = true := fun call => habt 0 (Nat.succ_pos n) call
    have hnext : findNextStream cfg g p (c + 1) =
        (g.group cfg.allCores p)[(i + 1) % (g.group cfg.allCores p).length]? := by
      rw [findNextStream_succ hc, Nat.mod_add_mod]
    have hrest := ih (i + 1) (c + 1)
      (fun j hj call => by rw [Nat.add_assoc, Nat.add_comm 1 j]; exact habt (j + 1) (by omega) call)
      hnext
    rw [dealLoads, hc, Option.getD_some, placeLoad, hr] at hrest
    rw [initLoadsLoop, hfind]
    simp only [hcalls, hr, Bool.true_eq_false, if_false]
    rw [hrest, show i + 1 + n = i + (n + 1) by omega]

theorem abtstInitLoads_deal {abt : Nat → AbtCall → Bool} {m : Nat}
    (hne : g.group cfg.allCores (g.mappings m).partitionId ≠ [])
    (habt : ∀ i < (g.mappings m).nrLoads, ∀ call, abt i call = true) :
    abtstInitLoads cfg abt m g = (true, dealLoads (callocLoads g m) m
      (g.group cfg.allCores (g.mappings m).partitionId) (g.mappings m).nrLoads) := by
  have hrank' : ∀ c < cfg.nrCores, ((callocLoads g m).streams c).rank = c := hrank
  have hstart := findNextStream_zero cfg (callocLoads g m) (g.mappings m).partitionId
  have hrun := initLoadsLoop_deal hrank' m (g.mappings m).nrLoads 0 0 hne
    (fun j hj => by rw [Nat.zero_add]; exact habt j hj) (by rw [Nat.zero_mod]; exact hstart)
  rw [Nat.zero_add] at hrun
  exact hrun

end Deal

/-- The outcome of the placement of `n` loads of mapping `m` on the streams `cs`,
which are listed in ascending order. -/
structure RoundRobin (g g' : Global) (m n : Nat) (cs : List Nat) : Prop where
  placed : ∀ i < n, ∃ c, cs[i % cs.length]? = some c ∧ ⟨m, i⟩ ∈ (g'.streams c).loadQ ∧
    (g'.loads ⟨m, i⟩).initRank = c ∧ (g'.loads ⟨m, i⟩).currRank = c ∧
    (g'.loads ⟨m, i⟩).destRank = c
  gain : ∀ j c, cs[j]? = some c → ∃ new : List LoadId,
    (g'.streams c).loadQ = new ++ (g.streams c).loadQ ∧
    (g'.streams c).nrLoads = (g.streams c).nrLoads + new.length ∧
    (new.length = n / cs.length ∨ new.length = n ⌈/⌉ cs.length) ∧
    ∀ l, l ∈ new ↔ l.mapping = m ∧ l.index < n ∧ l.index % cs.length = j
  other : ∀ c, c ∉ cs → g'.streams c = g.streams c

theorem mem_turns {k n j i : Nat} : i ∈ turns k n j ↔ i < n ∧ i % k = j := by
  simp [turns]

theorem dealLoads_roundRobin {g : Global} {cs : List Nat} (hnd : cs.Nodup) (hne : cs ≠ [])
    (hrank : ∀ c ∈ cs, (g.streams c).rank = c) (m n : Nat) :
    RoundRobin g (dealLoads g m cs n) m n cs := by
  have hlen : 0 < cs.length := List.length_pos_iff.mpr hne
  refine ⟨?_, ?_, fun c hc => dealLoads_other hne hc g m n⟩
  · intro i hi
    have hc := List.getElem?_eq_getElem (Nat.mod_lt i hlen)
    refine ⟨_, hc, ?_, ?_⟩
    · rw [dealLoads_stream hnd hc]
      simp [mem_turns, hi]
    · rw [dealLoads_loads g m cs hi hc, hrank _ (List.mem_of_getElem? hc)]
      exact ⟨rfl, rfl, rfl⟩
  · intro j c hj
    obtain ⟨hlt, -⟩ := List.getElem?_eq_some_iff.mp hj
    refine ⟨(turns cs.length n j).reverse.map (fun i => ⟨m, i⟩), ?_, ?_, ?_, ?_⟩
    · rw [dealLoads_stream hnd hj]
    · rw [dealLoads_stream hnd hj, List.length_map, List.length_reverse]
    · rw [List.length_map, List.length_reverse]
      exact turns_length_bounds hlt n
    · rintro ⟨lm, li⟩
      simp only [List.mem_map, List.mem_reverse, mem_turns, LoadId.mk.injEq]
      constructor
      · rintro ⟨i, hi, rfl, rfl⟩
        exact ⟨rfl, hi⟩
      · rintro ⟨rfl, hi⟩
        exact ⟨li, hi, rfl, rfl⟩

theorem abtstInitLoads_roundRobin {cfg : Config} {abt : Nat → AbtCall → Bool} {g : Global} {m : Nat}
    (hrank : ∀ c < cfg.nrCores, (g.streams c).rank = c)
    (habt : ∀ i < (g.mappings m).nrLoads, ∀ call, abt i call = true) :
    (g.group cfg.allCores (g.mappings m).partitionId ≠ [] →
      (abtstInitLoads cfg abt m g).1 = true ∧
      RoundRobin g (abtstInitLoads cfg abt m g).2 m (g.mappings m).nrLoads
        (g.group cfg.allCores (g.mappings m).partitionId)) ∧
    (g.group cfg.allCores (g.mappings m).partitionId = [] → 0 < (g.mappings m).nrLoads →
      (abtstInitLoads cfg abt m g).1 = false ∧
      (abtstInitLoads cfg abt m g).2.streams = g.streams) := by
  constructor
  · intro hne
    have hmember : ∀ c ∈ g.group cfg.allCores (g.mappings m).partitionId,
        ((callocLoads g m).streams c).rank = c :=
      fun c hc => hrank c (List.mem_range.mp (Global.mem_group.mp hc).1)
    have hdeal := dealLoads_roundRobin (List.nodup_range.filter _) hne hmember m (g.mappings m).nrLoads
    rw [abtstInitLoads_deal hrank hne habt]
    exact ⟨rfl, hdeal.placed, hdeal.gain, hdeal.other⟩
  · intro hnil hpos
    have hnone : findNextStream cfg (callocLoads g m) (g.mappings m).partitionId 0 = none :=
      (findNextStream_none _ _ (by simp)).mpr hnil
    obtain ⟨n, hn⟩ : ∃ n, (g.mappings m).nrLoads = n + 1 := ⟨_, (Nat.succ_pred_eq_of_pos hpos).symm⟩
    rw [abtstInitLoads_eq, hn, initLoadsLoop, hnone]
    exact ⟨rfl, rfl⟩

/-- The streams of the small layout, with a mapping of five loads to be placed. -/
def fiveLoads : Global :=
  { blank with
    streams := fun c => if c < 4 then initXstream (applyStreamConfig smallConfig c {}) c else {}
    mappings := fun _ => ⟨0, 0, 5⟩ }

theorem fiveLoads_roundRobin :
    (abtstInitLoads smallConfig (fun _ _ => true) 0 fiveLoads).1 = true ∧
    RoundRobin fiveLoads (abtstInitLoads smallConfig (fun _ _ => true) 0 fiveLoads).2 0 5 [1, 2, 3] :=
  (abtstInitLoads_roundRobin (by decide) (fun _ _ _ => rfl)).1 (by decide)

end AbtSt
