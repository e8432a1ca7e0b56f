import AbtSt.Stream
import Mathlib.Algebra.BigOperators.Group.List.Basic

/-! What a successful migration does: a sublist of the source queue moves, and
the depth of the target grows by the sizes of the moved loads modulo `2^32`. -/

namespace AbtSt

theorem sublist_append_diff {ms ls : List LoadId} (h : ms.Sublist ls) : (ms ++ ls.diff ms).Perm ls :=
  List.subperm_append_diff_self_of_count_le (fun l _ => h.count_le l)

theorem diff_self (ls : List LoadId) : ls.diff ls = [] := by
  have h := (sublist_append_diff (List.Sublist.refl ls)).length_eq
  rw [List.length_append] at h
  exact List.eq_nil_of_length_eq_zero (by omega)

def Global.sizeOf (g : Global) (ls : List LoadId) : Int := (ls.map g.loadSize).sum

@[simp] theorem Global.sizeOf_nil (g : Global) : g.sizeOf [] = 0 := rfl

@[simp] theorem Global.sizeOf_cons (g : Global) (l : LoadId) (ls : List LoadId) :
    g.sizeOf (l :: ls) = g.loadSize l + g.sizeOf ls := rfl

@[simp] theorem Global.sizeOf_append (g : Global) (ls ms : List LoadId) :
    g.sizeOf (ls ++ ms) = g.sizeOf ls + g.sizeOf ms := by
  simp [Global.sizeOf]

/-- The running totals of a selection account for the loads chosen so far. -/
def Pick.Accounts (g : Global) (base : Int) (p : Pick) : Prop :=
  (p.ios - (base + g.sizeOf p.mloads)) % 2 ^ 32 = 0

theorem i32_sub_emod (x : Int) : (i32 x - x) % 2 ^ 32 = 0 := by
  have := i32_emod x
  omega

theorem Pick.Accounts.choose {g : Global} {base : Int} {p : Pick} (h : p.Accounts g base)
    (l : LoadId) : (p.choose l (g.loadSize l)).Accounts g base := by
  have hi := i32_sub_emod (p.ios + g.loadSize l)
  simp only [Pick.Accounts, Pick.choose, Global.sizeOf_append, Global.sizeOf_cons,
    Global.sizeOf_nil] at h ⊢
  omega

theorem scanForeign_mloads (g : Global) (ls : List LoadId) (p : Pick) :
    (scanForeign g ls p).mloads =
      p.mloads ++ ls.filter (fun l => (g.loads l).currRank ≠ (g.loads l).initRank) := by
  induction ls generalizing p with
  | nil => simp [scanForeign]
  | cons l ls ih =>
    by_cases h : (g.loads l).currRank = (g.loads l).initRank
    · simp [scanForeign, h, ih]
    · simp [scanForeign, h, ih, Pick.choose]

theorem scanForeign_accounts {g : Global} {base : Int} (ls : List LoadId) {p : Pick}
    (h : p.Accounts g base) : (scanForeign g ls p).Accounts g base := by
  induction ls generalizing p with
  | nil => exact h
  | cons l ls ih =>
    by_cases hf : (g.loads l).currRank = (g.loads l).initRank
    · simpa [scanForeign, hf] using ih h
    · simpa [scanForeign, hf] using ih (h.choose l)

theorem scanForeign_home {g : Global} {ls : List LoadId} (p : Pick)
    (h : ∀ l ∈ ls, (g.loads l).currRank = (g.loads l).initRank) : scanForeign g ls p = p := by
  induction ls with
  | nil => rfl
  | cons l ls ih =>
    rw [scanForeign, if_neg (not_not.mpr (h l (by simp)))]
    exact ih (fun m hm => h m (by simp [hm]))

def Pick.visit (g : Global) (avg : Nat) (p : Pick) (l : LoadId) : Pick :=
  let lsize := g.loadSize l
  let p := if p.minLsize = 0 ∨ lsize < p.minLsize
    then { p with minLsize := lsize, minLoad := some l } else p
  if avg ≤ u32 (i32 (p.fromIos - lsize)) ∧ u32 (i32 (p.ios + lsize)) ≤ avg
    then p.choose l lsize else p

theorem scanFitting_cons (g : Global) (avg toLoads : Nat) (l : LoadId) (ls : List LoadId) (p : Pick) :
    scanFitting g avg toLoads (l :: ls) p =
      if g.loadSize l = 0 then scanFitting g avg toLoads ls p
      else if loadsPerXstream / 16 ≤ (p.visit g avg l).mloads.length ∧ toLoads ≠ 0
        then p.visit g avg l
      else if u32 (p.visit g avg l).ios = avg then p.visit g avg l
      else scanFitting g avg toLoads ls (p.visit g avg l) := rfl

theorem scanFitting_induct (g : Global) (avg toLoads : Nat) {I : List LoadId → Pick → Prop}
    (hskip : ∀ l ls p, g.loadSize l = 0 → I (l :: ls) p → I ls p)
    (hvisit : ∀ l ls p, g.loadSize l ≠ 0 → I (l :: ls) p → I ls (p.visit g avg l))
    (hstop : ∀ ls p, I ls p → I [] p) (ls : List LoadId) (p : Pick) (h : I ls p) :
    I [] (scanFitting g avg toLoads ls p) := by
  induction ls generalizing p with
  | nil => exact h
  | cons l ls ih =>
    rw [scanFitting_cons]
    by_cases hz : g.loadSize l = 0
    · rw [if_pos hz]
      exact ih p (hskip l ls p hz h)
    · have hv := hvisit l ls p hz h
      rw [if_neg hz]
      by_cases hc : loadsPerXstream / 16 ≤ (p.visit g avg l).mloads.length ∧ toLoads ≠ 0
      · rw [if_pos hc]
        exact hstop ls _ hv
      · rw [if_neg hc]
        by_cases ha : u32 (p.visit g avg l).ios = avg
        · rw [if_pos ha]
          exact hstop ls _ hv
        · rw [if_neg ha]
          exact ih _ hv

theorem visit_cases (g : Global) (avg : Nat) (p : Pick) (l : LoadId) :
    ((p.visit g avg l).mloads = p.mloads ∧ (p.visit g avg l).ios = p.ios ∧
      (p.visit g avg l).fromIos = p.fromIos) ∨
    ((p.visit g avg l).mloads = p.mloads ++ [l] ∧
      (p.visit g avg l).ios = i32 (p.ios + g.loadSize l) ∧
      (p.visit g avg l).fromIos = i32 (p.fromIos - g.loadSize l) ∧
      avg ≤ u32 (i32 (p.fromIos - g.loadSize l)) ∧ u32 (i32 (p.ios + g.loadSize l)) ≤ avg) := by
  unfold Pick.visit
  dsimp only
  by_cases hm : p.minLsize = 0 ∨ g.loadSize l < p.minLsize <;>
    simp only [hm, if_true, if_false] <;> split_ifs with hfit
  · exact Or.inr ⟨rfl, rfl, rfl, hfit⟩
  · exact Or.inl ⟨rfl, rfl, rfl⟩
  · exact Or.inr ⟨rfl, rfl, rfl, hfit⟩
  · exact Or.inl ⟨rfl, rfl, rfl⟩

theorem Pick.visit_mloads (g : Global) (avg : Nat) (p : Pick) (l : LoadId) :
    (p.visit g avg l).mloads = p.mloads ∨ (p.visit g avg l).mloads = p.mloads ++ [l] := by
  rcases visit_cases g avg p l with h | h
  · exact Or.inl h.1
  · exact Or.inr h.1

theorem Pick.visit_accounts {g : Global} {avg : Nat} {base : Int} {p : Pick} (l : LoadId)
    (h : p.Accounts g base) : (p.visit g avg l).Accounts g base := by
  unfold Pick.visit
  dsimp only
  by_cases hm : p.minLsize = 0 ∨ g.loadSize l < p.minLsize
  · have h' : ({ p with minLsize := g.loadSize l, minLoad := some l } : Pick).Accounts g base := h
    simp only [hm, if_true]
    split_ifs
    · exact h'.choose l
    · exact h'
  · simp only [hm, if_false]
    split_ifs
    · exact h.choose l
    · exact h

theorem Pick.visit_min (g : Global) (avg : Nat) (p : Pick) (l : LoadId) :
    ((p.visit g avg l).minLoad = p.minLoad ∧ (p.visit g avg l).minLsize = p.minLsize) ∨
    ((p.visit g avg l).minLoad = some l ∧ (p.visit g avg l).minLsize = g.loadSize l) := by
  unfold Pick.visit
  dsimp only
  by_cases hm : p.minLsize = 0 ∨ g.loadSize l < p.minLsize <;>
    simp only [hm, if_true, if_false] <;> split_ifs <;> simp [Pick.choose]

theorem scanFitting_accounts {g : Global} {avg toLoads : Nat} {base : Int} (ls : List LoadId)
    {p : Pick} (h : p.Accounts g base) : (scanFitting g avg toLoads ls p).Accounts g base :=
  scanFitting_induct g avg toLoads (I := fun _ p => p.Accounts g base) (fun _ _ _ _ h => h)
    (fun l _ _ _ h => Pick.visit_accounts l h) (fun _ _ h => h) ls p h

theorem scanFitting_mloads (g : Global) (avg toLoads : Nat) (ls : List LoadId) (p : Pick) :
    (scanFitting g avg toLoads ls p).mloads.Sublist (p.mloads ++ ls) := by
  have h := scanFitting_induct g avg toLoads
    (I := fun rest q => (q.mloads ++ rest).Sublist (p.mloads ++ ls))
    (fun l rest q _ h => ((List.sublist_cons_self l rest).append_left q.mloads).trans h)
    (fun l rest q _ h => by
      rcases q.visit_mloads g avg l with hv | hv
      · rw [hv]
        exact ((List.sublist_cons_self l rest).append_left q.mloads).trans h
      · rw [hv, List.append_assoc]
        exact h)
    (fun rest q h => ((List.nil_sublist rest).append_left q.mloads).trans h)
    ls p (List.Sublist.refl _)
  simpa using h

theorem scanFitting_min {g : Global} {avg toLoads : Nat} {ls : List LoadId} {p : Pick}
    {l : LoadId} (hp : p.minLoad = none)
    (h : (scanFitting g avg toLoads ls p).minLoad = some l) :
    l ∈ ls ∧ (scanFitting g avg toLoads ls p).minLsize = g.loadSize l := by
  have hh := scanFitting_induct g avg toLoads
    (I := fun rest q => (∀ m ∈ rest, m ∈ ls) ∧
      ∀ m, q.minLoad = some m → m ∈ ls ∧ q.minLsize = g.loadSize m)
    (fun m rest q _ h => ⟨fun x hx => h.1 x (by simp [hx]), h.2⟩)
    (fun m rest q _ h => by
      refine ⟨fun x hx => h.1 x (by simp [hx]), ?_⟩
      intro x hx
      rcases q.visit_min g avg m with ⟨hv, hs⟩ | ⟨hv, hs⟩
      · rw [hs]
        exact h.2 x (by rw [← hv, hx])
      · rw [hv, Option.some.injEq] at hx
        exact ⟨h.1 x (by simp [hx]), by rw [hs, hx]⟩)
    (fun _ _ h => ⟨by simp, h.2⟩) ls p ⟨fun _ hm => hm, by simp [hp]⟩
  exact hh.2 l h

def Global.foreign (g : Global) (c : Nat) : List LoadId :=
  (g.streams c).loadQ.filter (fun l => (g.loads l).currRank ≠ (g.loads l).initRank)

def fitting (g : Global) (p1 p2 : SortParam) (avg : Nat) : Pick :=
  scanFitting g avg (g.streams p1.stream).nrLoads (g.streams p2.stream).loadQ (startPick p1 p2)

theorem pickLoads_foreign {g : Global} {p1 p2 : SortParam} (avg : Nat)
    (h : g.foreign p2.stream ≠ []) :
    pickLoads g p1 p2 avg = scanForeign g (g.streams p2.stream).loadQ (startPick p1 p2) := by
  have hm := scanForeign_mloads g (g.streams p2.stream).loadQ (startPick p1 p2)
  rw [startPick, List.nil_append] at hm
  rw [pickLoads, if_pos (by rw [startPick, hm]; exact h)]

theorem pickLoads_home {g : Global} {p1 p2 : SortParam} (avg : Nat)
    (h : g.foreign p2.stream = []) :
    pickLoads g p1 p2 avg =
      if (fitting g p1 p2 avg).mloads ≠ [] then fitting g p1 p2 avg
      else (fitting g p1 p2 avg).fallback p1 p2 := by
  have hs : scanForeign g (g.streams p2.stream).loadQ (startPick p1 p2) = startPick p1 p2 :=
    scanForeign_home _ (by simpa [Global.foreign] using h)
  simp only [pickLoads, fitting, hs]
  rfl

theorem fitting_sublist (g : Global) (p1 p2 : SortParam) (avg : Nat) :
    (fitting g p1 p2 avg).mloads.Sublist (g.streams p2.stream).loadQ :=
  scanFitting_mloads g avg _ _ (startPick p1 p2)

theorem fitting_accounts (g : Global) (p1 p2 : SortParam) (avg : Nat) :
    (fitting g p1 p2 avg).Accounts g p1.ios :=
  scanFitting_accounts _ (by simp [Pick.Accounts, startPick])

theorem Pick.fallback_cases (p1 p2 : SortParam) (p : Pick) :
    (∃ l, p.minLoad = some l ∧ p.minLsize ≠ 0 ∧
      2 * i32 (p1.ios + p.minLsize) < 3 * i32 (p2.ios - p.minLsize) ∧
      p.fallback p1 p2 = { p with ios := i32 (p.ios + p.minLsize), mloads := p.mloads ++ [l] }) ∨
    p.fallback p1 p2 = p := by
  unfold Pick.fallback
  cases hm : p.minLoad with
  | none => exact Or.inr rfl
  | some l =>
    by_cases h : p.minLsize ≠ 0 ∧ 2 * i32 (p1.ios + p.minLsize) < 3 * i32 (p2.ios - p.minLsize)
    · exact Or.inl ⟨l, rfl, h.1, h.2, by simp only [if_pos h]⟩
    · exact Or.inr (by simp only [if_neg h])

/-- The three ways to a non-empty selection: all foreign loads, the loads that
fit, or the smallest load alone. -/
theorem pickLoads_cases (g : Global) (p1 p2 : SortParam) (avg : Nat)
    (h : (pickLoads g p1 p2 avg).mloads ≠ []) :
    (g.foreign p2.stream ≠ [] ∧ (pickLoads g p1 p2 avg).mloads = g.foreign p2.stream) ∨
    (g.foreign p2.stream = [] ∧ pickLoads g p1 p2 avg = fitting g p1 p2 avg) ∨
    (g.foreign p2.stream = [] ∧ (fitting g p1 p2 avg).mloads = [] ∧
      ∃ l ∈ (g.streams p2.stream).loadQ, g.loadSize l ≠ 0 ∧
        2 * i32 (p1.ios + g.loadSize l) < 3 * i32 (p2.ios - g.loadSize l) ∧
        (pickLoads g p1 p2 avg).mloads = [l] ∧
        (pickLoads g p1 p2 avg).ios = i32 ((fitting g p1 p2 avg).ios + g.loadSize l)) := by
  by_cases hf : g.foreign p2.stream = []
  · rw [pickLoads_home avg hf] at h ⊢
    by_cases hm : (fitting g p1 p2 avg).mloads = []
    · rw [if_neg (not_not.mpr hm)] at h ⊢
      rcases (fitting g p1 p2 avg).fallback_cases p1 p2 with ⟨l, hl, hz, hlt, he⟩ | he
      · obtain ⟨hmem, hsize⟩ := scanFitting_min (p := startPick p1 p2) rfl hl
        change (fitting g p1 p2 avg).minLsize = _ at hsize
        rw [hsize] at hz hlt
        refine Or.inr (Or.inr ⟨hf, hm, l, hmem, hz, hlt, ?_, ?_⟩)
        · rw [he, hm, List.nil_append]
        · rw [he, hsize]
      · rw [he] at h
        exact absurd hm h
    · rw [if_pos hm]
      exact Or.inr (Or.inl ⟨hf, rfl⟩)
  · refine Or.inl ⟨hf, ?_⟩
    rw [pickLoads_foreign avg hf, scanForeign_mloads]
    rfl

theorem pickLoads_sublist (g : Global) (p1 p2 : SortParam) (avg : Nat) :
    (pickLoads g p1 p2 avg).mloads.Sublist (g.streams p2.stream).loadQ := by
  by_cases h : (pickLoads g p1 p2 avg).mloads = []
  · rw [h]
    exact List.nil_sublist _
  · rcases pickLoads_cases g p1 p2 avg h with ⟨_, he⟩ | ⟨_, he⟩ | ⟨_, _, l, hl, _, _, he, _⟩
    · rw [he]
      exact List.filter_sublist
    · rw [he]
      exact fitting_sublist g p1 p2 avg
    · rw [he]
      exact List.singleton_sublist.mpr hl

theorem pickLoads_accounts {g : Global} {p1 p2 : SortParam} {avg : Nat}
    (h : (pickLoads g p1 p2 avg).mloads ≠ []) :
    (pickLoads g p1 p2 avg).Accounts g p1.ios := by
  rcases pickLoads_cases g p1 p2 avg h with ⟨hf, _⟩ | ⟨_, he⟩ | ⟨_, hm, l, _, _, _, he, hi⟩
  · rw [pickLoads_foreign avg hf]
    exact scanForeign_accounts _ (by simp [Pick.Accounts, startPick])
  · rw [he]
    exact fitting_accounts g p1 p2 avg
  · have ha := fitting_accounts g p1 p2 avg
    have hm32 := i32_sub_emod ((fitting g p1 p2 avg).ios + g.loadSize l)
    simp only [Pick.Accounts, hm, he, hi, Global.sizeOf_cons, Global.sizeOf_nil] at ha ⊢
    omega

theorem updateQdepth_comm (g : Global) {c d : Nat} (h : c ≠ d) (x y : Nat) :
    abtstStreamUpdateQdepth (abtstStreamUpdateQdepth g c x) d y =
      abtstStreamUpdateQdepth (abtstStreamUpdateQdepth g d y) c x := by
  simp only [abtstStreamUpdateQdepth, Global.setStream, Function.update_of_ne h,
    Function.update_of_ne h.symm]
  rw [Function.update_comm h]

theorem moved_updateQdepth (g : Global) {src dst : Nat} (h : src ≠ dst) (ms : List LoadId)
    (a b x y : Nat) :
    abtstStreamUpdateQdepth (abtstStreamUpdateQdepth (g.moved src dst ms a b) src x) dst y =
      g.moved src dst ms x y := by
  have hd : dst ≠ src := fun he => h he.symm
  simp only [abtstStreamUpdateQdepth, Global.setStream, Global.moved, Global.mk.injEq, and_true]
  funext c
  by_cases hc : c = dst
  · subst hc; simp [hd]
  · by_cases hs : c = src
    · subst hs; simp [h]
    · simp [hc, hs]

theorem moved_qdepth (g : Global) {src dst : Nat} (h : src ≠ dst) (ms : List LoadId) (a b : Nat) :
    (g.moved src dst ms a b).qdepth src = a ∧ (g.moved src dst ms a b).qdepth dst = b := by
  simp [Global.moved, Global.qdepth, h]

theorem abtstCombineStreams_ok {g g' : Global} {src dst : Nat} (h : src ≠ dst)
    (he : abtstCombineStreams g src dst = .ok g') :
    ((g.streams src).nrLoads = 0 ∧ g' = g) ∨
    ((g.streams src).nrLoads ≠ 0 ∧ (g.streams src).loadQ.length ≤ (g.streams src).nrLoads ∧
      g' = g.moved src dst (g.streams src).loadQ 0 (u32 (g.qdepth src + g.qdepth dst))) := by
  unfold abtstCombineStreams at he
  by_cases hz : (g.streams src).nrLoads = 0
  · rw [if_pos hz, Except.ok.injEq] at he
    exact Or.inl ⟨hz, he.symm⟩
  · rw [if_neg hz] at he
    dsimp only at he
    by_cases hl : (g.streams src).nrLoads < (g.streams src).loadQ.length
    · rw [if_pos hl] at he
      cases he
    · rw [if_neg hl, foldl_migrateLoad g h, (moved_qdepth g h _ _ _).1, (moved_qdepth g h _ _ _).2,
        updateQdepth_comm _ h.symm, moved_updateQdepth g h, Except.ok.injEq] at he
      exact Or.inr ⟨hz, by omega, he.symm⟩

def Overfull (g : Global) : Prop := ∃ c, (g.streams c).nrLoads < (g.streams c).loadQ.length

theorem abtstCombineStreams_error {g : Global} {src dst : Nat} {e : Fault}
    (h : abtstCombineStreams g src dst = .error e) : e = .overrun ∧ Overfull g := by
  unfold abtstCombineStreams at h
  dsimp only at h
  split_ifs at h with hz hl
  exact ⟨(Except.error.inj h).symm, src, hl⟩

/-- Nothing can go wrong where the counter agrees with the queue. -/
theorem abtstCombineStreams_counted {g : Global} {src : Nat} (dst : Nat)
    (hcount : (g.streams src).nrLoads = (g.streams src).loadQ.length) :
    ∃ s, abtstCombineStreams g src dst = .ok s := by
  cases he : abtstCombineStreams g src dst with
  | ok s => exact ⟨s, rfl⟩
  | error e =>
    unfold abtstCombineStreams at he
    dsimp only at he
    split_ifs at he with hz hl
    omega

theorem abtstRebalanceStreams_error {g : Global} {p1 p2 : SortParam} {avg : Nat} {e : Fault}
    (h : abtstRebalanceStreams g p1 p2 avg = .error e) : e = .overrun ∧ Overfull g := by
  unfold abtstRebalanceStreams at h
  dsimp only at h
  split_ifs at h with ha hr hl
  have hsub := (pickLoads_sublist g p1 p2 avg).length_le
  exact ⟨(Except.error.inj h).symm, p2.stream, by omega⟩

theorem abtstRebalanceStreams_some {g g' : Global} {p1 p2 : SortParam} {avg : Nat}
    (h : p2.stream ≠ p1.stream) (he : abtstRebalanceStreams g p1 p2 avg = .ok (some g')) :
    u32 p1.ios < avg ∧ avg < u32 p2.ios ∧ 3 * p1.ios ≤ 2 * p2.ios ∧
    (pickLoads g p1 p2 avg).mloads ≠ [] ∧
    (pickLoads g p1 p2 avg).mloads.length ≤ (g.streams p2.stream).nrLoads ∧
    g' = g.moved p2.stream p1.stream (pickLoads g p1 p2 avg).mloads
      (u32 (i32 (p2.ios - i32 ((pickLoads g p1 p2 avg).ios - p1.ios))))
      (u32 (pickLoads g p1 p2 avg).ios) := by
  unfold abtstRebalanceStreams at he
  by_cases ha : avg ≤ u32 p1.ios ∨ u32 p2.ios ≤ avg
  · simp [ha] at he
  · rw [if_neg ha] at he
    by_cases hr : 2 * p2.ios < 3 * p1.ios
    · simp [hr] at he
    · rw [if_neg hr] at he
      dsimp only at he
      by_cases hl : (g.streams p2.stream).nrLoads < (pickLoads g p1 p2 avg).mloads.length
      · simp [hl] at he
      · rw [if_neg hl] at he
        by_cases hm : (pickLoads g p1 p2 avg).mloads = []
        · simp [hm] at he
        · rw [if_neg hm, foldl_migrateLoad g h, moved_updateQdepth g h, Except.ok.injEq,
            Option.some.injEq] at he
          exact ⟨by omega, by omega, by omega, hm, by omega, he.symm⟩

end AbtSt
