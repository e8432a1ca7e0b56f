import AbtSt.Locality

/-! Adding and removing cores. A removal moves the loads of the core to another
stream of its node, and then takes the stream that its loop looked at last out
of use, which is the last core of the node and not always the one removed. -/

namespace AbtSt

/-- A stream other than the main one gets a new pool. -/
def abtstRebProcessAddCore (cfg : Config) (core : Int) (g : Global) : Except Fault Global :=
  if core < 0 ∨ cfg.nrCores ≤ core then .error .badIndex
  else
    let c := core.toNat
    let s := g.streams c
    if s.used = true then .ok g
    else if s.rank ≠ c then .error .assertion
    else
      let s := initXstream { s with used := true } c
      .ok (g.setStream c { s with pool := if c = 0 then s.pool else [] })

/-- The used streams of a node except `src`. -/
def otherStreams (cfg : Config) (g : Global) (n : Nat) (src : Option Nat) : List Nat :=
  (cfg.coresOf n).filter fun i => (g.streams i).used && decide (some i ≠ src)

def setUnused (c : Nat) (g : Global) : Global :=
  g.setStream c { g.streams c with used := false }

/-- The first bound is on the core as an unsigned number, so that only the first
of the two choices of streams is ever made. The node of a core outside all nodes
is read through a null pointer. The variable that is taken out of use at the end
is left over from the loop over the node. -/
def abtstRebProcessRemoveCore (pf : Platform) (cfg : Config) (core : Int) (g : Global) :
    Except Fault Global :=
  let numaId := cfg.numaOf (u32 core)
  if cfg.nrCores ≤ u32 core then .ok g
  else
    let src := if 0 ≤ core then some core.toNat else none
    if src.any (fun c => !(g.streams c).used) then .ok g
    else
      match numaId with
      | none => .error .badIndex
      | some n =>
        match otherStreams cfg g n src with
        | [] => .ok g
        | c :: cs => do
          let params := pf.qsort ((c :: cs).map fun i => ⟨i32 (g.qdepth i), i⟩)
          let ends ← match src with
            | some c => do
              let e0 ← entry params 0
              pure (c, e0.stream)
            | none => do
              let e0 ← entry params 0
              let e1 ← entry params 1
              pure (e0.stream, e1.stream)
          let g ← abtstCombineStreams g ends.1 ends.2
          pure (setUnused (cfg.numaInfo n).endCore g)

/-- The removal gets as far as moving loads: the core is in use and another core
of its node is too. -/
def Combines (cfg : Config) (g : Global) (n c : Nat) : Prop :=
  (g.streams c).used = true ∧ n < cfg.nrNumas ∧ c ∈ cfg.coresOf n ∧
    ∃ d ∈ cfg.coresOf n, (g.streams d).used = true ∧ d ≠ c

/-- Removing a used core is safe if it is the last core of its node, or the only
used one there. -/
def Removable (cfg : Config) (g : Global) (c : Nat) : Prop :=
  (g.streams c).used = true → ∃ n < cfg.nrNumas, c ∈ cfg.coresOf n ∧
    (Combines cfg g n c → c = (cfg.numaInfo n).endCore)

theorem Linked.setStream {cfg : Config} {g : Global} {S : LoadId → Prop} {c : Nat} {x : Stream}
    (h : Linked cfg g S) (hc : c < cfg.nrCores) (hnil : (g.streams c).loadQ = [])
    (hx : x.loadQ = []) (hn : x.nrLoads = 0) (hr : x.rank = c) : Linked cfg (g.setStream c x) S := by
  have hsame : (g.setStream c x).streams c = x := by simp [Global.setStream]
  have hother : ∀ d, d ≠ c → (g.setStream c x).streams d = g.streams d := fun d hd => by
    simp [Global.setStream, hd]
  have hq : ∀ d, ((g.setStream c x).streams d).loadQ = (g.streams d).loadQ := by
    intro d
    by_cases hd : d = c
    · rw [hd, hsame, hx, hnil]
    · rw [hother d hd]
  have hrank : ∀ d, ((g.setStream c x).streams d).rank = (g.streams d).rank := by
    intro d
    by_cases hd : d = c
    · rw [hd, hsame, hr, h.rank c hc]
    · rw [hother d hd]
  refine ⟨?_, ?_, ?_, ?_, ?_, ?_, ?_, ?_⟩
  · intro d hd
    rw [hrank, h.rank d hd]
  · intro d hu
    by_cases hd : d = c
    · rw [hd]
      exact hc
    · rw [hother d hd] at hu
      exact h.used_lt d hu
  · intro d
    rw [hq]
    exact h.nodup d
  · intro d e l
    rw [hq, hq]
    exact h.unique d e l
  · intro d l hl
    rw [hq] at hl
    have hd : d ≠ c := by
      intro hd
      rw [hd, hnil] at hl
      simp at hl
    rw [hother d hd]
    exact h.used d l hl
  · intro d
    rw [hq]
    by_cases hd : d = c
    · rw [hd, hsame, hn, hnil]
      rfl
    · rw [hother d hd]
      exact h.count d
  · intro d l
    rw [hq, hrank]
    exact h.dest d l
  · intro l
    simp only [hq]
    exact h.mem_iff l

section AddCore

variable {cfg : Config} {g t : Global} {S : LoadId → Prop} {c : Nat}

theorem abtstRebProcessAddCore_eq (h : Linked cfg g S) (hc : c < cfg.nrCores) :
    abtstRebProcessAddCore cfg c g = .ok (if (g.streams c).used = true then g
      else g.setStream c { initXstream { g.streams c with used := true } c with
        pool := if c = 0 then (g.streams c).pool else [] }) := by
  have hr := h.rank c hc
  have hin : ¬ ((c : Int) < 0 ∨ (cfg.nrCores : Int) ≤ c) := by omega
  unfold abtstRebProcessAddCore
  rw [if_neg hin]
  by_cases hu : (g.streams c).used = true
  · simp [hu]
  · simp [hu, hr, initXstream]

theorem Linked.addCore (h : Linked cfg g S) (hc : c < cfg.nrCores)
    (ht : abtstRebProcessAddCore cfg c g = .ok t) : Linked cfg t S := by
  rw [abtstRebProcessAddCore_eq h hc] at ht
  obtain rfl := Except.ok.inj ht
  by_cases hu : (g.streams c).used = true
  · rw [if_pos hu]
    exact h
  · -- a core that is not in use has no loads to lose
    have hnil : (g.streams c).loadQ = [] := by
      by_contra hne
      obtain ⟨l, hl⟩ := List.exists_mem_of_ne_nil _ hne
      exact hu (h.used c l hl)
    rw [if_neg hu]
    exact h.setStream hc hnil rfl rfl rfl

end AddCore

section RemoveCore

variable {pf : Platform} {cfg : Config} {g t : Global} {S : LoadId → Prop} {n c : Nat}

theorem mem_otherStreams {src : Option Nat} {d : Nat} : d ∈ otherStreams cfg g n src ↔
    d ∈ cfg.coresOf n ∧ (g.streams d).used = true ∧ some d ≠ src := by
  simp [otherStreams]

/-- The loads of a used core go to the first of the sorted other streams. -/
theorem abtstRebProcessRemoveCore_used (pf : Platform) (hc : c < cfg.nrCores) (hint : c < 2 ^ 32)
    (hu : (g.streams c).used = true) (hn : cfg.numaOf c = some n) :
    (otherStreams cfg g n (some c) = [] ∧ abtstRebProcessRemoveCore pf cfg c g = .ok g) ∨
    ∃ e rest, pf.qsort ((otherStreams cfg g n (some c)).map fun i => ⟨i32 (g.qdepth i), i⟩) = e :: rest ∧
      abtstRebProcessRemoveCore pf cfg c g =
        (abtstCombineStreams g c e.stream >>= fun g => pure (setUnused (cfg.numaInfo n).endCore g)) := by
  have hcore : u32 c = c := u32_of_lt hint
  have hsrc : (if (0 : Int) ≤ (c : Int) then some (c : Int).toNat else none) = some c := by simp
  unfold abtstRebProcessRemoveCore
  rw [hcore, if_neg (by omega)]
  dsimp only
  rw [hsrc, if_neg (by simp [hu]), hn]
  dsimp only
  cases ho : otherStreams cfg g n (some c) with
  | nil => exact Or.inl ⟨rfl, rfl⟩
  | cons o os =>
    dsimp only
    cases hsorted : pf.qsort ((o :: os).map fun i => ⟨i32 (g.qdepth i), i⟩) with
    | nil =>
      have hlen := (pf.qsort_perm ((o :: os).map fun i => ⟨i32 (g.qdepth i), i⟩)).length_eq
      rw [hsorted] at hlen
      simp at hlen
    | cons e rest => exact Or.inr ⟨e, rest, rfl, rfl⟩

/-- The result of removing a core: nothing, or the loads of the core on another
used stream of the node and the last core of the node out of use. -/
theorem abtstRebProcessRemoveCore_cases (pf : Platform) (hv : cfg.Valid) (hc : c < cfg.nrCores)
    (hn : (g.streams c).used = true → n < cfg.nrNumas ∧ c ∈ cfg.coresOf n) :
    (¬ Combines cfg g n c ∧ abtstRebProcessRemoveCore pf cfg c g = .ok g) ∨
    (Combines cfg g n c ∧ ∃ dst ∈ cfg.coresOf n, (g.streams dst).used = true ∧ c ≠ dst ∧
      abtstRebProcessRemoveCore pf cfg c g =
        (abtstCombineStreams g c dst >>= fun g => pure (setUnused (cfg.numaInfo n).endCore g))) := by
  have hlt := hv.nrCores_lt
  by_cases hu : (g.streams c).used = true
  · obtain ⟨hnn, hcn⟩ := hn hu
    rcases abtstRebProcessRemoveCore_used pf hc (by omega) hu (hv.numaOf_eq hnn hcn) with
      ⟨hnil, heq⟩ | ⟨e, rest, hsorted, heq⟩
    · refine Or.inl ⟨?_, heq⟩
      rintro ⟨_, _, _, d, hd, hdu, hdc⟩
      have hmem : d ∈ otherStreams cfg g n (some c) := mem_otherStreams.mpr ⟨hd, hdu, by simpa using hdc⟩
      rw [hnil] at hmem
      simp at hmem
    · have hin := (pf.qsort_perm _).mem_iff.mp (hsorted ▸ List.mem_cons_self)
      obtain ⟨d, hd, rfl⟩ := List.mem_map.mp hin
      obtain ⟨hdn, hdu, hdc⟩ := mem_otherStreams.mp hd
      have hne : d ≠ c := by simpa using hdc
      exact Or.inr ⟨⟨hu, hnn, hcn, d, hdn, hdu, hne⟩, d, hdn, hdu, hne.symm, heq⟩
  · refine Or.inl ⟨fun h => hu h.1, ?_⟩
    unfold abtstRebProcessRemoveCore
    rw [u32_of_lt (by omega), if_neg (by omega)]
    exact if_pos (by simp [hu])

theorem Linked.combine (h : Linked cfg g S) {src dst : Nat} (hne : src ≠ dst)
    (hu : (g.streams dst).used = true) :
    ∃ s, abtstCombineStreams g src dst = .ok s ∧ Linked cfg s S ∧ SameShape g s ∧
      (s.streams src).loadQ = [] := by
  cases hc : abtstCombineStreams g src dst with
  | error e =>
    obtain ⟨_, d, hd⟩ := abtstCombineStreams_error hc
    have := h.count d
    omega
  | ok s =>
    have hs : Linked cfg s S := by
      rcases abtstCombineStreams_ok hne hc with ⟨_, rfl⟩ | ⟨_, _, rfl⟩
      · exact h
      · exact h.moved _ _ hne hu (List.Sublist.refl _)
    exact ⟨s, rfl, hs, combine_sameShape hne hc, hs.emptied (combine_emptied hne hc)⟩

/-- What a removal that moves the loads of a core should leave. -/
structure Removed (g t : Global) (c : Nat) : Prop where
  unused : (t.streams c).used = false
  empty : (t.streams c).loadQ = []
  others : ∀ d, d ≠ c → (t.streams d).used = (g.streams d).used

theorem setUnused_self (c : Nat) (g : Global) :
    (setUnused c g).streams c = { g.streams c with used := false } := by
  simp [setUnused, Global.setStream]

theorem setUnused_other {c d : Nat} (g : Global) (h : d ≠ c) :
    (setUnused c g).streams d = g.streams d := by
  simp [setUnused, Global.setStream, h]

theorem removed_iff (hv : cfg.Valid) (h : Linked cfg g S) (hc : Combines cfg g n c)
    (ht : abtstRebProcessRemoveCore pf cfg c g = .ok t) :
    Removed g t c ↔ c = (cfg.numaInfo n).endCore := by
  have hlt := hv.core_lt hc.2.1 hc.2.2.1
  rcases abtstRebProcessRemoveCore_cases pf hv hlt (fun _ => ⟨hc.2.1, hc.2.2.1⟩) with
    ⟨hn, _⟩ | ⟨_, dst, _, hu, hne, heq⟩
  · exact absurd hc hn
  · obtain ⟨s, hs, _, hshape, hnil⟩ := h.combine hne hu
    rw [heq, hs] at ht
    obtain rfl := Except.ok.inj ht
    constructor
    · intro hr
      by_contra hend
      have hused := hr.unused
      rw [setUnused_other s hend, hshape.used, hc.1] at hused
      cases hused
    · rintro rfl
      refine ⟨by rw [setUnused_self], by rw [setUnused_self]; exact hnil, ?_⟩
      intro d hd
      rw [setUnused_other s hd, hshape.used]

theorem Linked.removeCore (pf : Platform) (hv : cfg.Valid) (h : Linked cfg g S)
    (hc : c < cfg.nrCores) (hr : Removable cfg g c) :
    ∃ t, abtstRebProcessRemoveCore pf cfg c g = .ok t ∧ Linked cfg t S := by
  by_cases hu : (g.streams c).used = true
  · obtain ⟨n, hn, hcn, hend⟩ := hr hu
    rcases abtstRebProcessRemoveCore_cases pf hv hc (fun _ => ⟨hn, hcn⟩) with
      ⟨_, heq⟩ | ⟨hcomb, dst, _, hdu, hne, heq⟩
    · exact ⟨g, heq, h⟩
    · obtain ⟨s, hs, hlinked, _, hnil⟩ := h.combine hne hdu
      refine ⟨setUnused (cfg.numaInfo n).endCore s, by rw [heq, hs]; rfl, ?_⟩
      obtain rfl := hend hcomb
      refine hlinked.setStream hc hnil hnil ?_ (hlinked.rank _ hc)
      rw [hlinked.count, hnil]
      rfl
  · rcases abtstRebProcessRemoveCore_cases (n := 0) pf hv hc (fun h => absurd h hu) with
      ⟨_, heq⟩ | ⟨hcomb, _⟩
    · exact ⟨g, heq, h⟩
    · exact absurd hcomb.1 hu

end RemoveCore

/-- The states of a run of passes in which cores are added and removed; every
removal meets `Ok`. -/
inductive CoreRun (cfg : Config) (Ok : Global → Nat → Prop) (g : Global) : Global → Prop
  | start : CoreRun cfg Ok g g
  | between {s t : Global} : CoreRun cfg Ok g s → Between s t → CoreRun cfg Ok g t
  | pass {s : Global} {pf : Platform} : CoreRun cfg Ok g s → (rebPass pf cfg).fault s = none →
      CoreRun cfg Ok g ((rebPass pf cfg).run s).st
  | addCore {s t : Global} {c : Nat} : CoreRun cfg Ok g s → 0 < c → c < cfg.nrCores →
      abtstRebProcessAddCore cfg c s = .ok t → CoreRun cfg Ok g t
  | removeCore {s t : Global} {pf : Platform} {c : Nat} : CoreRun cfg Ok g s → 0 < c →
      c < cfg.nrCores → Ok s c → abtstRebProcessRemoveCore pf cfg c s = .ok t → CoreRun cfg Ok g t

/-- Each load is linked once, into one stream, which is in use. -/
def Live (S : LoadId → Prop) (g : Global) : Prop :=
  ∀ l, S l → ∃ c, (g.streams c).loadQ.count l = 1 ∧ (∀ d, l ∈ (g.streams d).loadQ → d = c) ∧
    (g.streams c).used = true

theorem Linked.live {cfg : Config} {g : Global} {S : LoadId → Prop} (h : Linked cfg g S) :
    Live S g := by
  intro l hl
  obtain ⟨c, hc⟩ := (h.mem_iff l).mp hl
  exact ⟨c, List.count_eq_one_of_mem (h.nodup c) hc, fun d hd => h.unique d c l hd hc, h.used c l hc⟩

theorem Linked.pass {cfg : Config} (hv : cfg.Valid) (pf : Platform) {g : Global}
    {S : LoadId → Prop} (h : Linked cfg g S) :
    (∀ e ∈ ((rebPass pf cfg).run g).log, Linked cfg e.2 S) ∧
      Linked cfg ((rebPass pf cfg).run g).st S :=
  ((rebPass_follows_any pf hv).path trivial).invariant (fun _ _ _ hs => hs.linked) h

theorem CoreRun.linked {cfg : Config} (hv : cfg.Valid) {S : LoadId → Prop} {g s : Global}
    (hg : Linked cfg g S) (h : CoreRun cfg (Removable cfg) g s) : Linked cfg s S := by
  induction h with
  | start => exact hg
  | between _ hb ih => exact ih.of_queues hb.queues
  | @pass _ pf _ _ ih => exact (ih.pass hv pf).2
  | addCore _ _ hc ht ih => exact ih.addCore hc ht
  | @removeCore _ _ pf _ _ _ hc hr ht ih =>
    obtain ⟨u, hu, hlinked⟩ := ih.removeCore pf hv hc hr
    rw [hu] at ht
    exact Except.ok.inj ht ▸ hlinked

/-- Loads stay on live streams: in every run in which a core is removed only if
it is the last one of its node, or the only one in use there, every load is on
one used stream in every state, and adding and removing always return. A removal
that moves the loads of a core takes that core, and no other, out of use exactly
if it is the last one of its node. -/
theorem loads_live_iff_last_core {cfg : Config} (hv : cfg.Valid) {S : LoadId → Prop} {g : Global}
    (hg : Linked cfg g S) :
    (∀ s, CoreRun cfg (Removable cfg) g s →
      Live S s ∧ (∀ pf, ∀ e ∈ ((rebPass pf cfg).run s).log, Live S e.2) ∧
      ∀ c, 0 < c → c < cfg.nrCores → (∃ t, abtstRebProcessAddCore cfg c s = .ok t) ∧
        ∀ pf, Removable cfg s c → ∃ t, abtstRebProcessRemoveCore pf cfg c s = .ok t ∧
          ∀ n, Combines cfg s n c → Removed s t c) ∧
    ∀ s, Linked cfg s S → ∀ pf n c t, Combines cfg s n c →
      abtstRebProcessRemoveCore pf cfg c s = .ok t →
        (Removed s t c ↔ c = (cfg.numaInfo n).endCore) := by
  refine ⟨?_, fun s hs pf n c t hc ht => removed_iff hv hs hc ht⟩
  intro s hs
  have hlinked := hs.linked hv hg
  refine ⟨hlinked.live, fun pf e he => ((hlinked.pass hv pf).1 e he).live, ?_⟩
  intro c _ hc
  refine ⟨⟨_, abtstRebProcessAddCore_eq hlinked hc⟩, ?_⟩
  intro pf hr
  obtain ⟨t, ht, _⟩ := hlinked.removeCore pf hv hc hr
  refine ⟨t, ht, fun n hcomb => (removed_iff hv hlinked hcomb ht).mpr ?_⟩
  obtain ⟨m, hm, hcm, hend⟩ := hr hcomb.1
  obtain rfl := hv.numa_unique hm hcomb.2.1 hcm hcomb.2.2.1
  exact hend hcomb

/-- Core 3 is the last one of its node, and its load goes to another core. -/
theorem loads_live_iff_last_core_shared : ∃ g t, startWith sharedConfig [0, 1] = some g ∧
    ⟨1, 1⟩ ∈ (g.streams 3).loadQ ∧ CoreRun sharedConfig (Removable sharedConfig) g t ∧
    Live g.Created t ∧ abtstRebProcessRemoveCore sortedPlatform sharedConfig 3 g = .ok t ∧
    Removed g t 3 := by
  have hstart : (startWith sharedConfig [0, 1]).any (fun g => decide (⟨1, 1⟩ ∈ (g.streams 3).loadQ ∧
      (g.streams 2).used = true ∧ (g.streams 3).used = true)) = true := by
    decide +kernel
  obtain ⟨g, hg, hstart⟩ := (Option.any_eq_true _ _).mp hstart
  obtain ⟨hload, htwo, hthree⟩ := of_decide_eq_true hstart
  have hlinked := (Visited.placed sharedConfig_valid (.reachable (.mapped (startWith_mapped hg)))).linked
  have hcomb : Combines sharedConfig g 0 3 := ⟨hthree, by decide, by decide, 2, by decide, htwo, by decide⟩
  have hr : Removable sharedConfig g 3 := fun _ => ⟨0, by decide, by decide, fun _ => rfl⟩
  have hmain := (loads_live_iff_last_core sharedConfig_valid hlinked).1
  obtain ⟨_, _, hcores⟩ := hmain g .start
  obtain ⟨t, ht, hremoved⟩ := (hcores 3 (by decide) (by decide)).2 sortedPlatform hr
  have hrun : CoreRun sharedConfig (Removable sharedConfig) g t :=
    .removeCore .start (by decide) (by decide) hr ht
  exact ⟨g, t, hg, hload, hrun, (hmain t hrun).1, ht, hremoved 0 hcomb⟩

/-- Removing core 2 moves its load to core 3 and takes core 3 out of use. -/
theorem removed_core_strands_load : ∃ g t, smallStart = some g ∧ Linked smallConfig g g.Created ∧
    abtstRebProcessRemoveCore sortedPlatform smallConfig 2 g = .ok t ∧
    CoreRun smallConfig (fun _ _ => True) g t ∧ ¬ Live g.Created t ∧ ¬ Removed g t 2 := by
  obtain ⟨g, hg, hl⟩ := smallStart_created
  have hlinked := (Visited.placed smallConfig_valid (.reachable (.mapped (startWith_mapped hg)))).linked
  have hall : smallStart.all (fun g =>
      match abtstRebProcessRemoveCore sortedPlatform smallConfig 2 g with
      | .ok t => decide (⟨0, 1⟩ ∈ (t.streams 3).loadQ) && !(t.streams 3).used && (t.streams 2).used
      | .error _ => false) = true := by decide +kernel
  rw [hg] at hall
  cases ht : abtstRebProcessRemoveCore sortedPlatform smallConfig 2 g with
  | error e => simp [ht] at hall
  | ok t =>
    simp only [Option.all_some, ht, Bool.and_eq_true, decide_eq_true_eq, Bool.not_eq_true'] at hall
    obtain ⟨⟨hmem, hunused⟩, hused⟩ := hall
    refine ⟨g, t, hg, hlinked, ht,
      .removeCore (c := 2) .start (by decide) (by decide) trivial ht, ?_, ?_⟩
    · intro hlive
      obtain ⟨c, _, huniq, hc⟩ := hlive _ hl
      rw [← huniq 3 hmem, hunused] at hc
      cases hc
    · intro hr
      have := hr.unused
      rw [hused] at this
      cases this

end AbtSt
