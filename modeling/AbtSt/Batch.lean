import AbtSt.Shutdown

/-! One call of `sub_sched_run`. Its counter is reset when a pop finds the pool
empty in the middle of a batch, and the call goes on if work has arrived by the
next pop. Two history variables record what the call has done so far. -/

namespace AbtSt

/-- A call of `sub_sched_run` with the number of work units that it has run and
whether its last pop found the pool empty; no step reads these. -/
structure Invocation where
  sys : Sys
  ran : Nat
  dry : Bool

def invoke (s : Sys) : Invocation := ⟨s, 0, false⟩

def Label.pops (c k : Nat) : Label → Bool
  | .sched d _ => decide (d = c ∧ k < maxBatchCount)
  | _ => false

/-- One step of any party, as long as the sub-scheduler of `l` runs on stream `c`. -/
def invocationNext (cfg : Config) (c : Nat) (l : LoadId) (a : Label) (v : Invocation) :
    Option Invocation :=
  match (v.sys.scheds c).pc with
  | .running m k _ =>
    if m = l then
      (next cfg (splitStep cfg) a v.sys).map fun t =>
        if a.pops c k = true then
          if (v.sys.g.loads l).pool = [] then ⟨t, v.ran, true⟩ else ⟨t, v.ran + 1, false⟩
        else ⟨t, v.ran, v.dry⟩
    else none
  | _ => none

def InvocationStep (cfg : Config) (c : Nat) (l : LoadId) (a : Label) (v w : Invocation) : Prop :=
  invocationNext cfg c l a v = some w

/-- No work arrives at the load between a pop that finds its pool empty and the
next pop of the same call. -/
def Undisturbed (l : LoadId) (a : Label) (v : Invocation) : Prop :=
  ∀ x, a = .create l x → v.dry = false

def Enabled (cfg : Config) (c : Nat) (s : Sys) : Prop :=
  c ≠ 0 ∧ c < cfg.nrCores ∧ (s.g.streams c).used = true

section Steps

variable {cfg : Config} {c : Nat} {l : LoadId} {a : Label}

theorem running_step {k n : Nat} {b : Bool} {s t : Sys} (hpc : (s.scheds c).pc = .running l k n) :
    SplitStep cfg (.sched c b) s t ↔ Enabled cfg c s ∧ t = subSchedRun c l k n s := by
  unfold SplitStep Enabled
  rw [next]
  have hstep : splitStep cfg c b s = some (subSchedRun c l k n s) := by
    unfold splitStep baseStep
    rw [hpc]
  rw [hstep]
  split_ifs with hc
  · exact ⟨fun h => ⟨hc, (Option.some.inj h).symm⟩, fun h => by rw [h.2]⟩
  · exact ⟨fun h => (by cases h), fun h => absurd h.1 hc⟩

/-- Only `create` puts work into the pool of a load. -/
theorem SplitStep.pool_nil {s t : Sys} (h : SplitStep cfg a s t) (hp : (s.g.loads l).pool = [])
    (ha : ∀ x, a ≠ .create l x) : (t.g.loads l).pool = [] := by
  by_cases hlabel : ∃ d b, a = .sched d b
  · obtain ⟨d, b, rfl⟩ := hlabel
    exact h.localStep.2.nil hp
  · rw [(other_step h (fun d b he => hlabel ⟨d, b, he⟩)).2 l ha, hp]

/-- What a step can do to the call. -/
inductive Progress (cfg : Config) (c : Nat) (l : LoadId) (k n : Nat) (a : Label) (v w : Invocation) :
    Prop
  | found : k < maxBatchCount → (v.sys.g.loads l).pool ≠ [] → w.ran = v.ran + 1 → w.dry = false →
      (w.sys.scheds c).pc = .running l (k + 1) n → Progress cfg c l k n a v w
  | empty : Enabled cfg c v.sys → (v.sys.g.loads l).pool = [] → (w.sys.g.loads l).pool = [] →
      w.ran = v.ran → w.dry = true →
      (w.sys.scheds c).pc = (if k = 0 then .served l n else .running l 0 n) → Progress cfg c l k n a v w
  | full : w.ran = v.ran → w.dry = v.dry → (w.sys.scheds c).pc = .served l n → Progress cfg c l k n a v w
  | other : w.sys.scheds c = v.sys.scheds c → w.ran = v.ran → w.dry = v.dry →
      ((v.sys.g.loads l).pool = [] → (∀ x, a ≠ .create l x) → (w.sys.g.loads l).pool = []) →
      Progress cfg c l k n a v w

theorem progress_pop {k n : Nat} {v : Invocation} (hk : k < maxBatchCount)
    (he : Enabled cfg c v.sys) :
    Progress cfg c l k n a v (if (v.sys.g.loads l).pool = []
      then ⟨subSchedRun c l k n v.sys, v.ran, true⟩
      else ⟨subSchedRun c l k n v.sys, v.ran + 1, false⟩) := by
  have hcases := subSchedRun_cases c l k n v.sys
  generalize subSchedRun c l k n v.sys = t at hcases ⊢
  cases hcases with
  | full hle => exact absurd hk (Nat.not_lt.mpr hle)
  | idle hz hp =>
    rw [if_pos hp]
    exact .empty he hp hp rfl rfl (by simp [hz, Sys.setPc, Sys.setSched])
  | again hz _ hp =>
    rw [if_pos hp]
    exact .empty he hp hp rfl rfl (by simp [hz, Sys.setPc, Sys.setSched])
  | run _ hp =>
    rw [if_neg (by simp [hp])]
    exact .found hk (by simp [hp]) rfl rfl (by simp [Sys.setPc, Sys.setSched])

theorem InvocationStep.inv {v w : Invocation} (h : InvocationStep cfg c l a v w) :
    ∃ k n, (v.sys.scheds c).pc = .running l k n ∧ SplitStep cfg a v.sys w.sys ∧
      Progress cfg c l k n a v w := by
  unfold InvocationStep invocationNext at h
  cases hpc : (v.sys.scheds c).pc with
  | running m k n =>
    rw [hpc] at h
    dsimp only at h
    by_cases hm : m = l
    swap
    · rw [if_neg hm] at h
      cases h
    subst hm
    rw [if_pos rfl] at h
    obtain ⟨t, ht, rfl⟩ := Option.map_eq_some_iff.mp h
    have hstep : SplitStep cfg a v.sys t := ht
    refine ⟨k, n, rfl, ?_, ?_⟩
    · split_ifs <;> exact hstep
    · by_cases hown : ∃ b, a = .sched c b
      · obtain ⟨b, rfl⟩ := hown
        obtain ⟨he, rfl⟩ := (running_step hpc).mp hstep
        by_cases hk : k < maxBatchCount
        · rw [if_pos (by simp [Label.pops, hk])]
          exact progress_pop hk he
        · rw [if_neg (by simp [Label.pops, hk])]
          refine .full rfl rfl ?_
          simp [subSchedRun, Nat.le_of_not_lt hk, Sys.setPc, Sys.setSched]
      · have hother : ∀ b, a ≠ .sched c b := fun b he => hown ⟨b, he⟩
        have hpops : a.pops c k ≠ true := by
          cases a with
          | sched d b =>
            have hd : d ≠ c := fun he => hother b (by rw [he])
            simp [Label.pops, hd]
          | _ => simp [Label.pops]
        rw [if_neg hpops]
        exact .other (hstep.scheds_of_ne hother) rfl rfl (hstep.pool_nil)
  | _ =>
    rw [hpc] at h
    cases h

/-- While no work arrives after an empty pop, the counter of the batch is the
number of work units run, until a pop finds the pool empty; then it stays empty. -/
structure Batched (cfg : Config) (c : Nat) (l : LoadId) (v : Invocation) : Prop where
  ran_le : v.ran ≤ maxBatchCount
  batch : v.dry = false → ∀ k n, (v.sys.scheds c).pc = .running l k n → v.ran = k
  empty : v.dry = true → Enabled cfg c v.sys ∧ (v.sys.g.loads l).pool = [] ∧
    ∀ k n, (v.sys.scheds c).pc = .running l k n → k = 0 ∧ 0 < v.ran

theorem Enabled.step {s t : Sys} (h : Enabled cfg c s) (hs : SplitStep cfg a s t) : Enabled cfg c t :=
  ⟨h.1, h.2.1, by rw [hs.move.used]; exact h.2.2⟩

theorem Batched.invoke {s : Sys} {n : Nat} (hpc : (s.scheds c).pc = .running l 0 n) :
    Batched cfg c l (invoke s) := by
  refine ⟨Nat.zero_le _, ?_, fun hd => (by cases hd)⟩
  intro _ k m hk
  obtain ⟨-, rfl, -⟩ := Pc.running.inj (hpc.symm.trans hk)
  rfl

theorem Batched.step {v w : Invocation} (h : Batched cfg c l v) (hs : InvocationStep cfg c l a v w)
    (hu : Undisturbed l a v) : Batched cfg c l w := by
  obtain ⟨k, n, hpc, hstep, hprog⟩ := hs.inv
  cases hprog with
  | found hk hp hran hdry hpc' =>
    have hwet : v.dry = false := by
      by_contra hd
      exact hp (h.empty (by simpa using hd)).2.1
    have hcount := h.batch hwet k n hpc
    refine ⟨by omega, ?_, fun hd => by simp [hdry] at hd⟩
    intro _ j m hj
    obtain ⟨-, rfl, -⟩ := Pc.running.inj (hpc'.symm.trans hj)
    omega
  | empty he hp hp' hran hdry hpc' =>
    refine ⟨hran ▸ h.ran_le, fun hd => by simp [hdry] at hd, fun _ => ⟨he.step hstep, hp', ?_⟩⟩
    intro j m hj
    rw [hpc'] at hj
    split_ifs at hj with hk
    obtain ⟨-, rfl, -⟩ := Pc.running.inj hj
    refine ⟨rfl, ?_⟩
    cases hd : v.dry with
    | false =>
      have := h.batch hd k n hpc
      omega
    | true => exact absurd ((h.empty hd).2.2 k n hpc).1 hk
  | full hran hdry hpc' =>
    have hnot : ∀ j m, (w.sys.scheds c).pc ≠ .running l j m := by
      intro j m hj
      cases hpc'.symm.trans hj
    refine ⟨hran ▸ h.ran_le, fun _ j m hj => absurd hj (hnot j m), fun hd => ?_⟩
    obtain ⟨he, hp, -⟩ := h.empty (hdry ▸ hd)
    refine ⟨he.step hstep, ?_, fun j m hj => absurd hj (hnot j m)⟩
    exact hstep.pool_nil hp (fun x hx => by simpa [hdry ▸ hd] using hu x hx)
  | other hsched hran hdry hp =>
    refine ⟨hran ▸ h.ran_le, ?_, ?_⟩
    · intro hd j m hj
      rw [hran]
      exact h.batch (hdry ▸ hd) j m (hsched ▸ hj)
    · intro hd
      obtain ⟨he, hnil, hzero⟩ := h.empty (hdry ▸ hd)
      refine ⟨he.step hstep, hp hnil (fun x hx => by simpa [hdry ▸ hd] using hu x hx), ?_⟩
      intro j m hj
      rw [hran]
      exact hzero j m (hsched ▸ hj)

/-- The steps of a call into which no work arrives after an empty pop. -/
def CalmStep (cfg : Config) (c : Nat) (l : LoadId) (a : Label) (v w : Invocation) : Prop :=
  InvocationStep cfg c l a v w ∧ Undisturbed l a v

theorem Batched.run {v w : Invocation} {log : List (Label × Invocation)}
    (hp : Path (CalmStep cfg c l) v log w) (h : Batched cfg c l v) : Batched cfg c l w :=
  (hp.invariant (fun _ _ _ hs h => h.step hs.1 hs.2) h).2

/-- The call has run `k` work units of its batch, and has not returned. -/
structure Going (c : Nat) (l : LoadId) (k n : Nat) (pool : List Nat) (v : Invocation) : Prop where
  pc : (v.sys.scheds c).pc = .running l k n
  pool : (v.sys.g.loads l).pool = pool

theorem Going.create (cfg : Config) {v : Invocation} {k n : Nat} {pool : List Nat}
    (h : Going c l k n pool v) (x : Nat) : ∃ w, InvocationStep cfg c l (.create l x) v w ∧ w.ran = v.ran ∧
      Going c l k n (pool ++ [x]) w := by
  refine ⟨⟨v.sys.setLoad l { v.sys.g.loads l with pool := (v.sys.g.loads l).pool ++ [x] },
    v.ran, v.dry⟩, ?_, rfl, h.pc, ?_⟩
  · unfold InvocationStep invocationNext
    rw [h.pc]
    simp [next, Label.pops]
  · simp [Sys.setLoad, Global.setLoad, h.pool]

theorem Going.pop {v : Invocation} {k n x : Nat} {rest : List Nat} (h : Going c l k n (x :: rest) v)
    (hk : k < maxBatchCount) (he : Enabled cfg c v.sys) :
    ∃ w, InvocationStep cfg c l (.sched c false) v w ∧ w.ran = v.ran + 1 ∧
      Going c l (k + 1) n rest w := by
  have hstep : next cfg (splitStep cfg) (.sched c false) v.sys = some (subSchedRun c l k n v.sys) :=
    (running_step h.pc).mpr ⟨he, rfl⟩
  have hlt : ¬ maxBatchCount ≤ k := Nat.not_le.mpr hk
  have hrun : subSchedRun c l k n v.sys =
      (v.sys.setLoad l { v.sys.g.loads l with pool := rest }).setPc c (.running l (k + 1) n) := by
    simp [subSchedRun, hlt, h.pool]
  refine ⟨⟨subSchedRun c l k n v.sys, v.ran + 1, false⟩, ?_, rfl, ?_, ?_⟩
  · unfold InvocationStep invocationNext
    rw [h.pc]
    dsimp only
    rw [if_pos rfl, hstep]
    simp [Label.pops, hk, h.pool]
  · simp [hrun, Sys.setPc, Sys.setSched]
  · simp [hrun, Sys.setPc, Sys.setSched, Sys.setLoad, Global.setLoad]

theorem InvocationStep.enabled {v w : Invocation} (h : InvocationStep cfg c l a v w)
    (he : Enabled cfg c v.sys) : Enabled cfg c w.sys := by
  obtain ⟨_, _, _, hs, _⟩ := h.inv
  exact he.step hs

/-- As long as each work unit that runs is replaced by another one, the batch is
run to its end. -/
theorem trickle (m : Nat) {v : Invocation} {k n x : Nat} {rest : List Nat}
    (h : Going c l k n (x :: rest) v) (hk : k + m ≤ maxBatchCount) (he : Enabled cfg c v.sys) :
    ∃ log w, Path (InvocationStep cfg c l) v log w ∧ w.ran = v.ran + m := by
  induction m generalizing v k x rest with
  | zero => exact ⟨[], v, .nil v, rfl⟩
  | succ m ih =>
    obtain ⟨u, hcreate, huran, hu⟩ := h.create cfg 0
    obtain ⟨t, hpop, htran, ht⟩ := hu.pop (by omega) (hcreate.enabled he)
    obtain ⟨y, ys, hys⟩ := List.exists_cons_of_ne_nil (List.concat_ne_nil 0 rest)
    have hnext : Going c l (k + 1) n (y :: ys) t := hys ▸ ht
    obtain ⟨log, w, hpath, hran⟩ := ih hnext (by omega) (hpop.enabled (hcreate.enabled he))
    exact ⟨_, w, .cons hcreate (.cons hpop hpath), by omega⟩

end Steps

/-- A call runs at most one batch as long as no work arrives between a pop that
finds the pool empty and the next one; after any such arrival it can run more. -/
theorem batch_bounded {cfg : Config} {c n : Nat} {l : LoadId} {s : Sys}
    (hpc : (s.scheds c).pc = .running l 0 n) :
    (∀ log w, Path (CalmStep cfg c l) (invoke s) log w → w.ran ≤ maxBatchCount) ∧
    ∀ log v a w, Path (CalmStep cfg c l) (invoke s) log v → InvocationStep cfg c l a v w →
      ¬ Undisturbed l a v →
      ∃ log' u, Path (InvocationStep cfg c l) w log' u ∧ maxBatchCount < u.ran := by
  refine ⟨fun log w hp => ((Batched.invoke hpc).run hp).ran_le, ?_⟩
  intro log v a w hp hs hdist
  have hv := (Batched.invoke hpc).run hp
  obtain ⟨x, rfl, hdry⟩ : ∃ x, a = .create l x ∧ v.dry = true := by
    simpa [Undisturbed] using hdist
  obtain ⟨he, hnil, hzero⟩ := hv.empty hdry
  obtain ⟨k, m, hk, -, -⟩ := hs.inv
  obtain ⟨rfl, hran⟩ := hzero k m hk
  obtain ⟨w', hs', hran', hw⟩ := Going.create cfg ⟨hk, hnil⟩ x
  obtain rfl := Option.some.inj (hs.symm.trans hs')
  obtain ⟨log', u, hpath, hu⟩ := trickle maxBatchCount hw (by omega) (hs.enabled he)
  exact ⟨log', u, hpath, by omega⟩

theorem foldlM_path {ι σ : Type} {step : ι → σ → Option σ} {as : List ι} {s t : σ}
    (h : as.foldlM (fun s a => step a s) s = some t) :
    ∃ log, Path (fun a s t => step a s = some t) s log t := by
  induction as generalizing s with
  | nil =>
    obtain rfl := Option.some.inj h
    exact ⟨[], .nil s⟩
  | cons a as ih =>
    rw [List.foldlM_cons] at h
    obtain ⟨u, hu, h⟩ := Option.bind_eq_some_iff.mp h
    obtain ⟨log, hp⟩ := ih h
    exact ⟨_, .cons hu hp⟩

/-- One work unit is in the pool when the call begins; it runs, the pool is found
empty, and from then on the next one arrives before each pop. -/
def trickling : List Label :=
  .sched 1 false :: .sched 1 false ::
    (List.replicate 16 [Label.create ⟨0, 0⟩ 1, .sched 1 false]).flatten

theorem trickling_result : (smallStart.any fun g =>
    (play (next smallConfig (splitStep smallConfig))
      (.create ⟨0, 0⟩ 0 :: List.replicate 4 (.sched 1 false)) (launch g)).any fun s =>
      decide ((s.scheds 1).pc = .running ⟨0, 0⟩ 0 1) &&
      (trickling.foldlM (fun v a => invocationNext smallConfig 1 ⟨0, 0⟩ a v) (invoke s)).any fun w =>
        decide (w.ran = 17 ∧ (w.sys.scheds 1).pc = .running ⟨0, 0⟩ 16 1)) = true := by
  decide +kernel

/-- One call runs 17 work units and has not returned. -/
theorem batch_exceeded : ∃ g log s log' w, Mapped smallConfig g ∧
    Path (SplitStep smallConfig) (launch g) log s ∧ (s.scheds 1).pc = .running ⟨0, 0⟩ 0 1 ∧
    Path (InvocationStep smallConfig 1 ⟨0, 0⟩) (invoke s) log' w ∧
    w.ran = maxBatchCount + 1 ∧ (w.sys.scheds 1).pc = .running ⟨0, 0⟩ 16 1 := by
  obtain ⟨g, hg, hres⟩ := (Option.any_eq_true _ _).mp trickling_result
  rw [Option.any_eq_true] at hres
  obtain ⟨s, hs, hres⟩ := hres
  rw [Bool.and_eq_true, decide_eq_true_iff, Option.any_eq_true] at hres
  obtain ⟨hpc, w, hw, hres⟩ := hres
  obtain ⟨hran, hpc'⟩ := of_decide_eq_true hres
  obtain ⟨log, _, hp⟩ := play_path hs
  obtain ⟨log', hp'⟩ := foldlM_path hw
  exact ⟨g, log, s, log', w, startWith_mapped hg, hp, hpc, hp', hran, hpc'⟩

theorem batch_bounded_small : ∃ g log s, Mapped smallConfig g ∧
    Path (SplitStep smallConfig) (launch g) log s ∧ (s.scheds 1).pc = .running ⟨0, 0⟩ 0 1 ∧
    ∀ log' w, Path (CalmStep smallConfig 1 ⟨0, 0⟩) (invoke s) log' w → w.ran ≤ maxBatchCount := by
  obtain ⟨g, hg, hres⟩ := (Option.any_eq_true _ _).mp trickling_result
  rw [Option.any_eq_true] at hres
  obtain ⟨s, hs, hres⟩ := hres
  rw [Bool.and_eq_true, decide_eq_true_iff] at hres
  obtain ⟨log, _, hp⟩ := play_path hs
  exact ⟨g, log, s, startWith_mapped hg, hp, hres.1, (batch_bounded hres.1).1⟩

end AbtSt
