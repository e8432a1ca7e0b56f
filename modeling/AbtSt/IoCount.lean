import AbtSt.IoSlots

/-! The counters of the loads. `pkt_started` and `pkt_ended` tell the rebalancer
what is queued and under way, as long as no slot is filled for another load
between its release and the moment its work unit finds the load in it. -/

namespace AbtSt

/-- The load of the request that the main thread has created and not yet counted. -/
def MainPc.counting : MainPc → Option LoadId
  | .count _ l => some l
  | _ => none

def Io.uncounted (s : Io) (l : LoadId) : Nat := if s.main.counting = some l then 1 else 0

/-- The main thread does not put another load into a slot whose last work unit has
released it and not yet found its load there. -/
def Careful (app : App) (w : Turn) (s : Io) : Prop :=
  ∀ b z i l c t r, w = .main b z → s.main = .route i →
    mapKeyToLoad app s.sys.g z (s.params i).key = .ok l → s.lwts c = some (.released t) →
    s.issued[t]? = some r → r.slot = i → r.load = l

def CarefulStep (cfg : Config) (app : App) (w : Turn) (s t : Io) : Prop :=
  IoStep cfg app w s t ∧ Careful app w s

/-- What a work unit holds: the pointer that it is to read, the load that it has
read, and the counter of this load. -/
def LwtPc.Holds (s : Io) : LwtPc → Prop
  | .work _ => True
  | .released t => ∀ r, s.issued[t]? = some r → (s.params r.slot).load = some r.load
  | .found t l => s.loadOf t = some l
  | .ending t l v => s.loadOf t = some l ∧ v = (s.load l).pktEnded

structure Counted (S : LoadId → Prop) (s : Io) : Prop where
  holds : ∀ c p, s.lwts c = some p → p.Holds s
  ended : ∀ l, S l → (s.load l).pktEnded = (s.ofLoad l s.ended).length % 2 ^ 64
  started : ∀ l, S l → ∃ k, k + s.uncounted l = (s.ofLoad l (List.range s.issued.length)).length ∧
    (s.load l).pktStarted = k % 2 ^ 64

section Counted

variable {cfg : Config} {app : App} {S : LoadId → Prop} {s t : Io}

theorem loadOf_congr (hi : t.issued = s.issued) (x : Nat) : t.loadOf x = s.loadOf x := by
  rw [Io.loadOf, Io.loadOf, hi]

theorem holds_congr (hi : t.issued = s.issued) {p : LwtPc}
    (hp : ∀ x r, p = .released x → s.issued[x]? = some r →
      (t.params r.slot).load = (s.params r.slot).load)
    (he : ∀ x l v, p = .ending x l v → (t.load l).pktEnded = (s.load l).pktEnded)
    (h : p.Holds s) : p.Holds t := by
  cases p with
  | work x => trivial
  | released x =>
    intro r hr
    rw [hi] at hr
    rw [hp x r rfl hr]
    exact h r hr
  | found x l => exact (loadOf_congr hi x).trans h
  | ending x l v => exact ⟨(loadOf_congr hi x).trans h.1, h.2.trans (he x l v rfl).symm⟩

/-- A turn that counts nothing; a work unit that it moves holds what it should. -/
theorem Counted.of_quiet (h : Counted S s) (hi : t.issued = s.issued) (he : t.ended = s.ended)
    (hp : ∀ d x r, s.lwts d = some (.released x) → s.issued[x]? = some r →
      (t.params r.slot).load = (s.params r.slot).load)
    (hended : ∀ l, (t.load l).pktEnded = (s.load l).pktEnded)
    (hstarted : ∀ l, (t.load l).pktStarted = (s.load l).pktStarted)
    (hc : ∀ l, t.uncounted l = s.uncounted l)
    (hl : ∀ d p, t.lwts d = some p → s.lwts d = some p ∨ p.Holds t) : Counted S t := by
  refine ⟨?_, ?_, ?_⟩
  · intro d p hd
    rcases hl d p hd with hd | hd
    · exact holds_congr hi (fun x r he => hp d x r (he ▸ hd)) (fun _ l _ _ => hended l) (h.holds d p hd)
    · exact hd
  · intro l hS
    rw [ofLoad_congr hi, he, hended]
    exact h.ended l hS
  · intro l hS
    rw [ofLoad_congr hi, hi, hstarted, hc]
    exact h.started l hS

theorem setLwt_holds {c : Nat} {p : Option LwtPc} (hp : ∀ q, p = some q → q.Holds t) {d : Nat} {q : LwtPc}
    (hd : (s.setLwt c p).lwts d = some q) : s.lwts d = some q ∨ q.Holds t := by
  by_cases hdc : d = c
  · subst hdc
    exact Or.inr (hp q (by simpa [Io.setLwt] using hd))
  · exact Or.inl (by simpa [Io.setLwt, hdc] using hd)

theorem setParam_load {i : Nat} {x : IoParam} (hx : x.load = (s.params i).load) (j : Nat) :
    ((s.setParam i x).params j).load = (s.params j).load := by
  by_cases hj : j = i
  · subst hj
    simpa [Io.setParam] using hx
  · simp [Io.setParam, hj]

theorem unscheduled_started : Unscheduled Load.pktStarted :=
  ⟨fun _ _ => rfl, fun _ _ => rfl, fun _ _ => rfl⟩

theorem unscheduled_ended : Unscheduled Load.pktEnded :=
  ⟨fun _ _ => rfl, fun _ _ => rfl, fun _ _ => rfl⟩

/-- The work unit of request `x` writes `pkt_ended`. No other work unit is between
its read and its write, since the units of a load run one at a time. -/
theorem Counted.of_finish (hf : Flow S s) (h : Counted S s) {c x v : Nat} {l : LoadId}
    (hx : s.lwts c = some (.ending x l v)) (hi : t.issued = s.issued) (he : t.ended = s.ended ++ [x])
    (hp : t.params = s.params) (hm : t.main = s.main)
    (hload : ∀ j, t.load j = if j = l then { s.load l with pktEnded := (v + 1) % 2 ^ 64 } else s.load j)
    (hl : ∀ d, t.lwts d = if d = c then none else s.lwts d) : Counted S t := by
  obtain ⟨hxl, hv⟩ := h.holds c _ hx
  have hon := requestOn_some hx
  obtain ⟨m, k, n, hpc, hm'⟩ := hf.running c x hon
  obtain rfl : m = l := Option.some.inj (hm'.symm.trans hxl)
  refine ⟨?_, ?_, ?_⟩
  · intro d p hd
    rw [hl] at hd
    split_ifs at hd with hdc
    refine holds_congr hi (fun _ _ _ _ => by rw [hp]) ?_ (h.holds d p hd)
    rintro y j w rfl
    have hj : j ≠ m := by
      rintro rfl
      exact hdc (hf.request_unique (requestOn_some hd) hon ((h.holds d _ hd).1.trans hxl.symm))
    rw [hload, if_neg hj]
  · intro j hj
    rw [hload, ofLoad_congr hi, he, ofLoad_append, ofLoad_single, hxl, List.length_append]
    by_cases hjm : j = m
    · subst hjm
      rw [if_pos rfl, if_pos rfl, hv, h.ended j hj]
      simp
    · rw [if_neg hjm, if_neg (fun he => hjm (Option.some.inj he).symm)]
      exact h.ended j hj
  · intro j hj
    obtain ⟨k, hk, hst⟩ := h.started j hj
    refine ⟨k, ?_, ?_⟩
    · rw [ofLoad_congr hi, hi, Io.uncounted, hm]
      exact hk
    · rw [hload]
      by_cases hjm : j = m
      · subst hjm
        rw [if_pos rfl]
        exact hst
      · rw [if_neg hjm]
        exact hst

theorem Counted.of_issue (hf : Flow S s) (h : Counted S s) {r : Request}
    (hi : t.issued = s.issued ++ [r]) (he : t.ended = s.ended) (hp : t.params = s.params)
    (hl : t.lwts = s.lwts) (hended : ∀ l, (t.load l).pktEnded = (s.load l).pktEnded)
    (hstarted : ∀ l, (t.load l).pktStarted = (s.load l).pktStarted)
    (hs : ∀ l, s.uncounted l = 0) (hc : ∀ l, t.uncounted l = if r.load = l then 1 else 0) :
    Counted S t := by
  have hold : ∀ {x m}, s.loadOf x = some m → t.loadOf x = some m :=
    fun hx => (loadOf_append hi (loadOf_lt hx)).trans hx
  refine ⟨?_, ?_, ?_⟩
  · intro d p hd
    rw [hl] at hd
    have hh := h.holds d p hd
    cases p with
    | work y => trivial
    | released y =>
      intro r' hr
      obtain ⟨_, _, _, _, hy⟩ := hf.running d y (requestOn_some hd)
      rw [hi, List.getElem?_append_left (loadOf_lt hy)] at hr
      rw [hp]
      exact hh r' hr
    | found y j => exact hold hh
    | ending y j w => exact ⟨hold hh.1, hh.2.trans (hended j).symm⟩
  · intro j hj
    rw [he, ofLoad_issue hi j (fun x hx => hf.known_lt (Or.inr hx)), hended]
    exact h.ended j hj
  · intro j hj
    obtain ⟨k, hk, hst⟩ := h.started j hj
    refine ⟨k, ?_, (hstarted j).trans hst⟩
    have hlen : t.issued.length = s.issued.length + 1 := by simp [hi]
    rw [hc, hlen, List.range_succ, ofLoad_append, ofLoad_single, loadOf_last hi,
      ofLoad_issue hi j (fun x => List.mem_range.mp), List.length_append, ← hk, hs]
    by_cases hlj : r.load = j <;> simp [hlj]

theorem Counted.of_count (h : Counted S s) {l : LoadId} (hi : t.issued = s.issued)
    (he : t.ended = s.ended) (hp : t.params = s.params) (hl : t.lwts = s.lwts)
    (hload : ∀ j, t.load j = if j = l then abtstLoadIncStarted (s.load l) else s.load j)
    (hs : ∀ j, s.uncounted j = if j = l then 1 else 0) (hc : ∀ j, t.uncounted j = 0) :
    Counted S t := by
  have hended : ∀ j, (t.load j).pktEnded = (s.load j).pktEnded := by
    intro j
    rw [hload]
    split_ifs with hj
    · rw [hj]
      rfl
    · rfl
  refine ⟨?_, ?_, ?_⟩
  · intro d p hd
    rw [hl] at hd
    exact holds_congr hi (fun _ _ _ _ => by rw [hp]) (fun _ j _ _ => hended j) (h.holds d p hd)
  · intro j hj
    rw [hended, ofLoad_congr hi, he]
    exact h.ended j hj
  · intro j hj
    obtain ⟨k, hk, hst⟩ := h.started j hj
    rw [ofLoad_congr hi, hi, hload, hc]
    rw [hs] at hk
    by_cases hjl : j = l
    · subst hjl
      rw [if_pos rfl] at hk ⊢
      exact ⟨k + 1, hk, by rw [abtstLoadIncStarted, hst, Nat.mod_add_mod]⟩
    · rw [if_neg hjl] at hk ⊢
      exact ⟨k, hk, hst⟩

theorem load_setLoad (s : Io) (l : LoadId) (x : Load) (j : LoadId) :
    (s.setLoad l x).load j = if j = l then x else s.load j := by
  by_cases hj : j = l
  · subst hj
    simp [Io.setLoad, Io.load, Sys.setLoad, Global.setLoad]
  · simp [Io.setLoad, Io.load, Sys.setLoad, Global.setLoad, hj]

theorem uncounted_of (hm : s.main.counting = t.main.counting) (l : LoadId) :
    s.uncounted l = t.uncounted l := by
  rw [Io.uncounted, Io.uncounted, hm]

theorem Counted.step {w : Turn} (hf : Flow S s) (hs : Slots app s) (h : Counted S s)
    (hc : Careful app w s) (hm : IoMove cfg app s w t) : Counted S t := by
  have hsys : ∀ {a u}, SplitStep cfg a s.sys u →
      (∀ l, (u.g.loads l).pktEnded = (s.load l).pktEnded) ∧
      ∀ l, (u.g.loads l).pktStarted = (s.load l).pktStarted := fun hstep =>
    ⟨hstep.keeps unscheduled_ended (Or.inl fun _ _ => rfl),
      hstep.keeps unscheduled_started (Or.inl fun _ _ => rfl)⟩
  cases hm with
  | sys _ _ hstep _ =>
    exact h.of_quiet rfl rfl (fun _ _ _ _ _ => rfl) (hsys hstep).1 (hsys hstep).2 (fun _ => rfl)
      (fun _ _ => Or.inl)
  | @begins c x b u _ hstep _ =>
    refine h.of_quiet rfl rfl (fun _ _ _ _ _ => rfl) (hsys hstep).1 (hsys hstep).2 (fun _ => rfl) ?_
    intro d p hd
    refine setLwt_holds (s := s) (c := c) (p := some (.work x)) (fun q hq => ?_) hd
    cases hq
    trivial
  | @release c x r hx hr =>
    have hlive : s.Live x := ⟨(List.getElem?_eq_some_iff.mp hr).1, Or.inr ⟨c, hx⟩⟩
    have hslot := hs.live x r hlive hr
    refine h.of_quiet rfl rfl
      (fun _ _ y _ _ => setParam_load (x := { s.params r.slot with used := false }) rfl y.slot)
      (fun _ => rfl) (fun _ => rfl) (fun _ => rfl) ?_
    intro d p hd
    refine setLwt_holds (s := s) (c := c) (p := some (.released x)) (fun q hq => ?_) hd
    cases hq
    intro r' hr'
    obtain rfl : r = r' := Option.some.inj (hr.symm.trans hr')
    simp [Io.setLwt, Io.setParam, hslot]
  | @find c x r l hx hr hl =>
    refine h.of_quiet rfl rfl (fun _ _ _ _ _ => rfl) (fun _ => rfl) (fun _ => rfl) (fun _ => rfl) ?_
    intro d p hd
    refine setLwt_holds (c := c) (p := some (.found x l)) (fun q hq => ?_) hd
    cases hq
    change s.issued[x]?.map Request.load = some l
    rw [hr, Option.map_some, ← hl]
    exact (h.holds c _ hx r hr).symm
  | @read c x l hx =>
    refine h.of_quiet rfl rfl (fun _ _ _ _ _ => rfl) (fun _ => rfl) (fun _ => rfl) (fun _ => rfl) ?_
    intro d p hd
    refine setLwt_holds (c := c) (p := some (.ending x l (s.load l).pktEnded)) (fun q hq => ?_) hd
    cases hq
    exact ⟨h.holds c _ hx, rfl⟩
  | @finish c x v l hx =>
    refine h.of_finish hf hx rfl rfl rfl rfl (load_setLoad s l _) (fun d => ?_)
    by_cases hd : d = c <;> simp [Io.setLwt, Io.setLoad, hd]
  | @scan b z i m hi hnext =>
    refine h.of_quiet rfl rfl (fun _ _ _ _ _ => rfl) (fun _ => rfl) (fun _ => rfl) (uncounted_of ?_)
      (fun _ _ => Or.inl)
    rw [hi]
    rcases hnext with rfl | rfl | rfl | ⟨rfl, _⟩ <;> rfl
  | @claim b z i hi =>
    exact h.of_quiet rfl rfl
      (fun _ _ r _ _ => setParam_load (x := { s.params i with used := true }) rfl r.slot)
      (fun _ => rfl) (fun _ => rfl) (uncounted_of (by rw [hi]; rfl)) (fun _ _ => Or.inl)
  | @fill b z i hi =>
    exact h.of_quiet rfl rfl
      (fun _ _ r _ _ =>
        setParam_load (x := { s.params i with key := app.keys s.issued.length }) rfl r.slot)
      (fun _ => rfl) (fun _ => rfl) (uncounted_of (by rw [hi]; rfl)) (fun _ _ => Or.inl)
  | @route b z i l hi hl =>
    refine h.of_quiet rfl rfl ?_ (fun _ => rfl) (fun _ => rfl) (uncounted_of (by rw [hi]; rfl))
      (fun _ _ => Or.inl)
    intro d x r hx hr
    by_cases hslot : r.slot = i
    · have hload := hc b z i l d x r rfl hi hl hx hr hslot
      rw [h.holds d _ hx r hr, hload]
      simp [Io.setParam, hslot]
    · simp [Io.setParam, hslot]
  | fails hi =>
    exact h.of_quiet rfl rfl (fun _ _ _ _ _ => rfl) (fun _ => rfl) (fun _ => rfl)
      (uncounted_of (by rw [hi]; rfl)) (fun _ _ => Or.inl)
  | @create b z i l u hi hstep =>
    refine h.of_issue hf rfl rfl rfl rfl (hsys hstep).1 (hsys hstep).2 (fun j => ?_) (fun j => ?_)
    · simp [Io.uncounted, hi, MainPc.counting]
    · simp [Io.uncounted, MainPc.counting]
  | @count b z i l hi =>
    refine h.of_count (l := l) rfl rfl rfl rfl (load_setLoad s l _) (fun j => ?_) (fun j => ?_)
    · simp [Io.uncounted, hi, MainPc.counting, eq_comm]
    · simp [Io.uncounted, MainPc.counting]
  | stop hi hstep =>
    exact h.of_quiet rfl rfl (fun _ _ _ _ _ => rfl) (hsys hstep).1 (hsys hstep).2
      (uncounted_of (by rw [hi]; rfl)) (fun _ _ => Or.inl)

theorem Counted.start {g : Global} (hg : Mapped cfg g) : Counted g.Created (startIo g) := by
  refine ⟨fun c p hp => (by cases hp), fun l hl => (hg.unworked hl.1).2.2, fun l hl => ?_⟩
  exact ⟨0, rfl, (hg.unworked hl.1).2.1⟩

end Counted

/-- As long as the main thread is careful, the counters of a load differ by what is
queued and under way, up to the request that the main thread is about to count,
and `abtst_get_load_size` returns this number. -/
theorem load_size_exact {cfg : Config} (hv : cfg.Valid) {g : Global} (hg : Mapped cfg g) {app : App}
    {log : List (Turn × Io)} {s : Io} (hp : Path (CarefulStep cfg app) (startIo g) log s) {l : LoadId}
    (hl : g.Created l) (hlt : (s.ofLoad l (List.range s.issued.length)).length < 2 ^ 64) :
    ∃ now, UnderWay s l now ∧
      (s.load l).pktStarted + s.uncounted l =
        (s.load l).pktEnded + (now.length + (s.load l).pool.length) ∧
      (now.length + (s.load l).pool.length < 2 ^ 31 →
        s.sys.g.loadSize l = (now.length + (s.load l).pool.length - s.uncounted l : Nat)) := by
  obtain ⟨hf, _, hc⟩ := (hp.invariant
    (I := fun s => Flow g.Created s ∧ Slots app s ∧ Counted g.Created s)
    (fun _ _ _ hs h => ⟨h.1.step hs.1.move, h.2.1.step h.1 hs.1.move,
      h.2.2.step h.1 h.2.1 hs.2 hs.1.move⟩)
    ⟨.start hv hg, .start app g, .start hg⟩).2
  obtain ⟨now, hnow, heq⟩ := hf.ended l hl
  obtain ⟨k, hk, hst⟩ := hc.started l hl
  have hended := hc.ended l hl
  have hqueue := congrArg List.length (hf.queue l hl)
  rw [← heq, List.length_append, List.length_append] at hqueue
  rw [Nat.mod_eq_of_lt (by omega)] at hst hended
  have hsum : (s.load l).pktStarted + s.uncounted l =
      (s.load l).pktEnded + (now.length + (s.load l).pool.length) := by omega
  refine ⟨now, hnow, hsum, fun hsmall => ?_⟩
  change (if (s.load l).pktEnded < (s.load l).pktStarted then
    i32 ((s.load l).pktStarted - (s.load l).pktEnded) else 0) = _
  split_ifs with hlt'
  · rw [i32_of_lt (by omega) (by omega)]
    omega
  · omega

theorem issueTwo_careful : ∃ g log s, Mapped smallConfig g ∧ g.Created ⟨0, 0⟩ ∧
    Path (CarefulStep smallConfig (mainApp sortedPlatform 0)) (startIo g) log s ∧
    s.issued.length = 2 := by
  obtain ⟨s, hs, hres⟩ := (Option.any_eq_true _ _).mp issueTwo_result
  obtain ⟨g, hg, hplay⟩ := Option.bind_eq_some_iff.mp hs
  obtain ⟨log, hlog, hp⟩ := replay_path hplay
  have hl : g.Created ⟨0, 0⟩ := by
    obtain ⟨g', hg', hl⟩ := smallStart_created
    obtain rfl : g = g' := Option.some.inj (hg.symm.trans hg')
    exact ⟨hl.1, Nat.lt_of_le_of_lt (Nat.zero_le 1) hl.2⟩
  refine ⟨g, log, s, startWith_mapped hg, hl, ?_, (of_decide_eq_true hres).1⟩
  -- no work unit takes a step, so none has released a slot
  refine hp.refine (I := fun s => ∀ c x, s.lwts c ≠ some (.released x)) (fun c x he => by cases he) ?_
  intro w s t hw hs hI
  refine ⟨?_, hs, fun _ _ _ _ c x _ _ _ _ hx => absurd hx (hI c x)⟩
  have hmove : IoMove smallConfig (mainApp sortedPlatform 0) s w t := IoStep.move hs
  cases hmove with
  | @begins c x b u _ _ _ =>
    intro d y hd
    by_cases hdc : d = c
    · simp [Io.setLwt, hdc] at hd
    · exact hI d y (by simpa [Io.setLwt, hdc] using hd)
  | release => simp [hlog, issueTwo, issue] at hw
  | find => simp [hlog, issueTwo, issue] at hw
  | read => simp [hlog, issueTwo, issue] at hw
  | finish => simp [hlog, issueTwo, issue] at hw
  | _ => exact hI

theorem load_size_exact_issueTwo : ∃ g log s now, Mapped smallConfig g ∧ g.Created ⟨0, 0⟩ ∧
    Path (CarefulStep smallConfig (mainApp sortedPlatform 0)) (startIo g) log s ∧
    (s.ofLoad ⟨0, 0⟩ (List.range s.issued.length)).length < 2 ^ 64 ∧ UnderWay s ⟨0, 0⟩ now ∧
    (s.load ⟨0, 0⟩).pktStarted + s.uncounted ⟨0, 0⟩ =
      (s.load ⟨0, 0⟩).pktEnded + (now.length + (s.load ⟨0, 0⟩).pool.length) := by
  obtain ⟨g, log, s, hm, hl, hp, hlen⟩ := issueTwo_careful
  have hlt : (s.ofLoad ⟨0, 0⟩ (List.range s.issued.length)).length < 2 ^ 64 := by
    refine Nat.lt_of_le_of_lt (List.length_filter_le _ _) ?_
    rw [hlen]
    decide
  obtain ⟨now, hnow, heq, _⟩ := load_size_exact smallConfig_valid hm hp hl hlt
  exact ⟨g, log, s, now, hm, hl, hp, hlt, hnow, heq⟩

/-- One slot. The work unit of the first request releases it on stream 1; the main
thread fills it for the second load before the work unit reads the pointer. -/
def refill : List Turn :=
  issue 0 ++ List.replicate 5 (.sys (.sched 1 false)) ++ [.lwt 1, .main false 0] ++
    List.replicate 4 (.main false 1) ++ List.replicate 3 (.lwt 1) ++ List.replicate 2 (.main false 1) ++
    List.replicate 5 (.sys (.sched 2 false)) ++ List.replicate 4 (.lwt 2)

theorem refill_result : (smallStart.bind fun g =>
    replay (ioNext smallConfig { mainApp sortedPlatform 0 with slots := 1 }) refill (startIo g)).any
      (fun s => decide (s.issued.length = 2 ∧ s.ended = [0, 1] ∧ (s.load ⟨0, 0⟩).pool = [] ∧
        s.sys.g.loadSize ⟨0, 0⟩ = 1 ∧ (s.load ⟨0, 1⟩).pktStarted = 1 ∧
        (s.load ⟨0, 1⟩).pktEnded = 2)) = true := by
  decide +kernel

/-- Without this care the counters go wrong for good: every request has ended, one
load keeps size 1 with nothing to do, and the other has ended more than it started. -/
theorem load_size_drifts : ∃ g log s, Mapped smallConfig g ∧
    Path (IoStep smallConfig { mainApp sortedPlatform 0 with slots := 1 }) (startIo g) log s ∧
    s.issued.length = 2 ∧ s.ended = [0, 1] ∧ (s.load ⟨0, 0⟩).pool = [] ∧
    s.sys.g.loadSize ⟨0, 0⟩ = 1 ∧ (s.load ⟨0, 1⟩).pktEnded = (s.load ⟨0, 1⟩).pktStarted + 1 := by
  obtain ⟨s, hs, hres⟩ := (Option.any_eq_true _ _).mp refill_result
  obtain ⟨g, hg, hplay⟩ := Option.bind_eq_some_iff.mp hs
  obtain ⟨log, _, hp⟩ := replay_path hplay
  obtain ⟨hlen, hended, hpool, hsize, hstarted, hover⟩ := of_decide_eq_true hres
  exact ⟨g, log, s, startWith_mapped hg, hp, hlen, hended, hpool, hsize, by rw [hover, hstarted]⟩

end AbtSt
