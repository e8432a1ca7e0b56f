import AbtSt.Io
import AbtSt.Mappings

/-! The requests of a load run one after the other in the order of their
creation, on whatever streams the load is, and the requests for one block go to
one load. -/

namespace AbtSt

section Records

variable {cfg : Config} {α : Type} {f : Load → α} {s t : Sys}

/-- A view of a load that the schedulers and the rebalancer never change. -/
structure Unscheduled (f : Load → α) : Prop where
  used : ∀ x u, f { x with used := u } = f x
  currRank : ∀ x r, f { x with currRank := r } = f x
  destRank : ∀ x r, f { x with destRank := r } = f x

theorem serve_keeps (hf : Unscheduled f) (c : Nat) (l : LoadId) (n : Nat) (s : Sys) (m : LoadId) :
    f ((serve c l n s).g.loads m) = f (s.g.loads m) := by
  unfold serve
  split_ifs
  · exact setLoad_keeps s l (x := { s.g.loads l with used := true }) (hf.used _ _) m
  · rfl

theorem baseStep_keeps {c : Nat} (h : BaseStep c s t)
    (hp : (∀ x p, f { x with pool := p } = f x) ∨ ∀ b, popped s (.sched c b) = none) (m : LoadId) :
    f (t.g.loads m) = f (s.g.loads m) := by
  cases h with
  | idle => rfl
  | pop => rfl
  | back hpc =>
    unfold pushBack
    dsimp only
    split_ifs <;> rfl
  | @run l k n hpc =>
    have hstep := subSchedRun_cases c l k n s
    generalize subSchedRun c l k n s = t at hstep ⊢
    cases hstep with
    | full => rfl
    | idle => rfl
    | again => rfl
    | @run x rest hk hpool =>
      rcases hp with hp | hp
      · exact setLoad_keeps s l (x := { s.g.loads l with pool := rest }) (hp _ _) m
      · have hnone := hp false
        rw [popped, hpc] at hnone
        simp [hk, hpool] at hnone

theorem splitSched_keeps (hf : Unscheduled f) {c : Nat} (h : SplitSched cfg c s t)
    (hp : (∀ x p, f { x with pool := p } = f x) ∨ ∀ b, popped s (.sched c b) = none) (m : LoadId) :
    f (t.g.loads m) = f (s.g.loads m) := by
  cases h with
  | base hb => exact baseStep_keeps hb hp m
  | @serve l n _ => exact serve_keeps hf c l n s m
  | @update l n r i _ =>
    exact setLoad_keeps s l (x := { s.g.loads l with currRank := r }) (hf.currRank _ _) m
  | @push l n i _ =>
    have hloads := (pushAt_frame cfg s i (.sched l)).2.1
    change f ((s.pushAt cfg i (.sched l)).g.loads m) = _
    rw [hloads]
  | _ => rfl

/-- A step changes the pools of the loads by a pop or by the creation of work,
and their counters not at all. -/
theorem SplitStep.keeps (hf : Unscheduled f) {a : Label} (h : SplitStep cfg a s t)
    (hp : (∀ x p, f { x with pool := p } = f x) ∨ (popped s a = none ∧ ∀ l x, a ≠ .create l x))
    (m : LoadId) : f (t.g.loads m) = f (s.g.loads m) := by
  unfold SplitStep at h
  cases a with
  | sched c b =>
    rw [next] at h
    split_ifs at h
    exact splitSched_keeps hf (splitStep_cases h) (hp.imp_right fun hp _ => hp.1) m
  | relink l src dst =>
    rw [next] at h
    split_ifs at h
    rw [← Option.some.inj h]
    rfl
  | setDest =>
    rw [next] at h
    cases hr : s.reb with
    | none =>
      rw [hr] at h
      cases h
    | some p =>
      obtain ⟨l, r⟩ := p
      rw [hr] at h
      rw [← Option.some.inj h]
      exact setLoad_keeps s l (x := { s.g.loads l with destRank := r }) (hf.destRank _ _) m
  | create l x =>
    rw [next] at h
    rw [← Option.some.inj h]
    rcases hp with hp | ⟨_, hp⟩
    · exact setLoad_keeps s l (x := { s.g.loads l with pool := (s.g.loads l).pool ++ [x] }) (hp _ _) m
    · exact absurd rfl (hp l x)
  | addThread c x =>
    rw [next] at h
    rw [← Option.some.inj h]
    rfl
  | setBlocking c x =>
    rw [next] at h
    rw [← Option.some.inj h]
    rfl
  | stop =>
    rw [next] at h
    rw [← Option.some.inj h]

theorem unscheduled_pool : Unscheduled Load.pool := ⟨fun _ _ => rfl, fun _ _ => rfl, fun _ _ => rfl⟩

theorem SplitStep.pops {b : Bool} {c x : Nat} (h : SplitStep cfg (.sched c b) s t)
    (hp : popped s (.sched c b) = some (c, x)) : ∃ l k n rest, (s.scheds c).pc = .running l k n ∧
      (s.g.loads l).pool = x :: rest ∧
      t = (s.setLoad l { s.g.loads l with pool := rest }).setPc c (.running l (k + 1) n) := by
  obtain ⟨_, l, k, n, rest, he, hpc, hk, hpool⟩ := popped_sched hp
  refine ⟨l, k, n, rest, hpc, hpool, ?_⟩
  unfold SplitStep at h
  rw [next] at h
  split_ifs at h
  rw [splitStep, hpc] at h
  dsimp only at h
  rw [baseStep, hpc] at h
  dsimp only at h
  rw [subSchedRun, if_neg (Nat.not_le.mpr hk), hpool] at h
  exact (Option.some.inj h).symm

end Records

/-- The unit of a load is at one place at most, and only units of `S` are about. -/
structure Sited (S : LoadId → Prop) (s : Sys) : Prop where
  exclusive : Exclusive s
  created : ∀ l c, 0 < s.located l c → S l

section Flow

variable {cfg : Config} {app : App} {S : LoadId → Prop} {s t : Io}

theorem Sited.step {a : Label} {s t : Sys} (h : Sited S s) (hs : SplitStep cfg a s t) : Sited S t := by
  refine ⟨h.exclusive.step hs.move, fun l c hc => ?_⟩
  rcases hs.move.located h.exclusive with ⟨_, hl⟩ | ⟨_, _, _, _, _, _, _, _, _, hle⟩ |
    ⟨d, _, m, _, _, _, hpc, _, hother, _⟩
  · exact h.created l c (by rw [← hl]; exact hc)
  · have := hle l c
    exact h.created l c (by omega)
  · by_cases hm : l = m
    · subst hm
      exact h.created l d (located_held (by rw [hpc]; rfl))
    · exact h.created l c (by rw [← hother l hm]; exact hc)

theorem Sited.setLoad {s : Sys} (h : Sited S s) (l : LoadId) {x : Load}
    (hc : x.currRank = (s.g.loads l).currRank) (hd : x.destRank = (s.g.loads l).destRank) :
    Sited S (s.setLoad l x) := by
  have hsame := sites_setLoad s l x hc hd
  refine ⟨h.exclusive.of_located hsame.located hsame.dropped hsame.stopping, fun m c hm => ?_⟩
  rw [hsame.located] at hm
  exact h.created m c hm

theorem Sited.running {s : Sys} (h : Sited S s) {c k n : Nat} {l : LoadId}
    (hpc : (s.scheds c).pc = .running l k n) : S l ∧ ∀ d k' n', (s.scheds d).pc = .running l k' n' → d = c := by
  have hc : 0 < s.located l c := located_held (by rw [hpc]; rfl)
  refine ⟨h.created l c hc, fun d k' n' hd => ?_⟩
  exact h.exclusive.unique l d c (located_held (by rw [hd]; rfl)) hc

theorem ofLoad_append (s : Io) (l : LoadId) (ts us : List Nat) :
    s.ofLoad l (ts ++ us) = s.ofLoad l ts ++ s.ofLoad l us := List.filter_append _ _

theorem ofLoad_single (s : Io) (l : LoadId) (t : Nat) :
    s.ofLoad l [t] = if s.loadOf t = some l then [t] else [] := by
  by_cases h : s.loadOf t = some l <;> simp [Io.ofLoad, h]

theorem mem_ofLoad {l : LoadId} {ts : List Nat} {x : Nat} :
    x ∈ s.ofLoad l ts ↔ x ∈ ts ∧ s.loadOf x = some l := by
  simp [Io.ofLoad]

theorem ofLoad_congr (hi : t.issued = s.issued) (l : LoadId) (ts : List Nat) :
    t.ofLoad l ts = s.ofLoad l ts := by
  unfold Io.ofLoad Io.loadOf
  rw [hi]

theorem loadOf_append {r : Request} (hi : t.issued = s.issued ++ [r]) {x : Nat}
    (hx : x < s.issued.length) : t.loadOf x = s.loadOf x := by
  unfold Io.loadOf
  rw [hi, List.getElem?_append_left hx]

theorem loadOf_last {r : Request} (hi : t.issued = s.issued ++ [r]) :
    t.loadOf s.issued.length = some r.load := by
  unfold Io.loadOf
  rw [hi]
  simp

theorem loadOf_lt {x : Nat} {l : LoadId} (h : s.loadOf x = some l) : x < s.issued.length := by
  obtain ⟨r, hr, _⟩ := Option.map_eq_some_iff.mp h
  exact (List.getElem?_eq_some_iff.mp hr).1

theorem ofLoad_issue {r : Request} (hi : t.issued = s.issued ++ [r]) (l : LoadId) {ts : List Nat}
    (hts : ∀ x ∈ ts, x < s.issued.length) : t.ofLoad l ts = s.ofLoad l ts := by
  apply List.filter_congr
  intro x hx
  rw [loadOf_append hi (hts x hx)]

/-- The requests for a load that are under way: none, or one on one stream. -/
structure UnderWay (s : Io) (l : LoadId) (now : List Nat) : Prop where
  le_one : now.length ≤ 1
  mem_iff : ∀ t, t ∈ now ↔ s.loadOf t = some l ∧ ∃ c, s.requestOn c = some t

/-- For each load: what has begun and what is queued are the requests issued for
it, in order, and what has ended and what is under way are those that have begun. -/
structure Flow (S : LoadId → Prop) (s : Io) : Prop where
  sited : Sited S s.sys
  known : ∀ t, t ∈ s.begun ∨ t ∈ s.ended → ∃ l, S l ∧ s.loadOf t = some l
  queue : ∀ l, S l → s.ofLoad l s.begun ++ (s.load l).pool = s.ofLoad l (List.range s.issued.length)
  running : ∀ c t, s.requestOn c = some t →
    ∃ l k n, (s.sys.scheds c).pc = .running l (k + 1) n ∧ s.loadOf t = some l
  ended : ∀ l, S l → ∃ now, UnderWay s l now ∧ s.ofLoad l s.ended ++ now = s.ofLoad l s.begun

theorem Flow.known_lt (h : Flow S s) {x : Nat} (hx : x ∈ s.begun ∨ x ∈ s.ended) : x < s.issued.length := by
  obtain ⟨l, _, hl⟩ := h.known x hx
  exact loadOf_lt hl

theorem Flow.request_unique (h : Flow S s) {c d x y : Nat} (hx : s.requestOn c = some x)
    (hy : s.requestOn d = some y) (hl : s.loadOf x = s.loadOf y) : c = d := by
  obtain ⟨l, k, n, hpc, hxl⟩ := h.running c x hx
  obtain ⟨m, k', n', hpd, hym⟩ := h.running d y hy
  obtain rfl : l = m := Option.some.inj (by rw [← hxl, ← hym, hl])
  exact (h.sited.running hpd).2 c _ _ hpc

theorem Flow.under_way (h : Flow S s) {c x : Nat} {l : LoadId} (hx : s.requestOn c = some x)
    (hl : s.loadOf x = some l) : s.ofLoad l s.ended ++ [x] = s.ofLoad l s.begun := by
  obtain ⟨m, k, n, hpc, hxl⟩ := h.running c x hx
  obtain rfl : m = l := Option.some.inj (hxl.symm.trans hl)
  obtain ⟨now, hnow, heq⟩ := h.ended m (h.sited.running hpc).1
  have hin : x ∈ now := (hnow.mem_iff x).mpr ⟨hl, c, hx⟩
  obtain ⟨y, rfl⟩ : ∃ y, now = [y] :=
    List.length_eq_one_iff.mp (Nat.le_antisymm hnow.le_one (List.length_pos_of_mem hin))
  rw [List.mem_singleton.mp hin, heq]

theorem Flow.of_quiet (h : Flow S s) (hsited : Sited S t.sys) (hi : t.issued = s.issued)
    (hb : t.begun = s.begun) (he : t.ended = s.ended) (hr : ∀ c, t.requestOn c = s.requestOn c)
    (hp : ∀ l, (t.load l).pool = (s.load l).pool)
    (hpc : ∀ c x, s.requestOn c = some x → (t.sys.scheds c).pc = (s.sys.scheds c).pc) : Flow S t := by
  have hload : ∀ x, t.loadOf x = s.loadOf x := fun x => by rw [Io.loadOf, Io.loadOf, hi]
  refine ⟨hsited, ?_, ?_, ?_, ?_⟩
  · intro x hx
    rw [hb, he] at hx
    rw [hload]
    exact h.known x hx
  · intro l hl
    rw [ofLoad_congr hi, ofLoad_congr hi, hp, hb, hi]
    exact h.queue l hl
  · intro c x hx
    rw [hr] at hx
    rw [hload, hpc c x hx]
    exact h.running c x hx
  · intro l hl
    obtain ⟨now, hnow, heq⟩ := h.ended l hl
    refine ⟨now, ⟨hnow.le_one, fun x => ?_⟩, ?_⟩
    · simp only [hnow.mem_iff, hload, hr]
    · rw [ofLoad_congr hi, ofLoad_congr hi, hb, he]
      exact heq

theorem requestOn_setLwt (s : Io) (c : Nat) (p : Option LwtPc) (d : Nat) :
    (s.setLwt c p).requestOn d = if d = c then p.map LwtPc.request else s.requestOn d := by
  by_cases hd : d = c
  · subst hd
    simp [Io.requestOn, Io.setLwt]
  · simp [Io.requestOn, Io.setLwt, hd]

theorem requestOn_none {c : Nat} (h : s.lwts c = none) : s.requestOn c = none := by
  simp [Io.requestOn, h]

theorem requestOn_some {c : Nat} {p : LwtPc} (h : s.lwts c = some p) :
    s.requestOn c = some p.request := by
  simp [Io.requestOn, h]

theorem Flow.idle (h : Flow S s) {c k n : Nat} {l : LoadId} (hpc : (s.sys.scheds c).pc = .running l k n)
    (hfree : s.requestOn c = none) {d x : Nat} (hx : s.requestOn d = some x) : s.loadOf x ≠ some l := by
  intro hload
  obtain ⟨m, k', n', hpd, hm⟩ := h.running d x hx
  obtain rfl : m = l := Option.some.inj (hm.symm.trans hload)
  rw [(h.sited.running hpc).2 d _ _ hpd, hfree] at hx
  cases hx

/-- The head `x` of the pool of load `l` begins on stream `c`. -/
theorem Flow.of_begin (h : Flow S s) (hsited : Sited S t.sys) {c k n x : Nat} {l : LoadId}
    (hpc : (s.sys.scheds c).pc = .running l k n) (hpc' : (t.sys.scheds c).pc = .running l (k + 1) n)
    (hothers : ∀ d, d ≠ c → t.sys.scheds d = s.sys.scheds d)
    (hpool : (s.load l).pool = x :: (t.load l).pool)
    (hpools : ∀ m, m ≠ l → (t.load m).pool = (s.load m).pool) (hi : t.issued = s.issued)
    (hb : t.begun = s.begun ++ [x]) (he : t.ended = s.ended) (hfree : s.requestOn c = none)
    (hreq : ∀ d, t.requestOn d = if d = c then some x else s.requestOn d) : Flow S t := by
  have hload : ∀ y, t.loadOf y = s.loadOf y := fun y => by rw [Io.loadOf, Io.loadOf, hi]
  have hqueue := h.queue l (h.sited.running hpc).1
  have hx : s.loadOf x = some l := by
    have hmem : x ∈ s.ofLoad l (List.range s.issued.length) := by
      rw [← hqueue, hpool]
      simp
    exact (mem_ofLoad.mp hmem).2
  have hbegun : ∀ m, t.ofLoad m t.begun = s.ofLoad m s.begun ++ if m = l then [x] else [] := by
    intro m
    rw [ofLoad_congr hi, hb, ofLoad_append, ofLoad_single, hx]
    by_cases hml : m = l
    · simp [hml]
    · have hlm : ¬ l = m := fun he => hml he.symm
      simp [hml, hlm]
  refine ⟨hsited, ?_, ?_, ?_, ?_⟩
  · rw [hb, he]
    rintro y (hy | hy) <;> rw [hload]
    · rcases List.mem_append.mp hy with hy | hy
      · exact h.known y (Or.inl hy)
      · rw [List.mem_singleton.mp hy]
        exact ⟨l, (h.sited.running hpc).1, hx⟩
    · exact h.known y (Or.inr hy)
  · intro m hm
    rw [hbegun, ofLoad_congr hi, hi, ← h.queue m hm]
    by_cases hml : m = l
    · subst hml
      rw [if_pos rfl, hpool, List.append_assoc, List.singleton_append]
    · rw [if_neg hml, hpools m hml, List.append_nil]
  · intro d y hy
    rw [hreq] at hy
    rw [hload]
    by_cases hdc : d = c
    · rw [if_pos hdc] at hy
      obtain rfl := Option.some.inj hy
      exact ⟨l, k, n, by rw [hdc, hpc'], hx⟩
    · rw [if_neg hdc] at hy
      rw [hothers d hdc]
      exact h.running d y hy
  · intro m hm
    obtain ⟨now, hnow, heq⟩ := h.ended m hm
    rw [hbegun, ofLoad_congr hi, he]
    by_cases hml : m = l
    · -- no other stream is at the load, so nothing of it was under way
      subst hml
      have hnil : now = [] := by
        apply List.eq_nil_iff_forall_not_mem.mpr
        intro y hy
        obtain ⟨hym, d, hd⟩ := (hnow.mem_iff y).mp hy
        exact h.idle hpc hfree hd hym
      rw [hnil, List.append_nil] at heq
      refine ⟨[x], ⟨Nat.le_refl 1, fun y => ?_⟩, by rw [heq, if_pos rfl]⟩
      simp only [List.mem_singleton, hload, hreq]
      constructor
      · rintro rfl
        exact ⟨hx, c, if_pos rfl⟩
      · rintro ⟨hym, d, hd⟩
        by_cases hdc : d = c
        · rw [if_pos hdc] at hd
          exact (Option.some.inj hd).symm
        · rw [if_neg hdc] at hd
          exact absurd hym (h.idle hpc hfree hd)
    · refine ⟨now, ⟨hnow.le_one, fun y => ?_⟩, by rw [if_neg hml, List.append_nil, heq]⟩
      rw [hnow.mem_iff, hload]
      refine and_congr_right fun hym => exists_congr fun d => ?_
      rw [hreq]
      by_cases hdc : d = c
      · have hyx : x ≠ y := by
          rintro rfl
          exact hml (Option.some.inj (hym.symm.trans hx))
        simp [hdc, hfree, hyx]
      · rw [if_neg hdc]

theorem Flow.of_finish (h : Flow S s) (hsited : Sited S t.sys) {c x : Nat}
    (hscheds : t.sys.scheds = s.sys.scheds) (hpools : ∀ m, (t.load m).pool = (s.load m).pool)
    (hi : t.issued = s.issued) (hb : t.begun = s.begun) (he : t.ended = s.ended ++ [x])
    (hx : s.requestOn c = some x)
    (hreq : ∀ d, t.requestOn d = if d = c then none else s.requestOn d) : Flow S t := by
  have hload : ∀ y, t.loadOf y = s.loadOf y := fun y => by rw [Io.loadOf, Io.loadOf, hi]
  obtain ⟨l, k, n, hpc, hxl⟩ := h.running c x hx
  refine ⟨hsited, ?_, ?_, ?_, ?_⟩
  · rw [hb, he]
    rintro y (hy | hy) <;> rw [hload]
    · exact h.known y (Or.inl hy)
    · rcases List.mem_append.mp hy with hy | hy
      · exact h.known y (Or.inr hy)
      · rw [List.mem_singleton.mp hy]
        exact ⟨l, (h.sited.running hpc).1, hxl⟩
  · intro m hm
    rw [ofLoad_congr hi, ofLoad_congr hi, hpools, hb, hi]
    exact h.queue m hm
  · intro d y hy
    rw [hreq] at hy
    split_ifs at hy
    rw [hload, hscheds]
    exact h.running d y hy
  · intro m hm
    rw [ofLoad_congr hi, ofLoad_congr hi, hb, he, ofLoad_append, ofLoad_single, hxl]
    by_cases hml : m = l
    · subst hml
      refine ⟨[], ⟨Nat.zero_le 1, fun y => ?_⟩, by rw [if_pos rfl, List.append_nil, h.under_way hx hxl]⟩
      simp only [List.not_mem_nil, hload, hreq, false_iff]
      rintro ⟨hym, d, hd⟩
      split_ifs at hd with hdc
      exact hdc (h.request_unique hd hx (hym.trans hxl.symm))
    · have hlm : ¬ l = m := fun he => hml he.symm
      obtain ⟨now, hnow, heq⟩ := h.ended m hm
      refine ⟨now, ⟨hnow.le_one, fun y => ?_⟩, by simp [hlm, heq]⟩
      rw [hnow.mem_iff, hload]
      refine and_congr_right fun hym => exists_congr fun d => ?_
      rw [hreq]
      by_cases hdc : d = c
      · have hyx : ¬ x = y := by
          rintro rfl
          exact hml (Option.some.inj (hym.symm.trans hxl))
        simp [hdc, hx, hyx]
      · rw [if_neg hdc]

theorem Flow.of_issue (h : Flow S s) (hsited : Sited S t.sys) {r : Request}
    (hscheds : t.sys.scheds = s.sys.scheds)
    (hpool : (t.load r.load).pool = (s.load r.load).pool ++ [s.issued.length])
    (hpools : ∀ m, m ≠ r.load → (t.load m).pool = (s.load m).pool)
    (hi : t.issued = s.issued ++ [r]) (hb : t.begun = s.begun) (he : t.ended = s.ended)
    (hreq : ∀ d, t.requestOn d = s.requestOn d) : Flow S t := by
  have hold : ∀ m ts, (∀ x ∈ ts, x ∈ s.begun ∨ x ∈ s.ended) → t.ofLoad m ts = s.ofLoad m ts :=
    fun m ts hts => ofLoad_issue hi m (fun x hx => h.known_lt (hts x hx))
  have hbegun : ∀ m, t.ofLoad m s.begun = s.ofLoad m s.begun := fun m => hold m _ fun _ => Or.inl
  refine ⟨hsited, ?_, ?_, ?_, ?_⟩
  · intro x hx
    rw [hb, he] at hx
    obtain ⟨l, hl, hxl⟩ := h.known x hx
    exact ⟨l, hl, by rw [loadOf_append hi (loadOf_lt hxl), hxl]⟩
  · intro m hm
    have hlen : t.issued.length = s.issued.length + 1 := by simp [hi]
    rw [hb, hbegun, hlen, List.range_succ, ofLoad_append, ofLoad_single, loadOf_last hi,
      ofLoad_issue hi m (fun x => List.mem_range.mp), ← h.queue m hm, List.append_assoc]
    by_cases hml : m = r.load
    · subst hml
      rw [hpool, if_pos rfl]
    · rw [hpools m hml, if_neg (fun he => hml (Option.some.inj he).symm), List.append_nil]
  · intro d x hx
    rw [hreq] at hx
    obtain ⟨l, k, n, hpc, hxl⟩ := h.running d x hx
    exact ⟨l, k, n, by rw [hscheds, hpc], by rw [loadOf_append hi (loadOf_lt hxl), hxl]⟩
  · intro m hm
    obtain ⟨now, hnow, heq⟩ := h.ended m hm
    refine ⟨now, ⟨hnow.le_one, fun x => ?_⟩, ?_⟩
    · rw [hnow.mem_iff]
      simp only [hreq]
      refine and_congr_left fun ⟨c, hc⟩ => ?_
      obtain ⟨l, _, _, _, hxl⟩ := h.running c x hc
      rw [loadOf_append hi (loadOf_lt hxl)]
    · rw [hb, he, hbegun, hold m _ fun _ => Or.inr, heq]

theorem Flow.step {w : Turn} (h : Flow S s) (hm : IoMove cfg app s w t) : Flow S t := by
  have hquiet : ∀ {c : Nat} {p q : LwtPc}, s.lwts c = some p → q.request = p.request →
      ∀ d, (s.setLwt c (some q)).requestOn d = s.requestOn d := by
    intro c p q hp hq d
    rw [requestOn_setLwt]
    by_cases hd : d = c
    · rw [if_pos hd, hd, requestOn_some hp, Option.map_some, hq]
    · rw [if_neg hd]
  cases hm with
  | sys hcreate hfree hs hp =>
    refine h.of_quiet (h.sited.step hs) rfl rfl rfl (fun _ => rfl)
      (hs.keeps unscheduled_pool (Or.inr ⟨hp, hcreate⟩)) (fun c x hx => ?_)
    rw [hs.scheds_of_ne (fun b he => ?_)]
    rw [requestOn_none (hfree c b he)] at hx
    cases hx
  | @begins c x b u hfree hs hp =>
    obtain ⟨l, k, n, rest, hpc, hpool, rfl⟩ := hs.pops hp
    refine h.of_begin (h.sited.step hs) hpc ?_ ?_ ?_ ?_ rfl rfl rfl (requestOn_none hfree)
      (requestOn_setLwt _ c (some (.work x)))
    · simp [Io.setLwt, Sys.setPc, Sys.setSched]
    · intro d hd
      simp [Io.setLwt, Sys.setPc, Sys.setSched, Sys.setLoad, hd]
    · simp [Io.load, Io.setLwt, Sys.setPc, Sys.setSched, Sys.setLoad, Global.setLoad, hpool]
    · intro m hm
      simp [Io.load, Io.setLwt, Sys.setPc, Sys.setSched, Sys.setLoad, Global.setLoad, hm]
  | release hl _ =>
    exact h.of_quiet h.sited rfl rfl rfl (hquiet hl rfl) (fun _ => rfl) (fun _ _ _ => rfl)
  | find hl _ _ =>
    exact h.of_quiet h.sited rfl rfl rfl (hquiet hl rfl) (fun _ => rfl) (fun _ _ _ => rfl)
  | read hl => exact h.of_quiet h.sited rfl rfl rfl (hquiet hl rfl) (fun _ => rfl) (fun _ _ _ => rfl)
  | @finish c x v l hl =>
    exact h.of_finish (h.sited.setLoad l rfl rfl) rfl (setLoad_keeps s.sys l rfl) rfl rfl rfl
      (requestOn_some hl) (requestOn_setLwt _ c none)
  | create _ hs =>
    have hsited := h.sited.step hs
    unfold SplitStep at hs
    rw [next] at hs
    obtain rfl := Option.some.inj hs
    refine h.of_issue hsited rfl ?_ ?_ rfl rfl rfl (fun _ => rfl)
    · simp [Io.load, Sys.setLoad, Global.setLoad]
    · intro m hm
      simp [Io.load, Sys.setLoad, Global.setLoad, hm]
  | @count b z i l _ =>
    exact h.of_quiet (h.sited.setLoad l rfl rfl) rfl rfl rfl (fun _ => rfl) (setLoad_keeps s.sys l rfl)
      (fun _ _ _ => rfl)
  | stop _ hs =>
    exact h.of_quiet (h.sited.step hs) rfl rfl rfl (fun _ => rfl)
      (hs.keeps unscheduled_pool (Or.inr ⟨rfl, fun _ _ he => by cases he⟩))
      (fun c x _ => by rw [hs.scheds_of_ne (fun b he => by cases he)])
  | _ => exact h.of_quiet h.sited rfl rfl rfl (fun _ => rfl) (fun _ => rfl) (fun _ _ _ => rfl)

end Flow

section Start

variable {cfg : Config} {app : App} {g : Global}

/-- Nothing has been created in a load or counted. -/
def Unworked (x : Load) : Prop := x.pool = [] ∧ x.pktStarted = 0 ∧ x.pktEnded = 0

theorem initLoadsLoop_unworked {abt : Nat → AbtCall → Bool} {m p : Nat} (n i start : Nat) {g : Global}
    {l : LoadId} (h : Unworked (g.loads l)) :
    Unworked ((initLoadsLoop cfg abt m p n i start g).2.loads l) := by
  refine initLoadsLoop_keeps (I := fun g => Unworked (g.loads l)) (fun g i r h => ?_)
    (fun _ _ _ h => h) n i start h
  by_cases hl : l = ⟨m, i⟩
  · simp [initLoad, Global.setLoad, hl, Unworked]
  · simpa [initLoad, Global.setLoad, hl] using h

theorem Mapped.unworked (h : Mapped cfg g) {l : LoadId} (hl : l.mapping < g.nrMappings) :
    Unworked (g.loads l) := by
  induction h with
  | @start g g' abt hm hs =>
    have hno : g'.nrMappings = 0 := by
      unfold abtstInitStreams at hs
      dsimp only at hs
      split_ifs at hs
      obtain rfl := Option.some.inj hs
      exact hm
    rw [hno] at hl
    exact absurd hl (Nat.not_lt_zero _)
  | @create g g' abt type partid id _ hc hid ih =>
    obtain ⟨hnext, n, rfl⟩ := abtstCreateMapping_loop hc hid
    apply initLoadsLoop_unworked
    by_cases hlast : l.mapping = g.nrMappings
    · simp [nextMapping, hlast, Unworked]
    · rw [hnext] at hl
      simpa [nextMapping, hlast] using ih (by omega)

theorem Flow.start (hv : cfg.Valid) (hg : Mapped cfg g) : Flow g.Created (startIo g) := by
  have hinit := hg.initial hv
  have hnil : ∀ l, (startIo g).ofLoad l [] = [] := fun _ => rfl
  refine ⟨⟨.launch hinit, fun l c hc => ?_⟩, ?_, ?_, ?_, ?_⟩
  · change 0 < (launch g).located l c at hc
    rw [launch_located hinit] at hc
    split_ifs at hc with hl
    · exact (hinit.laid.linked.mem_iff l).mpr ⟨c, hl⟩
    · exact absurd hc (Nat.lt_irrefl 0)
  · rintro t (ht | ht) <;> cases ht
  · intro l hl
    exact (hg.unworked hl.1).1
  · intro c t ht
    cases ht
  · intro l _
    refine ⟨[], ⟨Nat.zero_le 1, fun t => ?_⟩, rfl⟩
    simp [Io.requestOn, startIo]

theorem Flow.run (hv : cfg.Valid) (hg : Mapped cfg g) {log : List (Turn × Io)} {s : Io}
    (hp : Path (IoStep cfg app) (startIo g) log s) : Flow g.Created s :=
  (hp.invariant (I := Flow g.Created) (fun _ _ _ hs h => h.step hs.move) (.start hv hg)).2

theorem Move.mappings {a : Label} {s t : Sys} (h : Move cfg s a t) : t.g.mappings = s.g.mappings := by
  cases h with
  | same h => exact h.queues.mappings
  | @push c n b l i _ =>
    change (s.pushAt cfg i (.sched l)).g.mappings = _
    unfold Sys.pushAt
    split_ifs <;> rfl
  | _ => rfl

/-- Every request is issued to the load that the mapping of the start gives its key. -/
structure Routed (app : App) (g : Global) (s : Io) : Prop where
  mappings : s.sys.g.mappings = g.mappings
  issued : ∀ r ∈ s.issued, ∃ z, mapKeyToLoad app g z r.key = .ok r.load
  routed : ∀ i l, s.main = .create i l → ∃ z, mapKeyToLoad app g z (s.params i).key = .ok l

theorem mapKeyToLoad_congr {g g' : Global} (h : g'.mappings = g.mappings) (z : UInt32)
    (key : UserKey) : mapKeyToLoad app g' z key = mapKeyToLoad app g z key := by
  unfold mapKeyToLoad
  rw [h]

theorem Routed.start (app : App) (g : Global) : Routed app g (startIo g) :=
  ⟨rfl, fun _ hr => (by cases hr), fun _ _ he => (by cases he)⟩

theorem Routed.step {w : Turn} {s t : Io} (h : Routed app g s) (hm : IoMove cfg app s w t) :
    Routed app g t := by
  cases hm with
  | sys _ _ hs _ => exact ⟨hs.move.mappings.trans h.mappings, h.issued, h.routed⟩
  | begins _ hs _ => exact ⟨hs.move.mappings.trans h.mappings, h.issued, h.routed⟩
  | @release c t r _ _ =>
    refine ⟨h.mappings, h.issued, fun i l hi => ?_⟩
    obtain ⟨z, hz⟩ := h.routed i l hi
    refine ⟨z, ?_⟩
    rw [← hz]
    by_cases hir : i = r.slot <;> simp [Io.setLwt, Io.setParam, hir]
  | scan _ hnext =>
    refine ⟨h.mappings, h.issued, fun i l hi => ?_⟩
    obtain rfl : _ = MainPc.create i l := hi
    rcases hnext with he | he | he | ⟨he, _⟩ <;> cases he
  | @route b z i l _ hl =>
    refine ⟨h.mappings, h.issued, fun j m hj => ⟨z, ?_⟩⟩
    obtain ⟨rfl, rfl⟩ : i = j ∧ l = m := by simpa using hj
    rw [mapKeyToLoad_congr h.mappings] at hl
    simpa [Io.setParam] using hl
  | @create b z i l u hi hs =>
    refine ⟨hs.move.mappings.trans h.mappings, fun r hr => ?_, fun _ _ he => by cases he⟩
    rcases List.mem_append.mp hr with hr | hr
    · exact h.issued r hr
    · rw [List.mem_singleton.mp hr]
      exact h.routed i l hi
  | find => exact ⟨h.mappings, h.issued, h.routed⟩
  | read => exact ⟨h.mappings, h.issued, h.routed⟩
  | finish => exact ⟨h.mappings, h.issued, h.routed⟩
  | stop _ hs => exact ⟨hs.move.mappings.trans h.mappings, h.issued, fun _ _ he => by cases he⟩
  | _ => exact ⟨h.mappings, h.issued, fun _ _ he => by cases he⟩

/-- Two keys of one block go to one load, also where the division traps. -/
theorem mapKeyToLoad_block (htype : (g.mappings app.mapping).type = mappingTypeHashing) (z z' : UInt32)
    {k k' : UserKey} (hvol : k.volumeId = k'.volumeId)
    (hblock : k.lba / app.hash.blockSize.toUInt64 = k'.lba / app.hash.blockSize.toUInt64) :
    mapKeyToLoad app g z k = mapKeyToLoad app g z' k' := by
  have hdiv : app.pf.div64 k.lba app.hash.blockSize.toUInt64 =
      app.pf.div64 k'.lba app.hash.blockSize.toUInt64 := by
    by_cases hb : app.hash.blockSize.toUInt64 = 0
    · simp [Platform.div64, Platform.div, hb]
    · rw [Platform.div64_pos hb, Platform.div64_pos hb, hblock]
  unfold mapKeyToLoad mappingToLoad
  rw [if_pos htype, if_pos htype, hashMappingToLoad, hashMappingToLoad, hdiv, hvol]

end Start

/-- Two requests for the same block of the same volume. -/
def SameBlock (app : App) (r r' : Request) : Prop :=
  r.key.volumeId = r'.key.volumeId ∧
    r.key.lba / app.hash.blockSize.toUInt64 = r'.key.lba / app.hash.blockSize.toUInt64

theorem range_filter_lt {p : Nat → Bool} {n : Nat} {as bs : List Nat} {t u : Nat}
    (h : as ++ bs = (List.range n).filter p) (hu : u ∈ as) (ht : t < u) (hp : p t = true) : t ∈ as := by
  have hsorted : (as ++ bs).Pairwise (· < ·) := by
    rw [h]
    exact List.pairwise_lt_range.filter _
  have hun : u ∈ (List.range n).filter p := by
    rw [← h]
    exact List.mem_append_left bs hu
  have hlt : t < n := Nat.lt_trans ht (List.mem_range.mp (List.mem_filter.mp hun).1)
  have hmem : t ∈ as ++ bs := by
    rw [h]
    exact List.mem_filter.mpr ⟨List.mem_range.mpr hlt, hp⟩
  rcases List.mem_append.mp hmem with hmem | hmem
  · exact hmem
  · have := (List.pairwise_append.mp hsorted).2.2 u hu t hmem
    omega

/-- Of two requests for one load the earlier has ended when the later has begun. -/
theorem Flow.ended_of_lt {S : LoadId → Prop} {s : Io} (h : Flow S s) {l : LoadId} {t u : Nat}
    (ht : s.loadOf t = some l) (hu : s.loadOf u = some l) (hlt : t < u) (hbegun : u ∈ s.begun) :
    t ∈ s.ended := by
  have hl : S l := by
    obtain ⟨m, hm, hum⟩ := h.known u (Or.inl hbegun)
    obtain rfl : l = m := Option.some.inj (hu.symm.trans hum)
    exact hm
  have hub : u ∈ s.ofLoad l s.begun := mem_ofLoad.mpr ⟨hbegun, hu⟩
  have htb := range_filter_lt (h.queue l hl) hub hlt (by simpa using ht)
  obtain ⟨now, hnow, heq⟩ := h.ended l hl
  -- the request under way is the last that has begun, so it is not `t`
  have hsorted : (s.ofLoad l s.begun).Pairwise (· < ·) := by
    have hall : (s.ofLoad l (List.range s.issued.length)).Pairwise (· < ·) :=
      List.pairwise_lt_range.filter _
    rw [← h.queue l hl] at hall
    exact (List.pairwise_append.mp hall).1
  rw [← heq] at hsorted hub htb
  rcases List.mem_append.mp htb with htb | htb
  · exact (mem_ofLoad.mp htb).1
  · obtain rfl : now = [t] := by
      obtain ⟨y, rfl⟩ := List.length_eq_one_iff.mp
        (Nat.le_antisymm hnow.le_one (List.length_pos_of_mem htb))
      rw [List.mem_singleton.mp htb]
    rcases List.mem_append.mp hub with hub | hub
    · have := (List.pairwise_append.mp hsorted).2.2 u hub t (List.mem_singleton_self t)
      omega
    · have := List.mem_singleton.mp hub
      omega

/-- In every interleaving the requests for a load begin in the order of their
creation, none twice and none left out, and on one stream at a time; a request
begins only when every earlier one for the same block has ended. -/
theorem requests_in_order {cfg : Config} (hv : cfg.Valid) {g : Global} (hg : Mapped cfg g) {app : App}
    {log : List (Turn × Io)} {s : Io} (hp : Path (IoStep cfg app) (startIo g) log s) :
    (∀ l, g.Created l →
      s.ofLoad l s.begun ++ (s.load l).pool = s.ofLoad l (List.range s.issued.length) ∧
      ∃ now, UnderWay s l now ∧ s.ofLoad l s.ended ++ now = s.ofLoad l s.begun) ∧
    (∀ c d t u, s.requestOn c = some t → s.requestOn d = some u → s.loadOf t = s.loadOf u → c = d) ∧
    ((g.mappings app.mapping).type = mappingTypeHashing →
      ∀ t u r r', s.issued[t]? = some r → s.issued[u]? = some r' → SameBlock app r r' →
      r.load = r'.load ∧ (t < u → u ∈ s.begun → t ∈ s.ended)) := by
  have hflow := Flow.run hv hg hp
  have hroute : Routed app g s :=
    (hp.invariant (I := Routed app g) (fun _ _ _ hs h => h.step hs.move) (.start app g)).2
  refine ⟨fun l hl => ⟨hflow.queue l hl, hflow.ended l hl⟩, fun c d t u => hflow.request_unique, ?_⟩
  intro htype t u r r' ht hu hblock
  have hsame : r.load = r'.load := by
    obtain ⟨z, hr⟩ := hroute.issued r (List.mem_of_getElem? ht)
    obtain ⟨z', hr'⟩ := hroute.issued r' (List.mem_of_getElem? hu)
    rw [mapKeyToLoad_block htype z z' hblock.1 hblock.2] at hr
    exact Except.ok.inj (hr.symm.trans hr')
  have htl : s.loadOf t = some r.load := by rw [Io.loadOf, ht, Option.map_some]
  have hul : s.loadOf u = some r.load := by rw [Io.loadOf, hu, Option.map_some, hsame]
  exact ⟨hsame, hflow.ended_of_lt htl hul⟩

/-- The main thread takes the next slot; `z` chooses the load if the mapping is random. -/
def issue (z : UInt32) : List Turn := List.replicate 6 (.main false z)

/-- Two requests for the first load, and the first of them begins on stream 1. -/
def issueTwo : List Turn := issue 0 ++ issue 0 ++ List.replicate 5 (.sys (.sched 1 false))

theorem issueTwo_result : (smallStart.bind fun g =>
    replay (ioNext smallConfig (mainApp sortedPlatform 0)) issueTwo (startIo g)).any
      (fun s => decide (s.issued.length = 2 ∧ s.begun = [0] ∧ s.lwts 1 = some (.work 0) ∧
        s.issued[0]?.map Request.slot = some 0 ∧ s.main.left = false)) = true := by
  decide +kernel

theorem requests_in_order_issueTwo : ∃ g log s, Mapped smallConfig g ∧
    Path (IoStep smallConfig (mainApp sortedPlatform 0)) (startIo g) log s ∧ s.begun = [0] ∧
    s.requestOn 1 = some 0 ∧ s.ofLoad ⟨0, 0⟩ s.begun ++ (s.load ⟨0, 0⟩).pool = s.ofLoad ⟨0, 0⟩ [0, 1] := by
  obtain ⟨s, hs, hres⟩ := (Option.any_eq_true _ _).mp issueTwo_result
  obtain ⟨g, hg, hplay⟩ := Option.bind_eq_some_iff.mp hs
  obtain ⟨log, _, hp⟩ := replay_path hplay
  obtain ⟨hlen, hbegun, hon, _⟩ := of_decide_eq_true hres
  have hm := startWith_mapped hg
  have hl : g.Created ⟨0, 0⟩ := by
    obtain ⟨g', hg', hl⟩ := smallStart_created
    obtain rfl : g = g' := Option.some.inj (hg.symm.trans hg')
    exact ⟨hl.1, Nat.lt_of_le_of_lt (Nat.zero_le 1) hl.2⟩
  have hqueue := ((requests_in_order smallConfig_valid hm hp).1 ⟨0, 0⟩ hl).1
  rw [hlen] at hqueue
  exact ⟨g, log, s, hm, hp, hbegun, requestOn_some hon, hqueue⟩

end AbtSt
