import AbtSt.IoOrder

/-! The slots of the requests in flight and the counters of the loads. A slot
belongs to the main thread while it is filled and then to one request until its
work unit releases it. The counters tell what is queued and under way, as long as
no slot is filled for another load between its release and the last use of its
load pointer. -/

namespace AbtSt

/-- The slot that the main thread has taken and not yet given to a request. -/
def MainPc.slot : MainPc → Option Nat
  | .fill i => some i
  | .route i => some i
  | .create i _ => some i
  | _ => none

/-- A request whose work unit has not released the slot. -/
def Io.Live (s : Io) (t : Nat) : Prop :=
  t < s.issued.length ∧ (t ∉ s.begun ∨ ∃ c, s.lwts c = some (.work t))

structure Slots (app : App) (s : Io) : Prop where
  live : ∀ t r, s.Live t → s.issued[t]? = some r → s.params r.slot = ⟨true, r.key, some r.load⟩
  distinct : ∀ t u r r', s.Live t → s.Live u → s.issued[t]? = some r → s.issued[u]? = some r' →
    r.slot = r'.slot → t = u
  held : ∀ i, s.main.slot = some i → (s.params i).used = true ∧ i < app.slots ∧
    ∀ t r, s.Live t → s.issued[t]? = some r → r.slot ≠ i
  claimed : ∀ i, s.main = .claim i → (s.params i).used = false ∧ i < app.slots
  routed : ∀ i l, s.main = .create i l → (s.params i).load = some l
  range : ∀ r ∈ s.issued, r.slot < app.slots
  owned : ∀ i, (s.params i).used = true → s.main.left = true ∨ s.main.slot = some i ∨
    ∃ t r, s.Live t ∧ s.issued[t]? = some r ∧ r.slot = i

section Slots

variable {cfg : Config} {app : App} {S : LoadId → Prop} {s t : Io}

theorem Io.Live.lookup {x : Nat} (h : s.Live x) : ∃ r, s.issued[x]? = some r :=
  ⟨_, List.getElem?_eq_getElem h.1⟩

theorem Flow.mem_begun (h : Flow S s) {c x : Nat} (hx : s.requestOn c = some x) : x ∈ s.begun := by
  obtain ⟨l, _, _, _, hxl⟩ := h.running c x hx
  have hend : x ∈ s.ofLoad l s.begun := by
    rw [← h.under_way hx hxl]
    simp
  exact (mem_ofLoad.mp hend).1

theorem Flow.not_begun (h : Flow S s) {x : Nat} {l : LoadId} {rest : List Nat} (hl : S l)
    (hpool : (s.load l).pool = x :: rest) : x ∉ s.begun := by
  have hqueue := h.queue l hl
  rw [hpool] at hqueue
  have hnodup : (s.ofLoad l s.begun ++ x :: rest).Nodup := by
    rw [hqueue]
    exact List.nodup_range.filter _
  have hload : s.loadOf x = some l := by
    have hmem : x ∈ s.ofLoad l (List.range s.issued.length) := by
      rw [← hqueue]
      simp
    exact (mem_ofLoad.mp hmem).2
  intro hx
  have hdisjoint := List.disjoint_of_nodup_append hnodup
  exact hdisjoint (mem_ofLoad.mpr ⟨hx, hload⟩) List.mem_cons_self

/-- A turn after which the same requests are live, in slots that it leaves alone. -/
theorem Slots.of_main (h : Slots app s) (hi : t.issued = s.issued) (hl : ∀ x, t.Live x ↔ s.Live x)
    (hp : ∀ x r, s.Live x → s.issued[x]? = some r → t.params r.slot = s.params r.slot)
    (held : ∀ i, t.main.slot = some i → (t.params i).used = true ∧ i < app.slots ∧
      ∀ x r, s.Live x → s.issued[x]? = some r → r.slot ≠ i)
    (claimed : ∀ i, t.main = .claim i → (t.params i).used = false ∧ i < app.slots)
    (routed : ∀ i l, t.main = .create i l → (t.params i).load = some l)
    (owned : ∀ i, (t.params i).used = true → t.main.left = true ∨ t.main.slot = some i ∨
      ∃ x r, s.Live x ∧ s.issued[x]? = some r ∧ r.slot = i) : Slots app t := by
  refine ⟨?_, ?_, ?_, claimed, routed, ?_, ?_⟩
  · intro x r hx hr
    rw [hi] at hr
    rw [hp x r ((hl x).mp hx) hr]
    exact h.live x r ((hl x).mp hx) hr
  · intro x y r r' hx hy
    rw [hi]
    exact h.distinct x y r r' ((hl x).mp hx) ((hl y).mp hy)
  · intro i hslot
    obtain ⟨hu, hlt, hne⟩ := held i hslot
    refine ⟨hu, hlt, fun x r hx hr => ?_⟩
    rw [hi] at hr
    exact hne x r ((hl x).mp hx) hr
  · rw [hi]
    exact h.range
  · rw [hi]
    simpa only [hl] using owned

theorem Slots.of_live (h : Slots app s) (hi : t.issued = s.issued) (hl : ∀ x, t.Live x ↔ s.Live x)
    (hp : t.params = s.params) (hm : t.main = s.main) : Slots app t := by
  refine h.of_main hi hl (fun _ _ _ _ => by rw [hp]) ?_ ?_ ?_ ?_ <;> rw [hp, hm]
  · exact h.held
  · exact h.claimed
  · exact h.routed
  · exact h.owned

theorem live_congr (hi : t.issued = s.issued) (hb : t.begun = s.begun)
    (hw : ∀ c x, t.lwts c = some (.work x) ↔ s.lwts c = some (.work x)) (x : Nat) :
    t.Live x ↔ s.Live x := by
  unfold Io.Live
  rw [hi, hb]
  simp only [hw]

theorem setLwt_work {c : Nat} {p : Option LwtPc} (hold : ∀ x, s.lwts c ≠ some (.work x))
    (hnew : ∀ x, p ≠ some (.work x)) (d x : Nat) :
    (s.setLwt c p).lwts d = some (.work x) ↔ s.lwts d = some (.work x) := by
  by_cases hd : d = c
  · subst hd
    simp [Io.setLwt, hold, hnew]
  · simp [Io.setLwt, hd]

theorem Slots.release (hf : Flow S s) (h : Slots app s) {c x : Nat} {r : Request}
    (hx : s.lwts c = some (.work x)) (hr : s.issued[x]? = some r) :
    Slots app ((s.setParam r.slot { s.params r.slot with used := false }).setLwt c
      (some (.released x))) := by
  have hlive : s.Live x := ⟨(List.getElem?_eq_some_iff.mp hr).1, Or.inr ⟨c, hx⟩⟩
  have hon : s.requestOn c = some x := requestOn_some hx
  have hiff : ∀ y, Io.Live ((s.setParam r.slot { s.params r.slot with used := false }).setLwt c
      (some (.released x))) y ↔ s.Live y ∧ y ≠ x := by
    intro y
    have hwork : ∀ d, Function.update s.lwts c (some (.released x)) d = some (LwtPc.work y) ↔
        s.lwts d = some (.work y) ∧ y ≠ x := by
      intro d
      by_cases hd : d = c
      · subst hd
        simp [hx, eq_comm]
      · rw [Function.update_of_ne hd]
        refine ⟨fun hy => ⟨hy, ?_⟩, fun hy => hy.1⟩
        rintro rfl
        exact hd (hf.request_unique (requestOn_some hy) hon rfl)
    change (y < s.issued.length ∧ (y ∉ s.begun ∨ ∃ d, Function.update s.lwts c (some (.released x)) d = _)) ↔ _
    simp only [hwork]
    unfold Io.Live
    constructor
    · rintro ⟨hlt, hy | ⟨d, hy, hne⟩⟩
      · refine ⟨⟨hlt, Or.inl hy⟩, ?_⟩
        rintro rfl
        exact hy (hf.mem_begun hon)
      · exact ⟨⟨hlt, Or.inr ⟨d, hy⟩⟩, hne⟩
    · rintro ⟨⟨hlt, hy | ⟨d, hy⟩⟩, hne⟩
      · exact ⟨hlt, Or.inl hy⟩
      · exact ⟨hlt, Or.inr ⟨d, hy, hne⟩⟩
  have hother : ∀ y r', s.Live y → y ≠ x → s.issued[y]? = some r' → r'.slot ≠ r.slot :=
    fun y r' hy hne hr' he => hne (h.distinct y x r' r hy hlive hr' hr he)
  refine ⟨?_, ?_, ?_, ?_, ?_, h.range, ?_⟩
  · intro y r' hy hr'
    obtain ⟨hy, hne⟩ := (hiff y).mp hy
    have hslot := hother y r' hy hne hr'
    simpa [Io.setLwt, Io.setParam, hslot] using h.live y r' hy hr'
  · intro y z r₁ r₂ hy hz
    exact h.distinct y z r₁ r₂ ((hiff y).mp hy).1 ((hiff z).mp hz).1
  · intro i hi
    obtain ⟨hu, hlt, hne⟩ := h.held i hi
    have hslot : i ≠ r.slot := fun he => hne x r hlive hr he.symm
    exact ⟨by simpa [Io.setLwt, Io.setParam, hslot] using hu, hlt,
      fun y r' hy => hne y r' ((hiff y).mp hy).1⟩
  · intro i hi
    obtain ⟨hu, hlt⟩ := h.claimed i hi
    refine ⟨?_, hlt⟩
    by_cases hslot : i = r.slot
    · simp [Io.setLwt, Io.setParam, hslot]
    · simpa [Io.setLwt, Io.setParam, hslot] using hu
  · intro i l hi
    rw [← h.routed i l hi]
    by_cases hslot : i = r.slot <;> simp [Io.setLwt, Io.setParam, hslot]
  · intro i hu
    by_cases hslot : i = r.slot
    · simp [Io.setLwt, Io.setParam, hslot] at hu
    · rcases h.owned i (by simpa [Io.setLwt, Io.setParam, hslot] using hu) with ho | ho |
        ⟨y, r', hy, hr', he⟩
      · exact Or.inl ho
      · exact Or.inr (Or.inl ho)
      · refine Or.inr (Or.inr ⟨y, r', (hiff y).mpr ⟨hy, ?_⟩, hr', he⟩)
        rintro rfl
        obtain rfl : r' = r := Option.some.inj (hr'.symm.trans hr)
        exact hslot he.symm

/-- The main thread changes the slot that it holds, or that it has seen unused. -/
theorem Slots.of_param (h : Slots app s) {i : Nat} {p : IoParam} {m : MainPc}
    (hi : s.main.slot = some i ∨ s.main = .claim i) (hm : m.slot = some i) (hu : p.used = true)
    (hload : ∀ l, m = .create i l → p.load = some l) :
    Slots app { s.setParam i p with main := m } := by
  have hfree : i < app.slots ∧ ∀ x r, s.Live x → s.issued[x]? = some r → r.slot ≠ i := by
    rcases hi with hi | hi
    · exact (h.held i hi).2
    · obtain ⟨hunused, hlt⟩ := h.claimed i hi
      refine ⟨hlt, fun x r hx hr he => ?_⟩
      rw [← he, h.live x r hx hr] at hunused
      cases hunused
  have hself : (s.setParam i p).params i = p := Function.update_self ..
  have hof : ∀ j, m.slot = some j → j = i := fun j hj => Option.some.inj (hj.symm.trans hm)
  refine h.of_main rfl (fun x => Iff.rfl) ?_ ?_ ?_ ?_ ?_
  · intro x r hx hr
    exact Function.update_of_ne (hfree.2 x r hx hr) ..
  · intro j hj
    rw [hof j hj]
    exact ⟨by rw [hself]; exact hu, hfree⟩
  · intro j hj
    obtain rfl : m = .claim j := hj
    cases hm
  · intro j l hj
    obtain rfl : m = .create j l := hj
    obtain rfl := hof j rfl
    rw [hself]
    exact hload l rfl
  · intro j hj
    by_cases hji : j = i
    · exact Or.inr (Or.inl (by rw [hji]; exact hm))
    · change ((Function.update s.params i p) j).used = true at hj
      rw [Function.update_of_ne hji] at hj
      rcases h.owned j hj with ho | ho | ho
      · rcases hi with hi | hi
        · cases hs : s.main <;> simp [hs, MainPc.left, MainPc.slot] at ho hi
        · rw [hi] at ho
          cases ho
      · rcases hi with hi | hi
        · exact absurd (Option.some.inj (ho.symm.trans hi)) hji
        · rw [hi] at ho
          cases ho
      · exact Or.inr (Or.inr ho)

theorem Slots.of_pass (h : Slots app s) {m : MainPc} (hm : m.slot = none)
    (hs : s.main.slot = none ∨ m.left = true) (hleft : s.main.left = true → m.left = true)
    (hclaim : ∀ i, m = .claim i → (s.params i).used = false ∧ i < app.slots) :
    Slots app { s with main := m } := by
  refine h.of_main rfl (fun _ => Iff.rfl) (fun _ _ _ _ => rfl) ?_ hclaim ?_ ?_
  · intro i hi
    cases hm.symm.trans hi
  · intro i l hi
    obtain rfl : m = .create i l := hi
    cases hm
  · intro i hi
    rcases h.owned i hi with ho | ho | ho
    · exact Or.inl (hleft ho)
    · rcases hs with hs | hs
      · cases hs.symm.trans ho
      · exact Or.inl hs
    · exact Or.inr (Or.inr ho)

theorem Slots.issue (hf : Flow S s) (h : Slots app s) {i : Nat} {l : LoadId}
    (hi : s.main = .create i l) (hsys : Sys) :
    Slots app { s with
      sys := hsys
      main := .count i l
      issued := s.issued ++ [⟨i, (s.params i).key, l⟩] } := by
  obtain ⟨hused, hlt, hne⟩ := h.held i (by rw [hi]; rfl)
  have hload := h.routed i l hi
  have hold : ∀ {x : Nat} {r : Request}, x < s.issued.length →
      (s.issued ++ [⟨i, (s.params i).key, l⟩])[x]? = some r → s.issued[x]? = some r := by
    intro x r hx hr
    rw [List.getElem?_append_left hx] at hr
    exact hr
  have hlast : ∀ {x : Nat} {r : Request}, x = s.issued.length →
      (s.issued ++ [⟨i, (s.params i).key, l⟩])[x]? = some r → r = ⟨i, (s.params i).key, l⟩ := by
    rintro x r rfl hr
    simpa using hr.symm
  have hlive : ∀ x, Io.Live { s with
      sys := hsys
      main := .count i l
      issued := s.issued ++ [⟨i, (s.params i).key, l⟩] } x → s.Live x ∨ x = s.issued.length := by
    rintro x ⟨hx, hrest⟩
    rw [List.length_append, List.length_singleton] at hx
    by_cases hxl : x = s.issued.length
    · exact Or.inr hxl
    · exact Or.inl ⟨by omega, hrest⟩
  refine ⟨?_, ?_, ?_, ?_, ?_, ?_, ?_⟩
  · intro x r hx hr
    rcases hlive x hx with hx | hx
    · exact h.live x r hx (hold hx.1 hr)
    · obtain rfl := hlast hx hr
      change s.params i = _
      rw [← hload, ← hused]
  · intro x y r r' hx hy hr hr' hslot
    rcases hlive x hx with hx | hx <;> rcases hlive y hy with hy | hy
    · exact h.distinct x y r r' hx hy (hold hx.1 hr) (hold hy.1 hr') hslot
    · obtain rfl := hlast hy hr'
      exact absurd hslot (hne x r hx (hold hx.1 hr))
    · obtain rfl := hlast hx hr
      exact absurd hslot.symm (hne y r' hy (hold hy.1 hr'))
    · rw [hx, hy]
  · intro j hj
    cases hj
  · intro j hj
    cases hj
  · intro j m hj
    cases hj
  · intro r hr
    rcases List.mem_append.mp hr with hr | hr
    · exact h.range r hr
    · rw [List.mem_singleton.mp hr]
      exact hlt
  · intro j hj
    have hnew : s.issued.length ∉ s.begun := fun hmem => Nat.lt_irrefl _ (hf.known_lt (Or.inl hmem))
    rcases h.owned j hj with ho | ho | ⟨x, r, hx, hr, he⟩
    · rw [hi] at ho
      cases ho
    · rw [hi] at ho
      obtain rfl := Option.some.inj ho
      exact Or.inr (Or.inr ⟨s.issued.length, _, ⟨by simp, Or.inl hnew⟩,
        List.getElem?_concat_length .., rfl⟩)
    · refine Or.inr (Or.inr ⟨x, r, ⟨?_, hx.2⟩, ?_, he⟩)
      · rw [List.length_append]
        exact Nat.lt_add_right _ hx.1
      · rw [List.getElem?_append_left hx.1]
        exact hr

theorem Slots.step {w : Turn} (hf : Flow S s) (h : Slots app s) (hm : IoMove cfg app s w t) :
    Slots app t := by
  cases hm with
  | sys => exact h.of_live rfl (fun _ => Iff.rfl) rfl rfl
  | @begins c x b u hfree hs hp =>
    obtain ⟨l, k, n, rest, hpc, hpool, _⟩ := hs.pops hp
    have hx := hf.not_begun (hf.sited.running hpc).1 hpool
    refine h.of_live rfl (fun y => ?_) rfl rfl
    change (y < s.issued.length ∧ (y ∉ s.begun ++ [x] ∨
      ∃ d, Function.update s.lwts c (some (.work x)) d = some (.work y))) ↔ s.Live y
    refine and_congr_right fun _ => ?_
    by_cases hyx : y = x
    · subst hyx
      exact ⟨fun _ => Or.inl hx, fun _ => Or.inr ⟨c, Function.update_self ..⟩⟩
    · refine or_congr (by simp [hyx]) (exists_congr fun d => ?_)
      by_cases hdc : d = c
      · subst hdc
        have hxy : ¬ x = y := fun he => hyx he.symm
        simp [hfree, hxy]
      · rw [Function.update_of_ne hdc]
  | release hx hr => exact h.release hf hx hr
  | find hl _ _ =>
    exact h.of_live rfl (live_congr rfl rfl (setLwt_work (by simp [hl]) (by simp))) rfl rfl
  | read hl => exact h.of_live rfl (live_congr rfl rfl (setLwt_work (by simp [hl]) (by simp))) rfl rfl
  | @finish c x v l hl =>
    exact h.of_live rfl (live_congr rfl rfl (setLwt_work (s := s) (by simp [hl]) (by simp))) rfl rfl
  | @scan b z i m hi hnext =>
    rcases hnext with rfl | rfl | rfl | ⟨rfl, hlt, hu⟩
    · exact h.of_pass rfl (Or.inl (by rw [hi]; rfl)) (by simp [hi, MainPc.left]) (by simp)
    · exact h.of_pass rfl (Or.inl (by rw [hi]; rfl)) (by simp [hi, MainPc.left]) (by simp)
    · exact h.of_pass rfl (Or.inr rfl) (fun _ => rfl) (by simp)
    · refine h.of_pass rfl (Or.inl (by rw [hi]; rfl)) (by simp [hi, MainPc.left]) (fun j hj => ?_)
      cases hj
      exact ⟨hu, hlt⟩
  | claim hi => exact h.of_param (Or.inr hi) rfl rfl (by simp)
  | @fill b z i hi =>
    have hslot : s.main.slot = some i := by rw [hi]; rfl
    exact h.of_param (Or.inl hslot) rfl (h.held i hslot).1 (by simp)
  | @route b z i l hi _ =>
    have hslot : s.main.slot = some i := by rw [hi]; rfl
    exact h.of_param (Or.inl hslot) rfl (h.held i hslot).1 (by simp)
  | fails hi => exact h.of_pass rfl (Or.inr rfl) (fun _ => rfl) (by simp)
  | create hi _ => exact h.issue hf hi _
  | @count b z i l hi =>
    have hpass := h.of_pass (m := .scan (i + 1)) rfl (Or.inl (by rw [hi]; rfl)) (by simp [hi, MainPc.left])
      (by simp)
    exact hpass.of_live rfl (fun _ => Iff.rfl) rfl rfl
  | stop hi _ =>
    have hpass := h.of_pass (m := .done) rfl (Or.inr rfl) (fun _ => rfl) (by simp)
    exact hpass.of_live rfl (fun _ => Iff.rfl) rfl rfl

theorem Slots.start (app : App) (g : Global) : Slots app (startIo g) := by
  have hno : ∀ x, ¬ (startIo g).Live x := fun x hx => Nat.not_lt_zero x hx.1
  refine ⟨fun x _ hx => absurd hx (hno x), fun x _ _ _ hx => absurd hx (hno x), ?_, ?_, ?_, ?_, ?_⟩
  · exact fun i hi => (by cases hi)
  · exact fun i hi => (by cases hi)
  · exact fun i l hi => (by cases hi)
  · exact fun r hr => (by cases hr)
  · exact fun i hi => (by cases hi)

theorem Slots.run (hv : cfg.Valid) {g : Global} (hg : Mapped cfg g) {log : List (Turn × Io)}
    (hp : Path (IoStep cfg app) (startIo g) log s) : Flow g.Created s ∧ Slots app s :=
  (hp.invariant (I := fun s => Flow g.Created s ∧ Slots app s)
    (fun _ _ _ hs h => ⟨h.1.step hs.move, h.2.step h.1 hs.move⟩)
    ⟨.start hv hg, .start app g⟩).2

theorem Slots.live_le (h : Slots app s) {xs : List Nat} (hnd : xs.Nodup) (hx : ∀ x ∈ xs, s.Live x) :
    xs.length ≤ app.slots := by
  let slotOf : Nat → Nat := fun x => (s.issued[x]?.map Request.slot).getD 0
  have hof : ∀ {x r}, s.issued[x]? = some r → slotOf x = r.slot := fun {x r} hr => by
    simp [slotOf, hr]
  have hinj : (xs.map slotOf).Nodup := by
    refine List.Nodup.map_on (fun x hxm y hym he => ?_) hnd
    obtain ⟨r, hr⟩ := (hx x hxm).lookup
    obtain ⟨r', hr'⟩ := (hx y hym).lookup
    rw [hof hr, hof hr'] at he
    exact h.distinct x y r r' (hx x hxm) (hx y hym) hr hr' he
  have hsub : xs.map slotOf ⊆ List.range app.slots := by
    intro i hi
    obtain ⟨x, hxm, rfl⟩ := List.mem_map.mp hi
    obtain ⟨r, hr⟩ := (hx x hxm).lookup
    rw [hof hr]
    exact List.mem_range.mpr (h.range r (List.mem_of_getElem? hr))
  have hle := (hinj.subperm hsub).length_le
  rwa [List.length_map, List.length_range] at hle

end Slots

/-- A request that waits or does its work has its slot to itself, as it was
filled, so that at most as many are in flight as there are slots; and in the loop
a slot is in use only while the main thread fills it or such a request has it. -/
theorem slots_owned {cfg : Config} (hv : cfg.Valid) {g : Global} (hg : Mapped cfg g) {app : App}
    {log : List (Turn × Io)} {s : Io} (hp : Path (IoStep cfg app) (startIo g) log s) :
    (∀ x r, s.Live x → s.issued[x]? = some r → s.params r.slot = ⟨true, r.key, some r.load⟩) ∧
    (∀ x y r r', s.Live x → s.Live y → s.issued[x]? = some r → s.issued[y]? = some r' →
      r.slot = r'.slot → x = y) ∧
    (∀ xs : List Nat, xs.Nodup → (∀ x ∈ xs, s.Live x) → xs.length ≤ app.slots) ∧
    (s.main.left = false → ∀ i, (s.params i).used = true ↔
      s.main.slot = some i ∨ ∃ x r, s.Live x ∧ s.issued[x]? = some r ∧ r.slot = i) := by
  obtain ⟨_, h⟩ := Slots.run hv hg hp
  refine ⟨h.live, h.distinct, fun xs => h.live_le, fun hin i => ?_⟩
  constructor
  · intro hu
    rcases h.owned i hu with ho | ho | ho
    · rw [hin] at ho
      cases ho
    · exact Or.inl ho
    · exact Or.inr ho
  · rintro (hi | ⟨x, r, hx, hr, rfl⟩)
    · exact (h.held i hi).1
    · rw [h.live x r hx hr]

theorem slots_owned_issueTwo : ∃ g log s, Mapped smallConfig g ∧
    Path (IoStep smallConfig (mainApp sortedPlatform 0)) (startIo g) log s ∧
    (s.params 0).used = true ∧ ∃ r, s.issued[1]? = some r ∧
    s.params r.slot = ⟨true, r.key, some r.load⟩ := by
  obtain ⟨s, hs, hres⟩ := (Option.any_eq_true _ _).mp issueTwo_result
  obtain ⟨g, hg, hplay⟩ := Option.bind_eq_some_iff.mp hs
  obtain ⟨log, _, hp⟩ := replay_path hplay
  obtain ⟨hlen, hbegun, hon, hslot, hleft⟩ := of_decide_eq_true hres
  have hm := startWith_mapped hg
  obtain ⟨hlive, _, _, hused⟩ := slots_owned smallConfig_valid hm hp
  have hone : s.Live 1 := ⟨by rw [hlen]; decide, Or.inl (by rw [hbegun]; decide)⟩
  obtain ⟨r, hr⟩ := hone.lookup
  have hzero : s.Live 0 := by
    refine ⟨by rw [hlen]; decide, Or.inr ⟨1, ?_⟩⟩
    exact hon
  obtain ⟨r₀, hr₀⟩ := hzero.lookup
  have hs₀ : r₀.slot = 0 := by
    rw [hr₀] at hslot
    exact Option.some.inj hslot
  exact ⟨g, log, s, hm, hp, (hused hleft 0).mpr (Or.inr ⟨0, r₀, hzero, hr₀, hs₀⟩), r, hr,
    hlive 1 r hone hr⟩

end AbtSt
