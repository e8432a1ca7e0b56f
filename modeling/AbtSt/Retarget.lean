import AbtSt.Sites
import AbtSt.Runs

/-! Hand-overs while the rebalancer re-targets loads. As long as no write changes
the target of a load between the computation of the new stream and the read that
follows it, every unit reaches the stream that its current rank names. -/

namespace AbtSt

def Sys.settled (s : Sys) : Global :=
  match s.reb with
  | none => s.g
  | some (l, rank) => abtstLoadSetMigrating s.g l rank

theorem settled_streams (s : Sys) (c : Nat) : s.settled.streams c = s.g.streams c := by
  unfold Sys.settled
  cases s.reb with
  | none => rfl
  | some p => rfl

theorem settled_queues {s t : Sys} (hq : SameQueues s.g t.g) (hr : t.reb = s.reb) :
    SameQueues s.settled t.settled := by
  unfold Sys.settled
  rw [hr]
  cases s.reb with
  | none => exact hq
  | some p =>
    obtain ⟨l, r⟩ := p
    refine ⟨hq.rank, hq.used, hq.loadQ, hq.nrLoads, ?_, hq.nrMappings, hq.mappings⟩
    intro m
    by_cases hm : m = l
    · subst hm
      simp [abtstLoadSetMigrating, Global.setLoad]
    · simpa [abtstLoadSetMigrating, Global.setLoad, hm] using hq.destRank m

theorem relink_linked {cfg : Config} {S : LoadId → Prop} {s : Sys} (h : Linked cfg s.settled S)
    {l : LoadId} {src dst : Nat} (hr : s.reb = none) (hl : l ∈ (s.g.streams src).loadQ)
    (hu : (s.g.streams dst).used = true) (hne : src ≠ dst) :
    Linked cfg (Sys.settled { s with
      g := abtstAddLoadToStream (abtstRemoveLoadFromStream s.g src l) dst l
      reb := some (l, (s.g.streams dst).rank) }) S := by
  have hset : s.settled = s.g := by
    unfold Sys.settled
    rw [hr]
  rw [hset] at h
  have hlink : Linked cfg (migrateLoad src dst s.g l) S := by
    have hfold := foldl_migrateLoad s.g hne [l]
    rw [List.foldl_cons, List.foldl_nil] at hfold
    rw [hfold]
    exact h.moved _ _ hne hu (List.singleton_sublist.mpr hl)
  rw [migrateLoad, (relink_frame s.g hne l dst).2.1] at hlink
  exact hlink

theorem setDest_settled {s : Sys} {l : LoadId} {r : Nat} (hr : s.reb = some (l, r)) :
    Sys.settled { s with g := abtstLoadSetMigrating s.g l r, reb := none } = s.settled := by
  unfold Sys.settled
  rw [hr]

theorem update_queues (s : Sys) (c : Nat) (l : LoadId) (n r : Nat) (i : Int) :
    SameQueues s.g ((updateCurrRank s l r).setPc c (.updated l n i)).g := by
  refine ⟨fun _ => rfl, fun _ => rfl, fun _ => rfl, fun _ => rfl, ?_, rfl, rfl⟩
  exact setLoad_keeps (f := Load.destRank) s l (x := { s.g.loads l with currRank := r }) rfl

/-- The queues are consistent with the targets in every interleaving. -/
theorem SplitStep.linked {cfg : Config} {S : LoadId → Prop} {a : Label} {s t : Sys}
    (hs : SplitStep cfg a s t) (h : Linked cfg s.settled S) : Linked cfg t.settled S := by
  cases hs.move with
  | same hs => exact h.of_queues (settled_queues hs.queues hs.reb)
  | @update c n r b l i hpc => exact h.of_queues (settled_queues (update_queues s c l n r i) rfl)
  | @push c n b l i hpc =>
    obtain ⟨-, -, hqueues, hreb, -, -⟩ := pushAt_frame cfg s i (.sched l)
    exact h.of_queues (settled_queues hqueues hreb)
  | relink hr hl hu hne => exact relink_linked h hr hl hu hne
  | setDest hr =>
    rw [setDest_settled hr]
    exact h
  | _ => exact h

def Global.knows (g : Global) : Pc → Prop
  | .computed l _ i => i = (g.loads l).destRank
  | .argument _ _ i r => i = r ∧ (g.streams r).used = true
  | .updated l _ i => i = (g.loads l).currRank ∧ (g.streams (g.loads l).currRank).used = true
  | _ => True

theorem knows_of_not_handing (g : Global) {pc : Pc} (h : pc.handing = false) : g.knows pc := by
  cases pc with
  | computed l n i => cases h
  | argument l n i r => cases h
  | updated l n i => cases h
  | _ => trivial

theorem knows_congr {g g' : Global} {pc : Pc} (hu : ∀ c, (g'.streams c).used = (g.streams c).used)
    (hd : ∀ l n i, pc = .computed l n i → (g'.loads l).destRank = (g.loads l).destRank)
    (hc : ∀ l, pc.leaving = some l → (g'.loads l).currRank = (g.loads l).currRank)
    (h : g.knows pc) : g'.knows pc := by
  cases pc with
  | computed l n i => simpa [Global.knows, hd l n i rfl] using h
  | argument l n i r => simpa [Global.knows, hu] using h
  | updated l n i => simpa [Global.knows, hu, hc l rfl] using h
  | _ => trivial

/-- Every load of `S` that was not dropped has its unit at the one stream that its
current rank names, unless a scheduler is about to push it to that stream. -/
structure Tracked (cfg : Config) (S : LoadId → Prop) (s : Sys) : Prop where
  exclusive : Exclusive s
  linked : Linked cfg s.settled S
  kept : ∀ l, S l → l ∉ s.dropped → ∃ c, 0 < s.located l c
  only : ∀ l c, 0 < s.located l c → S l ∧ (s.g.streams c).used = true
  dest : ∀ l, S l → (s.g.streams (s.g.loads l).destRank).used = true
  here : ∀ l c, 0 < s.located l c → (s.scheds c).pc.leaving ≠ some l → (s.g.loads l).currRank = c
  knows : ∀ c, s.g.knows (s.scheds c).pc
  wild : s.wild = false

namespace Tracked

variable {cfg : Config} {S : LoadId → Prop} {s : Sys}

theorem used_lt (h : Tracked cfg S s) {c : Nat} (hc : (s.g.streams c).used = true) :
    c < cfg.nrCores := by
  apply h.linked.used_lt c
  rw [settled_streams]
  exact hc

theorem of_sites {t : Sys} (h : Tracked cfg S s) (hs : SameSites s t) : Tracked cfg S t := by
  refine ⟨h.exclusive.of_located hs.located hs.dropped hs.stopping,
    h.linked.of_queues (settled_queues hs.queues hs.reb), ?_, ?_, ?_, ?_, ?_, hs.wild.trans h.wild⟩
  · intro l hl hd
    rw [hs.dropped] at hd
    obtain ⟨c, hc⟩ := h.kept l hl hd
    exact ⟨c, by rw [hs.located]; exact hc⟩
  · intro l c hc
    rw [hs.located] at hc
    rw [hs.queues.used]
    exact h.only l c hc
  · intro l hl
    rw [hs.queues.used, hs.queues.destRank]
    exact h.dest l hl
  · intro l c hc hne
    rw [hs.located] at hc
    rw [hs.currRank]
    refine h.here l c hc (fun he => hne ?_)
    rw [hs.leaving c (by rw [he]; simp)]
    exact he
  · intro c
    by_cases hh : (t.scheds c).pc.handing = true
    · rw [hs.handing c hh]
      exact knows_congr hs.queues.used (fun l _ _ _ => hs.queues.destRank l) (fun l _ => hs.currRank l)
        (h.knows c)
    · exact knows_of_not_handing t.g (by simpa using hh)

theorem setPc (h : Tracked cfg S s) {c : Nat} {pc : Pc} (hu : pc.unit = (s.scheds c).pc.unit)
    (hl : (s.scheds c).pc.leaving = none) (hk : s.g.knows pc) : Tracked cfg S (s.setPc c pc) := by
  have hloc := located_setPc s hu
  refine ⟨h.exclusive.of_located hloc rfl (fun hs => hs), h.linked, ?_, ?_, h.dest, ?_, ?_, h.wild⟩
  · intro l hS hd
    obtain ⟨d, hc⟩ := h.kept l hS hd
    exact ⟨d, by rw [hloc]; exact hc⟩
  · intro l d hd
    rw [hloc] at hd
    exact h.only l d hd
  · intro l d hd hne
    rw [hloc] at hd
    by_cases hdc : d = c
    · subst hdc
      exact h.here l d hd (by rw [hl]; simp)
    · exact h.here l d hd (by simpa [Sys.setPc, Sys.setSched, hdc] using hne)
  · intro d
    by_cases hdc : d = c
    · subst hdc
      simpa [Sys.setPc, Sys.setSched] using hk
    · simpa [Sys.setPc, Sys.setSched, hdc] using h.knows d

theorem drop (h : Tracked cfg S s) {c n : Nat} {l : LoadId} {q : Sched} (hs : s.stopping = true)
    (hpc : (s.scheds c).pc = .served l n) (hq : q.pc = .pushed n) :
    Tracked cfg S ({ s with dropped := l :: s.dropped }.setSched c q) := by
  have hu : (s.scheds c).pc.unit = some (.sched l) := by rw [hpc]; rfl
  have hle : ∀ m d, ({ s with dropped := l :: s.dropped }.setSched c q).located m d +
      (if m = l ∧ d = c then 1 else 0) = s.located m d :=
    located_release (s := { s with dropped := l :: s.dropped }) hu (by rw [hq]; rfl)
  have hmove : Move cfg s (.sched c false) _ := Move.drop hs hpc hq
  refine ⟨h.exclusive.step hmove, h.linked, ?_, ?_, h.dest, ?_, ?_, h.wild⟩
  · intro m hS hd
    have hd' : m ≠ l ∧ m ∉ s.dropped := by simpa [Sys.setSched] using hd
    obtain ⟨d, hc⟩ := h.kept m hS hd'.2
    have := hle m d
    exact ⟨d, by simp only [hd'.1, false_and, if_false] at this; omega⟩
  · intro m d hd
    have := hle m d
    exact h.only m d (by omega)
  · intro m d hd hne
    have := hle m d
    apply h.here m d (by omega)
    by_cases hdc : d = c
    · rw [hdc, hpc]
      simp [Pc.leaving]
    · simpa [Sys.setSched, hdc] using hne
  · intro d
    by_cases hdc : d = c
    · subst hdc
      exact knows_of_not_handing _ (by simp [Sys.setSched, hq, Pc.handing])
    · simpa [Sys.setSched, hdc] using h.knows d

theorem newStream_eq (hv : cfg.Valid) (h : Tracked cfg S s) {c n : Nat} {l : LoadId}
    (hpc : (s.scheds c).pc = .confirmed l n) : newStream s c l = (s.g.loads l).destRank := by
  have hloc : 0 < s.located l c := located_held (by rw [hpc]; rfl)
  obtain ⟨hS, hu⟩ := h.only l c hloc
  have hcurr := h.here l c hloc (by rw [hpc]; simp [Pc.leaving])
  have hc := h.used_lt hu
  have hd := h.used_lt (h.dest l hS)
  have hcores := hv.nrCores_lt
  unfold newStream
  rw [hcurr, i32_of_lt (by omega) (by omega)]
  omega

theorem update (h : Tracked cfg S s) {c n r : Nat} {l : LoadId} {i : Int}
    (hpc : (s.scheds c).pc = .argument l n i r) :
    Tracked cfg S ((updateCurrRank s l r).setPc c (.updated l n i)) := by
  have hu : (s.scheds c).pc.unit = some (.sched l) := by rw [hpc]; rfl
  have hloc : ∀ m d, ((updateCurrRank s l r).setPc c (.updated l n i)).located m d = s.located m d := by
    intro m d
    have hsame : (Pc.updated l n i).unit = ((updateCurrRank s l r).scheds c).pc.unit := hu.symm
    rw [located_setPc (updateCurrRank s l r) hsame]
    exact located_congr rfl rfl
  have hunit : ∀ d, 0 < s.located l d → d = c :=
    fun d hd => h.exclusive.unique l d c hd (located_held hu)
  have hqueues := update_queues s c l n r i
  have hcurr : ∀ m, m ≠ l → (((updateCurrRank s l r).setPc c (.updated l n i)).g.loads m).currRank =
      (s.g.loads m).currRank := by
    intro m hm
    simp [updateCurrRank, Sys.setPc, Sys.setSched, Sys.setLoad, Global.setLoad, hm]
  refine ⟨h.exclusive.of_located hloc rfl (fun hs => hs),
    h.linked.of_queues (settled_queues hqueues rfl), ?_, ?_, ?_, ?_, ?_, h.wild⟩
  · intro m hS hd
    obtain ⟨d, hc⟩ := h.kept m hS hd
    exact ⟨d, by rw [hloc]; exact hc⟩
  · intro m d hd
    rw [hloc] at hd
    exact h.only m d hd
  · intro m hS
    rw [hqueues.destRank]
    exact h.dest m hS
  · intro m d hd hne
    rw [hloc] at hd
    by_cases hm : m = l
    · subst hm
      have := hunit d hd
      subst this
      simp [Sys.setPc, Sys.setSched, Pc.leaving] at hne
    · rw [hcurr m hm]
      apply h.here m d hd
      by_cases hdc : d = c
      · rw [hdc, hpc]
        simp [Pc.leaving]
      · simpa [Sys.setPc, Sys.setSched, updateCurrRank, Sys.setLoad, hdc] using hne
  · intro d
    by_cases hdc : d = c
    · subst hdc
      have hk := h.knows d
      rw [hpc] at hk
      simpa [Sys.setPc, Sys.setSched, Global.knows, updateCurrRank, Sys.setLoad, Global.setLoad] using hk
    · have hpcd : (((updateCurrRank s l r).setPc c (.updated l n i)).scheds d).pc = (s.scheds d).pc := by
        simp [Sys.setPc, Sys.setSched, updateCurrRank, Sys.setLoad, hdc]
      rw [hpcd]
      refine knows_congr hqueues.used (fun m _ _ _ => hqueues.destRank m) (fun m hm => hcurr m ?_) (h.knows d)
      rintro rfl
      exact hdc (hunit d (located_held (unit_of_leaving hm)))

theorem push (h : Tracked cfg S s) {c n : Nat} {l : LoadId} {i : Int}
    (hpc : (s.scheds c).pc = .updated l n i) :
    Tracked cfg S ((s.pushAt cfg i (.sched l)).setPc c .inner) := by
  have hk := h.knows c
  rw [hpc] at hk
  obtain ⟨hi, hused⟩ := hk
  have hlt := h.used_lt hused
  obtain ⟨hscheds, hloads, hqueues, hreb, hdropped, _⟩ := pushAt_frame cfg s i (.sched l)
  have hl := h.exclusive.located_push cfg hpc
  have hother := fun m (hm : m ≠ l) => located_push_other cfg hpc hm
  have hS := (h.only l c (located_held (by rw [hpc]; rfl))).1
  have hat : ∀ d, 0 < ((s.pushAt cfg i (.sched l)).setPc c .inner).located l d ↔
      d = (s.g.loads l).currRank := by
    intro d
    rw [hl, hi]
    by_cases hd : d = (s.g.loads l).currRank
    · simp [hd, hlt]
    · simp [hd]
  have hcurr : ∀ m, (((s.pushAt cfg i (.sched l)).setPc c .inner).g.loads m) = s.g.loads m := by
    intro m
    exact congrFun hloads m
  have hmove : Move cfg s (.sched c false) _ := Move.push hpc
  refine ⟨h.exclusive.step hmove, h.linked.of_queues (settled_queues hqueues hreb), ?_, ?_, ?_, ?_, ?_, ?_⟩
  · intro m hSm hd
    by_cases hm : m = l
    · subst hm
      exact ⟨_, (hat _).mpr rfl⟩
    · have hd' : m ∉ s.dropped := by
        rw [← hdropped]
        exact hd
      obtain ⟨d, hc⟩ := h.kept m hSm hd'
      exact ⟨d, by rw [hother m hm]; exact hc⟩
  · intro m d hd
    rw [show (((s.pushAt cfg i (.sched l)).setPc c .inner).g.streams d).used = (s.g.streams d).used from
      hqueues.used d]
    by_cases hm : m = l
    · subst hm
      rw [(hat d).mp hd]
      exact ⟨hS, hused⟩
    · rw [hother m hm] at hd
      exact h.only m d hd
  · intro m hSm
    rw [hcurr, show (((s.pushAt cfg i (.sched l)).setPc c .inner).g.streams _).used =
      (s.g.streams (s.g.loads m).destRank).used from hqueues.used _]
    exact h.dest m hSm
  · intro m d hd hne
    rw [hcurr]
    by_cases hm : m = l
    · subst hm
      exact ((hat d).mp hd).symm
    · rw [hother m hm] at hd
      apply h.here m d hd
      by_cases hdc : d = c
      · rw [hdc, hpc]
        intro he
        exact hm (Option.some.inj he).symm
      · simpa [Sys.setPc, Sys.setSched, hscheds, hdc] using hne
  · intro d
    by_cases hdc : d = c
    · subst hdc
      exact knows_of_not_handing _ (by simp [Sys.setPc, Sys.setSched, Pc.handing])
    · have hpcd : (((s.pushAt cfg i (.sched l)).setPc c .inner).scheds d).pc = (s.scheds d).pc := by
        simp [Sys.setPc, Sys.setSched, hscheds, hdc]
      rw [hpcd]
      exact knows_congr hqueues.used (fun m _ _ _ => hqueues.destRank m)
        (fun m _ => congrArg Load.currRank (hcurr m)) (h.knows d)
  · change (s.pushAt cfg i (.sched l)).wild = false
    unfold Sys.pushAt
    rw [if_pos (by omega)]
    exact h.wild

theorem relink (h : Tracked cfg S s) {l : LoadId} {src dst : Nat} (hr : s.reb = none)
    (hl : l ∈ (s.g.streams src).loadQ) (hu : (s.g.streams dst).used = true) (hne : src ≠ dst) :
    Tracked cfg S { s with
      g := abtstAddLoadToStream (abtstRemoveLoadFromStream s.g src l) dst l
      reb := some (l, (s.g.streams dst).rank) } := by
  have hframe := relink_frame s.g hne l
  have hloc : ∀ m d, Sys.located { s with
      g := abtstAddLoadToStream (abtstRemoveLoadFromStream s.g src l) dst l
      reb := some (l, (s.g.streams dst).rank) } m d = s.located m d :=
    fun m d => located_congr (by rw [(hframe d).1]) rfl
  refine ⟨h.exclusive.of_located hloc rfl (fun hs => hs), relink_linked h.linked hr hl hu hne,
    ?_, ?_, ?_, ?_, ?_, h.wild⟩
  · intro m hS hd
    obtain ⟨d, hc⟩ := h.kept m hS hd
    exact ⟨d, by rw [hloc]; exact hc⟩
  · intro m d hd
    rw [hloc] at hd
    rw [(hframe d).2.2]
    exact h.only m d hd
  · intro m hS
    rw [(hframe _).2.2]
    exact h.dest m hS
  · intro m d hd hne
    rw [hloc] at hd
    exact h.here m d hd hne
  · intro d
    exact knows_congr (fun d => (hframe d).2.2) (fun _ _ _ _ => rfl) (fun _ _ => rfl) (h.knows d)

theorem setDest (h : Tracked cfg S s) {l : LoadId} {r : Nat} (hr : s.reb = some (l, r))
    (hq : ∀ c n i, (s.scheds c).pc = .computed l n i → (s.g.loads l).destRank = r) :
    Tracked cfg S { s with g := abtstLoadSetMigrating s.g l r, reb := none } := by
  have hlinked : Linked cfg (abtstLoadSetMigrating s.g l r) S := by
    have hset := h.linked
    rw [← setDest_settled hr] at hset
    exact hset
  have hdest : ∀ m, m ≠ l → ((abtstLoadSetMigrating s.g l r).loads m).destRank = (s.g.loads m).destRank := by
    intro m hm
    simp [abtstLoadSetMigrating, Global.setLoad, hm]
  have hcurr : ∀ m, ((abtstLoadSetMigrating s.g l r).loads m).currRank = (s.g.loads m).currRank := by
    intro m
    by_cases hm : m = l
    · subst hm
      simp [abtstLoadSetMigrating, Global.setLoad]
    · simp [abtstLoadSetMigrating, Global.setLoad, hm]
  refine ⟨h.exclusive.of_located (fun m d => located_congr rfl rfl) rfl (fun hs => hs), hlinked,
    h.kept, h.only, ?_, ?_, ?_, h.wild⟩
  · intro m hS
    by_cases hm : m = l
    · subst hm
      obtain ⟨c, hc⟩ := (hlinked.mem_iff m).mp hS
      have hused := hlinked.used c m hc
      rw [hlinked.dest c m hc, hlinked.rank c (hlinked.used_lt c hused)]
      exact hused
    · rw [hdest m hm]
      exact h.dest m hS
  · intro m d hd hne
    rw [hcurr]
    exact h.here m d hd hne
  · intro d
    refine knows_congr (g := s.g) (fun _ => rfl) (fun m n i hpc => ?_) (fun m _ => hcurr m) (h.knows d)
    by_cases hm : m = l
    · subst hm
      rw [hq d n i hpc]
      simp [abtstLoadSetMigrating, Global.setLoad]
    · exact hdest m hm

theorem launch {g : Global} (h : Initial cfg g) : Tracked cfg g.Created (launch g) := by
  have hl := h.laid.linked
  have hmem : ∀ l c, 0 < (AbtSt.launch g).located l c → l ∈ (g.streams c).loadQ := by
    intro l c hc
    rw [launch_located h] at hc
    by_contra hne
    simp [hne] at hc
  refine ⟨.launch h, hl, ?_, ?_, ?_, ?_, ?_, rfl⟩
  · intro l hS _
    obtain ⟨c, hc⟩ := (hl.mem_iff l).mp hS
    exact ⟨c, by rw [launch_located h]; simp [hc]⟩
  · intro l c hc
    have hq := hmem l c hc
    exact ⟨(hl.mem_iff l).mpr ⟨c, hq⟩, hl.used c l hq⟩
  · intro l hS
    obtain ⟨c, hc⟩ := (hl.mem_iff l).mp hS
    have hused := hl.used c l hc
    change (g.streams (g.loads l).destRank).used = true
    rw [hl.dest c l hc, hl.rank c (hl.used_lt c hused)]
    exact hused
  · intro l c hc _
    have hq := hmem l c hc
    exact (h.laid.home c l hq).2.trans (hl.rank c (hl.used_lt c (hl.used c l hq)))
  · exact fun c => knows_of_not_handing g rfl

end Tracked

/-- No write changes the target of a load whose new stream a scheduler has
computed, before the scheduler reads the target again. -/
def Steady (a : Label) (s : Sys) : Prop :=
  a = .setDest → ∀ l r, s.reb = some (l, r) → ∀ c n i, (s.scheds c).pc = .computed l n i →
    (s.g.loads l).destRank = r

def SteadyStep (cfg : Config) (a : Label) (s t : Sys) : Prop := SplitStep cfg a s t ∧ Steady a s

theorem Tracked.step {cfg : Config} (hv : cfg.Valid) {S : LoadId → Prop} {a : Label} {s t : Sys}
    (hs : SteadyStep cfg a s t) (h : Tracked cfg S s) : Tracked cfg S t := by
  have hsteady := hs.2
  cases hs.1.move with
  | same hs => exact h.of_sites hs
  | drop hstop hpc hq => exact h.drop hstop hpc hq
  | test hu hpc hl =>
    rcases hpc with rfl | rfl
    · exact h.setPc hu.symm hl trivial
    · exact h.setPc hu.symm hl trivial
  | compute hpc =>
    exact h.setPc (by rw [hpc]; rfl) (by rw [hpc]; rfl) (h.newStream_eq hv hpc)
  | @readDest c n b l i hpc =>
    have hk := h.knows c
    rw [hpc] at hk
    exact h.setPc (by rw [hpc]; rfl) (by rw [hpc]; rfl)
      ⟨hk, h.dest l (h.only l c (located_held (by rw [hpc]; rfl))).1⟩
  | update hpc => exact h.update hpc
  | push hpc => exact h.push hpc
  | relink hr hl hu hne => exact h.relink hr hl hu hne
  | @setDest l r hr => exact h.setDest hr (hsteady rfl l r hr)

theorem Tracked.run {cfg : Config} (hv : cfg.Valid) {g : Global} (hg : Mapped cfg g) {s : Sys}
    {log : List (Label × Sys)} (hp : Path (SteadyStep cfg) (AbtSt.launch g) log s) :
    Tracked cfg g.Created s :=
  (hp.invariant (fun _ _ _ hs h => Tracked.step hv hs h) (.launch (hg.initial hv))).2

/-- A unit in a pool is at the stream that its current rank names, in particular
one that has just been handed over, and the index of the next stream is valid. -/
structure HandedOff (cfg : Config) (s : Sys) : Prop where
  landed : ∀ c l, PoolUnit.sched l ∈ (s.g.streams c).pool →
    (s.g.streams c).rank = (s.g.loads l).currRank
  finished : ∀ c b l n i t, (s.scheds c).pc = .updated l n i → SplitStep cfg (.sched c b) s t →
    ∃ d, PoolUnit.sched l ∈ (t.g.streams d).pool ∧ (t.g.streams d).rank = (t.g.loads l).currRank
  index : ∀ c l n, (s.scheds c).pc = .confirmed l n →
    0 ≤ newStream s c l ∧ newStream s c l < cfg.nrCores

theorem Tracked.rank_eq {cfg : Config} {S : LoadId → Prop} {s : Sys} (h : Tracked cfg S s) {c : Nat}
    (hu : (s.g.streams c).used = true) : (s.g.streams c).rank = c := by
  have hrank := h.linked.rank c (h.used_lt hu)
  rw [settled_streams] at hrank
  exact hrank

theorem Tracked.landed {cfg : Config} {S : LoadId → Prop} {s : Sys} (h : Tracked cfg S s) {c : Nat}
    {l : LoadId} (hl : PoolUnit.sched l ∈ (s.g.streams c).pool) :
    (s.g.streams c).rank = (s.g.loads l).currRank := by
  have hcount := List.count_pos_iff.mpr hl
  have hone := h.exclusive.le_one l c
  have hloc : 0 < s.located l c := by
    unfold Sys.located
    omega
  rw [h.rank_eq (h.only l c hloc).2]
  refine (h.here l c hloc (fun he => ?_)).symm
  have hheld : (s.scheds c).pc.holds l = 1 := by
    unfold Pc.holds
    rw [if_pos (unit_of_leaving he)]
  unfold Sys.located at hone
  omega

theorem Tracked.finished {cfg : Config} {S : LoadId → Prop} {s t : Sys} (h : Tracked cfg S s)
    {c n : Nat} {b : Bool} {l : LoadId} {i : Int} (hpc : (s.scheds c).pc = .updated l n i)
    (hs : SplitStep cfg (.sched c b) s t) :
    ∃ d, PoolUnit.sched l ∈ (t.g.streams d).pool ∧ (t.g.streams d).rank = (t.g.loads l).currRank := by
  have ht : t = (s.pushAt cfg i (.sched l)).setPc c .inner := by
    unfold SplitStep at hs
    rw [next] at hs
    split_ifs at hs
    unfold splitStep at hs
    rw [hpc] at hs
    exact (Option.some.inj hs).symm
  subst ht
  have hk := h.knows c
  rw [hpc] at hk
  have hlt := h.used_lt hk.2
  have hmem : PoolUnit.sched l ∈
      (((s.pushAt cfg i (.sched l)).setPc c .inner).g.streams (s.g.loads l).currRank).pool := by
    have hi := hk.1
    unfold Sys.pushAt
    rw [if_pos (by omega), hi]
    simp [Sys.push, Sys.setPool, Sys.setPc, Sys.setSched, Global.setStream]
  exact ⟨_, hmem, (h.push hpc).landed hmem⟩

/-- In every run in which no write of a target falls between the two reads of a
hand-over with another value, each unit lands where its current rank says and
every index computed for a hand-over is valid. -/
theorem hand_off_robust {cfg : Config} (hv : cfg.Valid) {g : Global} (hg : Mapped cfg g)
    {log : List (Label × Sys)} {s : Sys} (hp : Path (SteadyStep cfg) (launch g) log s) :
    HandedOff cfg s := by
  have h := Tracked.run hv hg hp
  refine ⟨fun c l hl => h.landed hl, fun c b l n i t hpc hs => h.finished hpc hs, ?_⟩
  intro c l n hpc
  have hS := (h.only l c (located_held (by rw [hpc]; rfl))).1
  have hlt := h.used_lt (h.dest l hS)
  rw [h.newStream_eq hv hpc]
  omega

def sendAway : List Label :=
  [Label.relink ⟨0, 0⟩ 1 3, Label.setDest] ++ List.replicate 9 (Label.sched 1 false)

theorem sendAway_result : ((smallStart.bind fun g =>
    play (next smallConfig (splitStep smallConfig)) sendAway (launch g)).any fun s =>
      decide (PoolUnit.sched ⟨0, 0⟩ ∈ (s.g.streams 3).pool)) = true := by
  decide +kernel

theorem launch_not_computed {cfg : Config} {g : Global} {l : LoadId} {src dst c n : Nat} {m : LoadId}
    {i : Int} {s : Sys} (h : next cfg (splitStep cfg) (.relink l src dst) (launch g) = some s) :
    (s.scheds c).pc ≠ .computed m n i := by
  rw [next] at h
  split_ifs at h
  rw [← Option.some.inj h]
  exact fun he => by cases he

theorem hand_off_robust_sendAway : ∃ g log s, Mapped smallConfig g ∧
    Path (SteadyStep smallConfig) (launch g) log s ∧ log.map Prod.fst = sendAway ∧
    PoolUnit.sched ⟨0, 0⟩ ∈ (s.g.streams 3).pool ∧ HandedOff smallConfig s := by
  obtain ⟨s, hs, hpool⟩ := (Option.any_eq_true _ _).mp sendAway_result
  obtain ⟨g, hg, hplay⟩ := Option.bind_eq_some_iff.mp hs
  obtain ⟨log, hlog, hp⟩ := play_path hplay
  have hsteady : Path (SteadyStep smallConfig) (launch g) log s := by
    cases hp with
    | nil => simp [sendAway] at hlog
    | cons h1 hp =>
      cases hp with
      | nil => simp [sendAway] at hlog
      | cons h2 hp =>
        simp only [sendAway, List.map_cons, List.cons_append, List.cons.injEq] at hlog
        obtain ⟨rfl, rfl, hlog⟩ := hlog
        refine .cons ⟨h1, fun h => by cases h⟩ (.cons ⟨h2, ?_⟩ (hp.mono ?_))
        · intro _ l r _ c n i hc
          exact absurd hc (launch_not_computed h1)
        · intro a s t ha hs
          refine ⟨hs, fun he => ?_⟩
          rw [hlog, he] at ha
          simp at ha
  have hm := startWith_mapped hg
  exact ⟨g, log, s, hm, hsteady, hlog, by simpa using hpool, hand_off_robust smallConfig_valid hm hsteady⟩

/-- The load is sent to stream 3, and called back after its scheduler has computed
the new stream and before it reads the target again. -/
def callBack : List Label :=
  [Label.relink ⟨0, 0⟩ 1 3, Label.setDest] ++ List.replicate 6 (Label.sched 1 false) ++
    [Label.relink ⟨0, 0⟩ 3 1, Label.setDest] ++ List.replicate 3 (Label.sched 1 false)

def sendOn : List Label :=
  [Label.relink ⟨0, 0⟩ 1 2, Label.setDest] ++ List.replicate 5 (Label.sched 3 false)

theorem callBack_result : ((smallStart.bind fun g =>
    play (next smallConfig (splitStep smallConfig)) callBack (launch g)).any fun s =>
      decide (PoolUnit.sched ⟨0, 0⟩ ∈ (s.g.streams 3).pool ∧ (s.g.streams 3).rank = 3 ∧
        (s.g.loads ⟨0, 0⟩).currRank = 1) &&
        (play (next smallConfig (splitStep smallConfig)) sendOn s).any fun t =>
          decide ((t.scheds 3).pc = .confirmed ⟨0, 0⟩ 1 ∧ newStream t 3 ⟨0, 0⟩ = 4)) = true := by
  decide +kernel

/-- The unit is in the pool of stream 3 with current rank 1; the next hand-over
then goes to the stream with index 4, which does not exist. -/
theorem hand_off_misses_stream : ∃ g log s log' t, Mapped smallConfig g ∧
    Path (SplitStep smallConfig) (launch g) log s ∧
    PoolUnit.sched ⟨0, 0⟩ ∈ (s.g.streams 3).pool ∧ (s.g.streams 3).rank = 3 ∧
    (s.g.loads ⟨0, 0⟩).currRank = 1 ∧ ¬ HandedOff smallConfig s ∧
    Path (SplitStep smallConfig) s log' t ∧ (t.scheds 3).pc = .confirmed ⟨0, 0⟩ 1 ∧
    newStream t 3 ⟨0, 0⟩ = 4 ∧ smallConfig.nrCores = 4 := by
  obtain ⟨s, hs, hres⟩ := (Option.any_eq_true _ _).mp callBack_result
  obtain ⟨g, hg, hplay⟩ := Option.bind_eq_some_iff.mp hs
  rw [Bool.and_eq_true, decide_eq_true_iff, Option.any_eq_true] at hres
  obtain ⟨⟨hmem, hrank, hcurr⟩, t, ht, hres⟩ := hres
  obtain ⟨hpc, hindex⟩ := of_decide_eq_true hres
  obtain ⟨log, _, hp⟩ := play_path hplay
  obtain ⟨log', _, hp'⟩ := play_path ht
  refine ⟨g, log, s, log', t, startWith_mapped hg, hp, hmem, hrank, hcurr, ?_, hp', hpc, hindex, rfl⟩
  intro h
  have := h.landed 3 ⟨0, 0⟩ hmem
  omega

end AbtSt
