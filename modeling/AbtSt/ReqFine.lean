import AbtSt.ReqLock

/-! Under the spin lock the instructions of a list operation act as one step. -/

namespace AbtSt

section Fine

variable {θ : Type} [DecidableEq θ]

section Unlinked

variable {f f' : FineState θ} {t : θ} {pc : ProdPc} {a : Nat} {pend : List Nat}

omit [DecidableEq θ] in
theorem Unlinked.of_prod (hu : Unlinked f pend) (hp : f'.prod = f.prod) : Unlinked f' pend := by
  refine ⟨?_, ?_, ?_⟩
  · rw [hp]
    exact hu.mem_iff
  · rw [hp]
    exact hu.apart
  · rw [hp]
    exact hu.busy

theorem busy_update (hu : Unlinked f pend) (hp : f'.prod = Function.update f.prod t pc)
    (hpc : ∀ a, pc ≠ .writing a []) (v : θ) (b : Nat) : f'.prod v ≠ .writing b [] := by
  by_cases hv : v = t
  · rw [hp, hv, Function.update_self]
    exact hpc b
  · rw [hp, Function.update_of_ne hv]
    exact hu.busy v b

theorem Unlinked.goto (hu : Unlinked f pend) (hp : f'.prod = Function.update f.prod t pc)
    (hnode : pc.node = (f.prod t).node) (hpc : ∀ a, pc ≠ .writing a []) : Unlinked f' pend := by
  have hsame : ∀ v, (f'.prod v).node = (f.prod v).node := by
    intro v
    by_cases hv : v = t
    · rw [hp, hv, Function.update_self, hnode]
    · rw [hp, Function.update_of_ne hv]
  refine ⟨fun b => ?_, fun v w b => ?_, busy_update hu hp hpc⟩
  · simp only [hsame]
    exact hu.mem_iff b
  · rw [hsame, hsame]
    exact hu.apart v w b

theorem Unlinked.request (hu : Unlinked f pend) (hp : f'.prod = Function.update f.prod t pc)
    (hold : (f.prod t).node = none) (hnew : pc.node = some a) (hpc : ∀ a, pc ≠ .writing a [])
    (ha : a ∉ pend) :
    Unlinked f' (a :: pend) := by
  have hnot : ∀ v, (f.prod v).node ≠ some a := fun v hv => ha ((hu.mem_iff a).mpr ⟨v, hv⟩)
  have hat : (f'.prod t).node = some a := by rw [hp, Function.update_self, hnew]
  have hother : ∀ v, v ≠ t → (f'.prod v).node = (f.prod v).node := by
    intro v hv
    rw [hp, Function.update_of_ne hv]
  refine ⟨fun b => ⟨fun hb => ?_, ?_⟩, fun v w b hv hw => ?_, busy_update hu hp hpc⟩
  · rcases List.mem_cons.mp hb with rfl | hb
    · exact ⟨t, hat⟩
    · obtain ⟨v, hv⟩ := (hu.mem_iff b).mp hb
      have hvt : v ≠ t := by
        rintro rfl
        rw [hold] at hv
        cases hv
      exact ⟨v, (hother v hvt).trans hv⟩
  · rintro ⟨v, hv⟩
    by_cases hvt : v = t
    · rw [hvt, hat] at hv
      exact List.mem_cons.mpr (Or.inl (Option.some.inj hv).symm)
    · rw [hother v hvt] at hv
      exact List.mem_cons_of_mem a ((hu.mem_iff b).mpr ⟨v, hv⟩)
  · by_cases hvt : v = t
    · by_cases hwt : w = t
      · rw [hvt, hwt]
      · rw [hvt, hat] at hv
        rw [hother w hwt, ← hv] at hw
        exact absurd hw (hnot w)
    · by_cases hwt : w = t
      · rw [hwt, hat] at hw
        rw [hother v hvt, ← hw] at hv
        exact absurd hv (hnot v)
      · rw [hother v hvt] at hv
        rw [hother w hwt] at hw
        exact hu.apart v w b hv hw

theorem Unlinked.linked (hu : Unlinked f pend) (hp : f'.prod = Function.update f.prod t pc)
    (hold : (f.prod t).node = some a) (hnew : pc.node = none) (hpc : ∀ a, pc ≠ .writing a [])
    (hnd : pend.Nodup) :
    Unlinked f' (pend.erase a) := by
  have hat : (f'.prod t).node = none := by rw [hp, Function.update_self, hnew]
  have hother : ∀ v, v ≠ t → (f'.prod v).node = (f.prod v).node := by
    intro v hv
    rw [hp, Function.update_of_ne hv]
  have hne : ∀ v b, (f'.prod v).node = some b → v ≠ t := by
    rintro v b hv rfl
    rw [hat] at hv
    cases hv
  refine ⟨fun b => ⟨fun hb => ?_, ?_⟩, fun v w b hv hw => ?_, busy_update hu hp hpc⟩
  · obtain ⟨hba, hb⟩ := hnd.mem_erase_iff.mp hb
    obtain ⟨v, hv⟩ := (hu.mem_iff b).mp hb
    have hvt : v ≠ t := by
      rintro rfl
      exact hba (Option.some.inj (hv.symm.trans hold))
    exact ⟨v, (hother v hvt).trans hv⟩
  · rintro ⟨v, hv⟩
    have hvt := hne v b hv
    rw [hother v hvt] at hv
    refine hnd.mem_erase_iff.mpr ⟨?_, (hu.mem_iff b).mpr ⟨v, hv⟩⟩
    rintro rfl
    exact hvt (hu.apart v t b hv hold)
  · have hvt := hne v b hv
    have hwt := hne w b hw
    rw [hother v hvt] at hv
    rw [hother w hwt] at hw
    exact hu.apart v w b hv hw

end Unlinked

section Steps

variable {cfg : Config} {h : Nat} {w : Who θ} {f f' : FineState θ} {m m' : ListMem}
  {pend pend' q : List Nat}

theorem Abstracts.of_outside (ha : Abstracts h f m pend) (hst : FineStep cfg h w f f')
    (hw : f'.lockPc w ≠ .inside) (hv : f'.val = f.val) (hm : f'.mem = f.mem)
    (hu : Unlinked f' pend') (hr : f'.pc.Reads h m) : Abstracts h f' m pend' :=
  ⟨hst.held ha.held, ha.memory.outside hw hst.elsewhere hv hm, hu, hr⟩

theorem Abstracts.of_inside (ha : Abstracts h f m pend) (hst : FineStep cfg h w f f')
    (hw : f'.lockPc w = .inside) (hp : Partly m' f'.mem (f'.full h m' w) (f'.todo w))
    (hu : Unlinked f' pend') (hr : f'.pc.Reads h m') : Abstracts h f' m' pend' :=
  ⟨hst.held ha.held, .of_inside (hst.held ha.held) hw hp, hu, hr⟩

theorem Abstracts.of_free (ha : Abstracts h f m pend) (hst : FineStep cfg h w f f')
    (hv : f'.val = false) (hm : f'.mem = m) (hu : Unlinked f' pend') (hr : f'.pc.Reads h m) :
    Abstracts h f' m pend' :=
  ⟨hst.held ha.held, .of_free (hst.held ha.held) hv hm, hu, hr⟩

/-- In the coarse system the step is matched, or nothing happens. -/
def Matched (cfg : Config) (h : Nat) (f f' : FineState θ) (m : ListMem) (pend : List Nat) : Prop :=
  ∃ m' pend', Abstracts h f' m' pend' ∧
    Relation.ReflTransGen (ReqStep cfg h) (f.coarse m pend) (f'.coarse m' pend')

theorem FineStep.producer_matched {t : θ} (hst : FineStep cfg h (.producer t) f f')
    (ha : Abstracts h f m pend) (hq : Queued h (f.coarse m pend) q) : Matched cfg h f f' m pend := by
  have hstay : ∀ {pc}, f.prod t = pc → pc.lockPc = .inside → pc.full h m = [] → pc.todo = [] →
      f.mem = m := by
    rintro _ rfl hin hfull htodo
    have hp := ha.memory.inside (.producer t) hin
    simp only [FineState.full, FineState.todo, hfull, htodo] at hp
    exact hp.none
  cases id hst with
  | @request _ _ core a req hreq hah hheap hp =>
    have haq : a ∉ pend := fun hm => (hq.pending a hm).1 hheap
    have hdead : ¬ f.Live h a := by
      rintro (hc | hc)
      · exact hah hc
      · exact hc hheap
    have hne : ∀ c, c ≠ a → initListHead a m c = m c ∧ initListHead a f.mem c = f.mem c :=
      fun c hc => ⟨initListHead_other m hc, initListHead_other f.mem hc⟩
    have hlive : ∀ c, f.Live h c → initListHead a m c = m c ∧ initListHead a f.mem c = f.mem c :=
      fun c hc => hne c (fun he => hdead (he ▸ hc))
    have hother : ∀ c, ¬ f.Live h c → initListHead a f.mem c = initListHead a m c := by
      intro c hc
      by_cases hca : c = a
      · simp [hca, initListHead, ListMem.setNext, ListMem.setPrev]
      · rw [(hne c hca).1, (hne c hca).2, ha.dead hq hc]
    refine ⟨initListHead a m, a :: pend, ⟨hst.held ha.held, ?_, ?_, ?_⟩, .single (.request hreq hah hheap)⟩
    · refine ha.rebase hq hlive hother ?_ hst.elsewhere rfl
      rw [FineState.lockPc_goto_same]
      simp [ProdPc.lockPc]
    · exact ha.unlinked.request rfl (by rw [hp]; rfl) rfl (by simp) haq
    · exact (ha.reads_congr hq (fun c hc => (hlive c hc).1)).1
  | busy hp hv =>
    refine ⟨m, pend, ha.of_outside hst ?_ rfl rfl
      (ha.unlinked.goto rfl (by rw [hp]; rfl) (by simp)) ha.reads, .refl⟩
    rw [FineState.lockPc_goto_same]
    simp [ProdPc.lockPc]
  | clear hp hv =>
    refine ⟨m, pend, ha.of_outside hst ?_ rfl rfl
      (ha.unlinked.goto rfl (by rw [hp]; rfl) (by simp)) ha.reads, .refl⟩
    rw [FineState.lockPc_goto_same]
    simp [ProdPc.lockPc]
  | take hp hv =>
    have hm := ha.memory.idle hv
    refine ⟨m, pend, ha.of_inside hst (FineState.lockPc_goto_same _ _ _) ?_
      (ha.unlinked.goto rfl (by rw [hp]; rfl) (by simp)) ha.reads, .refl⟩
    rw [(FineState.writes_goto_same h _ _ _ m).1, (FineState.writes_goto_same h _ _ _ m).2]
    exact ⟨[], rfl, hm⟩
  | readPrev hp =>
    have hm := hstay hp rfl rfl rfl
    refine ⟨m, pend, ha.of_inside hst (FineState.lockPc_goto_same _ _ _) ?_
      (ha.unlinked.goto rfl (by rw [hp]; rfl) (by simp [insertWrites])) ha.reads, .refl⟩
    rw [(FineState.writes_goto_same h _ _ _ m).1, (FineState.writes_goto_same h _ _ _ m).2]
    exact ⟨[], by rw [hm]; rfl, hm⟩
  | write hp hrest =>
    have hin := ha.memory.inside (.producer t) (by rw [FineState.lockPc, hp]; rfl)
    simp only [FineState.full, FineState.todo, hp, ProdPc.full, ProdPc.todo] at hin
    refine ⟨m, pend, ha.of_inside hst (FineState.lockPc_goto_same _ _ _) ?_
      (ha.unlinked.goto rfl (by rw [hp]; rfl) (by simpa using hrest)) ha.reads, .refl⟩
    rw [(FineState.writes_goto_same h _ _ _ m).1, (FineState.writes_goto_same h _ _ _ m).2]
    exact hin.write
  | @linked _ _ a w req hp hreq =>
    have hin := ha.memory.inside (.producer t) (by rw [FineState.lockPc, hp]; rfl)
    simp only [FineState.full, FineState.todo, hp, ProdPc.full, ProdPc.todo] at hin
    have hout := ha.outside (by rw [hp]; rfl : (f.prod t).lockPc = .inside)
    have hmem : w.exec f.mem = listAddTail a h m := hin.write.all
    have hpend : a ∈ pend := (ha.unlinked.mem_iff a).mpr ⟨t, by rw [hp]; rfl⟩
    have hlock : f.pc.coarse.holdsLock = false := by
      rw [Bool.eq_false_iff]
      exact fun hl => hout (f.pc.holdsLock_coarse.mp hl)
    refine ⟨listAddTail a h m, pend.erase a, ha.of_inside hst (FineState.lockPc_goto_same _ _ _) ?_
      (ha.unlinked.linked rfl (by rw [hp]; rfl) rfl (by simp) hq.pending_nodup)
      (ConsPc.reads_of_outside hout h _),
      .single (.append hpend hreq hlock)⟩
    rw [(FineState.writes_goto_same h _ _ _ _).1, (FineState.writes_goto_same h _ _ _ m).2]
    exact ⟨[], rfl, hmem⟩
  | release hp =>
    have hm := hstay hp rfl rfl rfl
    exact ⟨m, pend, ha.of_free hst rfl hm (ha.unlinked.goto rfl (by rw [hp]; rfl) (by simp)) ha.reads, .refl⟩

theorem FineStep.consumer_matched (hst : FineStep cfg h .consumer f f') (ha : Abstracts h f m pend) :
    Matched cfg h f f' m pend := by
  have hstay : ∀ {pc}, f.pc = pc → pc.lockPc = .inside → pc.full m = [] → pc.todo = [] → f.mem = m := by
    rintro _ rfl hin hfull htodo
    have hp := ha.memory.inside .consumer hin
    simp only [FineState.full, FineState.todo, hfull, htodo] at hp
    exact hp.none
  have hreads := ha.reads
  have hpend : Unlinked f' pend := by
    cases hst with
    | _ => exact ha.unlinked.of_prod rfl
  cases id hst with
  | call hp =>
    refine ⟨m, pend, ha.of_outside hst (by simp [FineState.lockPc, ConsPc.lockPc]) rfl rfl hpend trivial, ?_⟩
    simp only [FineState.coarse, hp]
    exact .refl
  | @lockBusy _ n polling hp hv =>
    refine ⟨m, pend, ha.of_outside hst (by simp [FineState.lockPc, ConsPc.lockPc]) rfl rfl hpend trivial, ?_⟩
    simp only [FineState.coarse, hp]
    cases n with
    | _ => exact .refl
  | @lockClear _ n hp hv =>
    refine ⟨m, pend, ha.of_outside hst (by simp [FineState.lockPc, ConsPc.lockPc]) rfl rfl hpend trivial, ?_⟩
    simp only [FineState.coarse, hp]
    cases n with
    | _ => exact .refl
  | @lock _ n hp hv =>
    have hm := ha.memory.idle hv
    cases n with
    | none =>
      refine ⟨m, pend, ha.of_inside hst rfl ⟨[], rfl, hm⟩ hpend trivial, .single ?_⟩
      exact .lock (by rw [FineState.coarse, hp]; rfl) (by rw [FineState.coarse, hp]; rfl)
    | some n =>
      refine ⟨m, pend, ha.of_inside hst rfl ⟨[], rfl, hm⟩ hpend trivial, .single ?_⟩
      exact .relock (by rw [FineState.coarse, hp]; rfl) (by rw [FineState.coarse, hp]; rfl)
  | first hp =>
    have hm := hstay hp rfl rfl rfl
    refine ⟨m, pend, ha.of_inside hst rfl ⟨[], rfl, hm⟩ hpend (by rw [hm]; rfl), ?_⟩
    simp only [FineState.coarse, hp]
    exact .refl
  | firstNext hp =>
    have hm := hstay hp rfl rfl rfl
    rw [hp] at hreads
    have hstep : ReqStep cfg h (f.coarse m pend)
        { f.coarse m pend with pc := .test (m h).next (m (m h).next).next } :=
      .first (by rw [FineState.coarse, hp]; rfl)
    refine ⟨m, pend, ha.of_inside hst rfl ⟨[], rfl, hm⟩ hpend trivial, .single ?_⟩
    simp only [FineState.coarse, hp] at hstep ⊢
    rw [hm, hreads]
    exact hstep
  | last hp =>
    have hm := hstay hp rfl rfl rfl
    have hstep : ReqStep cfg h (f.coarse m pend) { f.coarse m pend with pc := .leaving } :=
      .last (by rw [FineState.coarse, hp]; rfl)
    refine ⟨m, pend, ha.of_inside hst rfl ⟨[], rfl, hm⟩ hpend trivial, .single ?_⟩
    simp only [FineState.coarse, hp] at hstep ⊢
    exact hstep
  | visit hp hpos =>
    have hm := hstay hp rfl rfl rfl
    refine ⟨m, pend, ha.of_inside hst rfl ⟨[], rfl, hm⟩ hpend hpos, ?_⟩
    simp only [FineState.coarse, hp]
    exact .refl
  | delPrev hp =>
    have hm := hstay hp rfl rfl rfl
    rw [hp] at hreads
    refine ⟨m, pend, ha.of_inside hst rfl ⟨[], rfl, hm⟩ hpend ⟨hreads, by rw [hm]⟩, ?_⟩
    simp only [FineState.coarse, hp]
    exact .refl
  | delNext hp =>
    have hm := hstay hp rfl rfl rfl
    rw [hp] at hreads
    refine ⟨m, pend, ha.of_inside hst rfl ⟨[], by rw [hm, hreads.2]; rfl, hm⟩ hpend
      ⟨hreads.1, by simp [delWrites]⟩, ?_⟩
    simp only [FineState.coarse, hp]
    exact .refl
  | unlinkWrite hp hrest =>
    have hin := ha.memory.inside .consumer (by rw [FineState.lockPc, hp]; rfl)
    simp only [FineState.full, FineState.todo, hp, ConsPc.full, ConsPc.todo] at hin
    rw [hp] at hreads
    refine ⟨m, pend, ha.of_inside hst rfl hin.write hpend ⟨hreads.1, hrest⟩, ?_⟩
    simp only [FineState.coarse, hp]
    exact .refl
  | @unlinked _ pos n w hp =>
    have hin := ha.memory.inside .consumer (by rw [FineState.lockPc, hp]; rfl)
    simp only [FineState.full, FineState.todo, hp, ConsPc.full, ConsPc.todo] at hin
    rw [hp] at hreads
    have hmem : w.exec f.mem = listDel pos m := hin.write.all
    have hstep : ReqStep cfg h (f.coarse m pend)
        { f.coarse m pend with mem := listDel pos m, pc := .unlinked pos n } :=
      .unlink (by rw [FineState.coarse, hp]; rfl) hreads.1
    refine ⟨listDel pos m, pend, ha.of_inside hst rfl ⟨[], rfl, hmem⟩ hpend trivial, .single ?_⟩
    simp only [FineState.coarse, hp] at hstep ⊢
    exact hstep
  | unlock hp =>
    have hm := hstay hp rfl rfl rfl
    exact ⟨m, pend, ha.of_free hst rfl hm hpend trivial, .single (.unlock (by rw [FineState.coarse, hp]; rfl))⟩
  | @process _ pos n req pf g hp hreq hg =>
    have hstep : ReqStep cfg h (f.coarse m pend) { f.coarse m pend with
        pc := .free pos n, global := g, processed := f.processed ++ [req] } :=
      .process (by rw [FineState.coarse, hp]; rfl) hreq hg
    refine ⟨m, pend, ha.of_outside hst (by simp [FineState.lockPc, ConsPc.lockPc]) rfl rfl hpend trivial,
      .single ?_⟩
    simp only [FineState.coarse, hp] at hstep ⊢
    exact hstep
  | @free _ pos n hp =>
    have hstep : ReqStep cfg h (f.coarse m pend) { f.coarse m pend with
        pc := .relock n, heap := Function.update f.heap pos none } :=
      .free (by rw [FineState.coarse, hp]; rfl)
    refine ⟨m, pend, ha.of_outside hst (by simp [FineState.lockPc, ConsPc.lockPc]) rfl rfl hpend trivial,
      .single ?_⟩
    simp only [FineState.coarse, hp] at hstep ⊢
    exact hstep
  | @advance _ n hp =>
    have hm := hstay hp rfl rfl rfl
    have hstep : ReqStep cfg h (f.coarse m pend) { f.coarse m pend with pc := .test n (m n).next } :=
      .advance (by rw [FineState.coarse, hp]; rfl)
    refine ⟨m, pend, ha.of_inside hst rfl ⟨[], rfl, hm⟩ hpend trivial, .single ?_⟩
    simp only [FineState.coarse, hp] at hstep ⊢
    rw [hm]
    exact hstep
  | leave hp =>
    have hm := hstay hp rfl rfl rfl
    exact ⟨m, pend, ha.of_free hst rfl hm hpend trivial, .single (.leave (by rw [FineState.coarse, hp]; rfl))⟩

theorem FineStep.matched (hst : FineStep cfg h w f f') (ha : Abstracts h f m pend)
    (hq : Queued h (f.coarse m pend) q) : Matched cfg h f f' m pend := by
  cases w with
  | producer t => exact hst.producer_matched ha hq
  | consumer => exact hst.consumer_matched ha
  | rest =>
    cases id hst with
    | @other _ g mem' hm =>
      have hlive : ∀ c, f.Live h c → (if c = h ∨ f.heap c ≠ none then m c else mem' c) = m c ∧
          mem' c = f.mem c :=
        fun c hc => ⟨if_pos hc, hm c hc⟩
      have hdead : ∀ c, ¬ f.Live h c → mem' c = if c = h ∨ f.heap c ≠ none then m c else mem' c :=
        fun c hc => (if_neg hc).symm
      refine ⟨fun c => if c = h ∨ f.heap c ≠ none then m c else mem' c, pend, ⟨hst.held ha.held, ?_,
        ha.unlinked.of_prod rfl, (ha.reads_congr hq (fun c hc => (hlive c hc).1)).1⟩,
        .single (.other (fun c hc => (hlive c hc).1))⟩
      exact ha.rebase hq hlive hdead (by simp [FineState.lockPc]) hst.elsewhere rfl

def FineReach (cfg : Config) (h : Nat) (f f' : FineState θ) : Prop :=
  Relation.ReflTransGen (fun f f' => ∃ w, FineStep cfg h w f f') f f'

/-- Every fine run is a run of the system whose list operations are single steps. -/
theorem FineReach.abstracts {f₀ : FineState θ} (hinit : FineInit h f₀) (hr : FineReach cfg h f₀ f) :
    ∃ m pend, Abstracts h f m pend ∧
      Relation.ReflTransGen (ReqStep cfg h) (f₀.coarse f₀.mem []) (f.coarse m pend) := by
  induction hr with
  | refl => exact ⟨f₀.mem, [], hinit.abstracts, .refl⟩
  | tail _ hst ih =>
    obtain ⟨m, pend, ha, hrun⟩ := ih
    obtain ⟨q, hq⟩ := Queued.run hinit.coarse hrun
    obtain ⟨w, hst⟩ := hst
    obtain ⟨m', pend', ha', hrun'⟩ := hst.matched ha hq
    exact ⟨m', pend', ha', hrun.trans hrun'⟩

/-- A step of the holder brings it nearer to the end of its critical section. -/
theorem FineStep.turns_lt (hst : FineStep cfg h w f f') (hin : f.lockPc w = .inside)
    (hin' : f'.lockPc w = .inside) : f'.turns w < f.turns w := by
  cases hst with
  | request _ _ _ hp => rw [FineState.lockPc, hp] at hin; cases hin
  | @busy _ _ _ polling hp _ => rw [FineState.lockPc, hp] at hin; cases polling <;> cases hin
  | clear hp _ => rw [FineState.lockPc, hp] at hin; cases hin
  | take hp _ => rw [FineState.lockPc, hp] at hin; cases hin
  | readPrev hp => simp [FineState.turns, FineState.goto, hp, ProdPc.turns, insertWrites]
  | write hp _ => simp [FineState.turns, FineState.goto, hp, ProdPc.turns]
  | linked hp _ => simp [FineState.turns, FineState.goto, hp, ProdPc.turns]
  | release hp => rw [FineState.lockPc_goto_same] at hin'; cases hin'
  | call hp => rw [FineState.lockPc, hp] at hin; cases hin
  | @lockBusy _ _ polling hp _ => rw [FineState.lockPc, hp] at hin; cases polling <;> cases hin
  | lockClear hp _ => rw [FineState.lockPc, hp] at hin; cases hin
  | lock hp _ => rw [FineState.lockPc, hp] at hin; cases hin
  | process hp _ _ => rw [FineState.lockPc, hp] at hin; cases hin
  | free hp => rw [FineState.lockPc, hp] at hin; cases hin
  | unlock hp => cases hin'
  | leave hp => cases hin'
  | other => cases hin
  | _ hp => simp [FineState.turns, hp, ConsPc.turns, delWrites]

theorem FineStep.turns_other {u : Who θ} (hst : FineStep cfg h u f f') (hu : w ≠ u) :
    f'.turns w = f.turns w := by
  cases w with
  | producer v =>
    have hprod : f'.prod v = f.prod v := by
      cases hst with
      | request => exact Function.update_of_ne (fun he => hu (congrArg Who.producer he)) _ _
      | busy => exact Function.update_of_ne (fun he => hu (congrArg Who.producer he)) _ _
      | clear => exact Function.update_of_ne (fun he => hu (congrArg Who.producer he)) _ _
      | take => exact Function.update_of_ne (fun he => hu (congrArg Who.producer he)) _ _
      | readPrev => exact Function.update_of_ne (fun he => hu (congrArg Who.producer he)) _ _
      | write => exact Function.update_of_ne (fun he => hu (congrArg Who.producer he)) _ _
      | linked => exact Function.update_of_ne (fun he => hu (congrArg Who.producer he)) _ _
      | release => exact Function.update_of_ne (fun he => hu (congrArg Who.producer he)) _ _
      | _ => rfl
    rw [FineState.turns, FineState.turns, hprod]
  | consumer =>
    cases hst with
    | request => rfl
    | busy => rfl
    | clear => rfl
    | take => rfl
    | readPrev => rfl
    | write => rfl
    | linked => rfl
    | release => rfl
    | other => rfl
    | _ => exact absurd rfl hu
  | rest => rfl

theorem Abstracts.holder_steps (ha : Abstracts h f m pend) (hq : Queued h (f.coarse m pend) q)
    (hin : f.lockPc w = .inside) : ∃ f', FineStep cfg h w f f' := by
  have hp := ha.memory.inside w hin
  cases w with
  | producer t =>
    rw [FineState.lockPc] at hin
    cases hpc : f.prod t with
    | away => rw [hpc] at hin; cases hin
    | spin a polling => rw [hpc] at hin; cases polling <;> cases hin
    | readPrev a => exact ⟨_, .readPrev hpc⟩
    | writing a rest =>
      have hpend : a ∈ pend := (ha.unlinked.mem_iff a).mpr ⟨t, by rw [hpc]; rfl⟩
      obtain ⟨req, hreq⟩ := Option.ne_none_iff_exists'.mp (hq.pending a hpend).1
      cases rest with
      | nil => exact absurd hpc (ha.unlinked.busy t a)
      | cons x rest =>
        by_cases hrest : rest = []
        · subst hrest
          exact ⟨_, .linked hpc hreq⟩
        · exact ⟨_, .write hpc hrest⟩
    | leaving => exact ⟨_, .release hpc⟩
  | consumer =>
    rw [FineState.lockPc] at hin
    have hreads := ha.reads
    cases hpc : f.pc with
    | idle => rw [hpc] at hin; cases hin
    | spin n polling => rw [hpc] at hin; cases polling <;> cases hin
    | process => rw [hpc] at hin; cases hin
    | free => rw [hpc] at hin; cases hin
    | first => exact ⟨_, .first hpc⟩
    | firstNext pos => exact ⟨_, .firstNext hpc⟩
    | test pos n =>
      by_cases hpos : pos = h
      · exact ⟨_, .last (hpos ▸ hpc)⟩
      · exact ⟨_, .visit hpc hpos⟩
    | delPrev pos n => exact ⟨_, .delPrev hpc⟩
    | delNext pos n prev => exact ⟨_, .delNext hpc⟩
    | unlinking pos n rest =>
      rw [hpc] at hreads
      cases rest with
      | nil => exact absurd rfl hreads.2
      | cons x rest =>
        by_cases hrest : rest = []
        · subst hrest
          exact ⟨_, .unlinked hpc⟩
        · exact ⟨_, .unlinkWrite hpc hrest⟩
    | unlock pos n => exact ⟨_, .unlock hpc⟩
    | advance n => exact ⟨_, .advance hpc⟩
    | leaving => exact ⟨_, .leave hpc⟩
  | rest => cases hin

/-- A thread that finds the word clear is inside after at most two steps. -/
theorem FineState.enters (hv : f.val = false) (hw : f.lockPc w = .test ∨ f.lockPc w = .poll) :
    ∃ f', Relation.ReflTransGen (FineStep cfg h w) f f' ∧ f'.lockPc w = .inside := by
  cases w with
  | producer t =>
    have htake : ∀ {f : FineState θ} {a : Nat}, f.prod t = .spin a false → f.val = false →
        ∃ f', Relation.ReflTransGen (FineStep cfg h (.producer t)) f f' ∧
          f'.lockPc (.producer t) = .inside :=
      fun hp hv => ⟨_, .single (.take hp hv), lockPc_goto_same _ _ _⟩
    cases hp : f.prod t with
    | spin a polling =>
      cases polling with
      | false => exact htake hp hv
      | true =>
        have hclear : (f.goto t (.spin a false)).prod t = .spin a false := Function.update_self _ _ _
        obtain ⟨f', hrun, hin⟩ := htake hclear hv
        exact ⟨f', .head (.clear hp hv) hrun, hin⟩
    | _ =>
      rw [lockPc, hp] at hw
      rcases hw with hw | hw
      · cases hw
      · cases hw
  | consumer =>
    have htake : ∀ {f : FineState θ} {n : Option Nat}, f.pc = .spin n false → f.val = false →
        ∃ f', Relation.ReflTransGen (FineStep cfg h .consumer) f f' ∧ f'.lockPc .consumer = .inside := by
      intro f n hp hv
      refine ⟨_, .single (.lock hp hv), ?_⟩
      cases n with
      | none => rfl
      | some n => rfl
    cases hp : f.pc with
    | spin n polling =>
      cases polling with
      | false => exact htake hp hv
      | true =>
        obtain ⟨f', hrun, hin⟩ := htake (f := { f with pc := .spin n false }) rfl hv
        exact ⟨f', .head (.lockClear hp hv) hrun, hin⟩
    | _ =>
      rw [lockPc, hp] at hw
      rcases hw with hw | hw
      · cases hw
      · cases hw
  | rest =>
    rcases hw with hw | hw
    · cases hw
    · cases hw

end Steps

def emptyFine : FineState Bool where
  mem := initListHead 0 fun _ => ⟨0, 0⟩
  heap _ := none
  val := false
  prod _ := .away
  pc := .idle
  global := blank
  accepted := []
  processed := []

theorem emptyFine_init : FineInit 0 emptyFine :=
  ⟨⟨_, rfl⟩, fun _ => rfl, rfl, fun _ => rfl, rfl, rfl, rfl⟩

/-- One producer has linked its request and is still inside; the other polls. -/
theorem twoProducers_reached : ∃ f, FineReach smallConfig 0 emptyFine f ∧
    f.lockPc (.producer true) = .inside ∧ f.lockPc (.producer false) = .poll ∧
    f.accepted = [⟨.addCore, 1⟩] := by
  have hadd : abtstRebReqAddCore smallConfig 1 = some ⟨.addCore, 1⟩ := by decide +kernel
  have hrem : abtstRebReqRemoveCore smallConfig 3 = some ⟨.remCore, 3⟩ := by decide +kernel
  have h1 : (1 : Nat) ≠ 0 := by decide
  have h2 : (2 : Nat) ≠ 0 := by decide
  refine ⟨_, .tail (.tail (.tail (.tail (.tail (.tail (.tail (.tail (.tail .refl
    ⟨.producer true, .request (Or.inl hadd) h1 rfl rfl⟩) ⟨.producer true, .take rfl rfl⟩)
    ⟨.producer false, .request (Or.inr hrem) h2 rfl rfl⟩) ⟨.producer false, .busy rfl rfl⟩)
    ⟨.producer true, .readPrev rfl⟩) ⟨.producer true, .write rfl (by simp)⟩)
    ⟨.producer true, .write rfl (by simp)⟩) ⟨.producer true, .write rfl (by simp)⟩)
    ⟨.producer true, .linked rfl rfl⟩, rfl, rfl, rfl⟩

/-- The queue under the spin lock: at most one thread is inside; whatever the
interleaving of the instructions, the run is one whose list operations are single
steps, so the requests processed, in hand and queued are the accepted ones in
order, and the links are a ring whenever no write is outstanding. -/
theorem requests_under_spin_lock {cfg : Config} {h : Nat} {f₀ f : FineState θ} (hinit : FineInit h f₀)
    (hr : FineReach cfg h f₀ f) :
    (∀ w u, f.lockPc w = .inside → f.lockPc u = .inside → w = u) ∧
    ∃ s₀ s q, ReqInit h s₀ ∧ Relation.ReflTransGen (ReqStep cfg h) s₀ s ∧ s.heap = f.heap ∧
      s.pc = f.pc.coarse ∧ s.global = f.global ∧ s.accepted = f.accepted ∧ s.processed = f.processed ∧
      Ring s.mem h q ∧ ((∀ w, f.todo w = []) → s.mem = f.mem) ∧
      f.processed ++ f.pc.coarse.inHand.toList.filterMap f.heap ++ q.filterMap f.heap = f.accepted := by
  obtain ⟨m, pend, ha, hrun⟩ := hr.abstracts hinit
  obtain ⟨q, hq⟩ := Queued.run hinit.coarse hrun
  refine ⟨fun w u hw hu => ?_, f₀.coarse f₀.mem [], f.coarse m pend, q, hinit.coarse, hrun, rfl, rfl, rfl,
    rfl, rfl, hq.ring, fun htodo => (ha.quiet htodo).symm, hq.delivered⟩
  obtain ⟨o, ho⟩ := ha.held
  exact ho.eq hw hu

theorem requests_under_spin_lock_two : ∃ f, FineReach smallConfig 0 emptyFine f ∧
    f.lockPc (.producer true) = .inside ∧ ∃ (s : ReqState) (q : List Nat), Ring s.mem 0 q ∧
      f.processed ++ f.pc.coarse.inHand.toList.filterMap f.heap ++ q.filterMap f.heap =
        [⟨.addCore, 1⟩] := by
  obtain ⟨f, hr, hin, _, hacc⟩ := twoProducers_reached
  obtain ⟨_, _, s, q, _, _, _, _, _, _, _, hring, _, hdel⟩ := requests_under_spin_lock emptyFine_init hr
  exact ⟨f, hr, hin, s, q, hring, hdel.trans hacc⟩

/-- Nobody waits for ever on a holder: the one inside can always take a step, and
leaves after at most ten of its own, whatever the others do; a free lock is taken
by any thread that waits for it. -/
theorem spin_lock_progress {cfg : Config} {h : Nat} {f₀ f : FineState θ} (hinit : FineInit h f₀)
    (hr : FineReach cfg h f₀ f) :
    (∀ w, f.lockPc w = .inside → (∃ f', FineStep cfg h w f f') ∧ f.turns w ≤ 9 ∧
      (∀ f', FineStep cfg h w f f' → f'.lockPc w = .inside → f'.turns w < f.turns w) ∧
      ∀ u f', u ≠ w → FineStep cfg h u f f' → f'.lockPc w = .inside ∧ f'.turns w = f.turns w) ∧
    ((∀ w, f.lockPc w ≠ .inside) → ∀ w, f.lockPc w = .test ∨ f.lockPc w = .poll →
      ∃ f', Relation.ReflTransGen (FineStep cfg h w) f f' ∧ f'.lockPc w = .inside) := by
  obtain ⟨m, pend, ha, hrun⟩ := hr.abstracts hinit
  obtain ⟨q, hq⟩ := Queued.run hinit.coarse hrun
  refine ⟨fun w hin => ⟨ha.holder_steps hq hin, ha.turns_le hin, ?_, ?_⟩, fun hfree w hw => ?_⟩
  · exact fun f' hst hin' => hst.turns_lt hin hin'
  · exact fun u f' hu hst => ⟨((hst.elsewhere w (Ne.symm hu)).1).trans hin, hst.turns_other (Ne.symm hu)⟩
  · obtain ⟨o, ho⟩ := ha.held
    have hv : f.val = false := by
      cases o with
      | none => exact ho.word
      | some u => exact absurd ((ho.inside u).mpr rfl) (hfree u)
    exact FineState.enters hv hw

theorem spin_lock_progress_two : ∃ f, FineReach smallConfig 0 emptyFine f ∧
    f.lockPc (.producer true) = .inside ∧ ∃ f', FineStep smallConfig 0 (.producer true) f f' := by
  obtain ⟨f, hr, hin, _⟩ := twoProducers_reached
  exact ⟨f, hr, hin, ((spin_lock_progress emptyFine_init hr).1 _ hin).1⟩

end Fine

end AbtSt
