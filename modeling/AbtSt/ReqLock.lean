import AbtSt.Requests
import AbtSt.ListWrite
import AbtSt.SpinLock

/-! The queue of requests instruction by instruction. Producers and the consumer
wait for the spin lock; the links are written one at a time, and others take
their steps in between. -/

namespace AbtSt

/-- Where a producer is in `abtst_reb_req_add_core` or `abtst_reb_req_remove_core`;
`polling` tells the inner loop of `spin_lock` from the outer one. -/
inductive ProdPc
  | away
  | spin (a : Nat) (polling : Bool)
  | readPrev (a : Nat)
  | writing (a : Nat) (rest : List ListWrite)
  | leaving

namespace ProdPc

def lockPc : ProdPc → LockPc
  | away => .away
  | spin _ polling => if polling then .poll else .test
  | readPrev _ | writing _ _ | leaving => .inside

/-- The writes of the list operation that it is in, and those still to be done. -/
def full (h : Nat) (m : ListMem) : ProdPc → List ListWrite
  | writing a _ => insertWrites a (m h).prev h
  | _ => []

def todo : ProdPc → List ListWrite
  | writing _ rest => rest
  | _ => []

/-- The request that is not yet linked. -/
def node : ProdPc → Option Nat
  | spin a _ | readPrev a | writing a _ => some a
  | away | leaving => none

end ProdPc

/-- Where the consumer is in `abtst_reb_process_requests`; the lock is taken
first, and again with the pointer `n` saved. -/
inductive ConsPc
  | idle
  | spin (n : Option Nat) (polling : Bool)
  | first
  | firstNext (pos : Nat)
  | test (pos n : Nat)
  | delPrev (pos n : Nat)
  | delNext (pos n prev : Nat)
  | unlinking (pos n : Nat) (rest : List ListWrite)
  | unlock (pos n : Nat)
  | process (pos n : Nat)
  | free (pos n : Nat)
  | advance (n : Nat)
  | leaving

namespace ConsPc

def lockPc : ConsPc → LockPc
  | idle | process _ _ | free _ _ => .away
  | spin _ polling => if polling then .poll else .test
  | _ => .inside

/-- The writes of the list operation that it is in, and those still to be done. -/
def full (m : ListMem) : ConsPc → List ListWrite
  | unlinking pos _ _ => delWrites pos (m pos).prev (m pos).next
  | _ => []

def todo : ConsPc → List ListWrite
  | unlinking _ _ rest => rest
  | _ => []

def locked : Option Nat → ConsPc
  | none => first
  | some n => advance n

/-- The place in the program whose list operations are single steps. -/
def coarse : ConsPc → ReqPc
  | idle => .idle
  | spin none _ => .idle
  | spin (some n) _ => .relock n
  | first | firstNext _ => .locked
  | test pos n | delPrev pos n | delNext pos n _ | unlinking pos n _ => .test pos n
  | unlock pos n => .unlinked pos n
  | process pos n => .process pos n
  | free pos n => .free pos n
  | advance n => .advance n
  | leaving => .leaving

/-- What the consumer has read is what stands there. -/
def Reads (h : Nat) (m : ListMem) : ConsPc → Prop
  | firstNext pos => pos = (m h).next
  | delPrev pos _ => pos ≠ h
  | delNext pos _ prev => pos ≠ h ∧ prev = (m pos).prev
  | unlinking pos _ rest => pos ≠ h ∧ rest ≠ []
  | _ => True

theorem holdsLock_coarse (pc : ConsPc) : pc.coarse.holdsLock = true ↔ pc.lockPc = .inside := by
  cases pc with
  | spin n polling =>
    cases n with
    | none => cases polling <;> simp [coarse, lockPc, ReqPc.holdsLock]
    | some n => cases polling <;> simp [coarse, lockPc, ReqPc.holdsLock]
  | _ => simp [coarse, lockPc, ReqPc.holdsLock]

end ConsPc

inductive Who (θ : Type)
  | producer (t : θ)
  | consumer
  | rest

structure FineState (θ : Type) where
  mem : ListMem
  heap : Nat → Option RebRequest
  val : Bool
  prod : θ → ProdPc
  pc : ConsPc
  global : Global
  accepted : List RebRequest
  processed : List RebRequest

section Fine

variable {θ : Type}

namespace FineState

def lockPc (f : FineState θ) : Who θ → LockPc
  | .producer t => (f.prod t).lockPc
  | .consumer => f.pc.lockPc
  | .rest => .away

def full (h : Nat) (f : FineState θ) (m : ListMem) : Who θ → List ListWrite
  | .producer t => (f.prod t).full h m
  | .consumer => f.pc.full m
  | .rest => []

def todo (f : FineState θ) : Who θ → List ListWrite
  | .producer t => (f.prod t).todo
  | .consumer => f.pc.todo
  | .rest => []

/-- The state of the system whose list operations are single steps, with the
memory `m` and the pending requests `pend`. -/
def coarse (f : FineState θ) (m : ListMem) (pend : List Nat) : ReqState :=
  ⟨m, f.heap, pend, f.pc.coarse.holdsLock, f.pc.coarse, f.global, f.accepted, f.processed⟩

/-- What the others hold and are about to write stays. -/
def Elsewhere (h : Nat) (w : Who θ) (f f' : FineState θ) : Prop :=
  ∀ u, u ≠ w → f'.lockPc u = f.lockPc u ∧ (∀ m, f'.full h m u = f.full h m u) ∧ f'.todo u = f.todo u

theorem elsewhere_consumer (h : Nat) {f f' : FineState θ} (hf : f'.prod = f.prod) :
    Elsewhere h .consumer f f' := by
  intro u hu
  cases u with
  | producer t => exact ⟨congrArg ProdPc.lockPc (congrFun hf t), fun m =>
      congrArg (ProdPc.full h m) (congrFun hf t), congrArg ProdPc.todo (congrFun hf t)⟩
  | consumer => exact absurd rfl hu
  | rest => exact ⟨rfl, fun _ => rfl, rfl⟩

end FineState

/-- `m` is the memory before the list operation that is under way. -/
structure InMemory (h : Nat) (f : FineState θ) (m : ListMem) : Prop where
  inside : ∀ w, f.lockPc w = .inside → Partly m f.mem (f.full h m w) (f.todo w)
  idle : f.val = false → f.mem = m

/-- The pending requests are those of the producers, each of one. -/
structure Unlinked (f : FineState θ) (pend : List Nat) : Prop where
  mem_iff : ∀ a, a ∈ pend ↔ ∃ t, (f.prod t).node = some a
  apart : ∀ t u a, (f.prod t).node = some a → (f.prod u).node = some a → t = u
  busy : ∀ t a, f.prod t ≠ .writing a []

structure Abstracts (h : Nat) (f : FineState θ) (m : ListMem) (pend : List Nat) : Prop where
  held : ∃ o, LockHeld f.val f.lockPc o
  memory : InMemory h f m
  unlinked : Unlinked f pend
  reads : f.pc.Reads h m

section Memory

variable {h : Nat} {f f' : FineState θ} {m m' : ListMem} {w : Who θ} {pend q : List Nat}

theorem InMemory.of_inside (hheld : ∃ o, LockHeld f.val f.lockPc o) (hw : f.lockPc w = .inside)
    (hp : Partly m f.mem (f.full h m w) (f.todo w)) : InMemory h f m := by
  obtain ⟨o, ho⟩ := hheld
  refine ⟨fun u hu => ?_, fun hv => ?_⟩
  · rw [ho.eq hu hw]
    exact hp
  · exact absurd hw (LockHeld.free (hv ▸ ho) w)

theorem InMemory.of_free (hheld : ∃ o, LockHeld f.val f.lockPc o) (hv : f.val = false) (hm : f.mem = m) :
    InMemory h f m := by
  obtain ⟨o, ho⟩ := hheld
  exact ⟨fun u hu => absurd hu (LockHeld.free (hv ▸ ho) u), fun _ => hm⟩

/-- A step of one who neither holds the lock nor takes it. -/
theorem InMemory.outside (hmem : InMemory h f m) (hw : f'.lockPc w ≠ .inside)
    (helse : f.Elsewhere h w f') (hv : f'.val = f.val) (hm : f'.mem = f.mem) : InMemory h f' m := by
  refine ⟨fun u hu => ?_, fun h0 => by rw [hm, hmem.idle (by rw [← hv, h0])]⟩
  have huw : u ≠ w := fun he => hw (he ▸ hu)
  obtain ⟨hlock, hfull, htodo⟩ := helse u huw
  rw [hlock] at hu
  rw [hfull, htodo, hm]
  exact hmem.inside u hu

theorem ConsPc.reads_of_outside {pc : ConsPc} (hpc : pc.lockPc ≠ .inside) (h : Nat) (m : ListMem) :
    pc.Reads h m := by
  cases pc with
  | firstNext => exact absurd rfl hpc
  | delPrev => exact absurd rfl hpc
  | delNext => exact absurd rfl hpc
  | unlinking => exact absurd rfl hpc
  | _ => trivial

/-- While a producer is inside, the consumer is not. -/
theorem Abstracts.outside (ha : Abstracts h f m pend) {t : θ} (hp : (f.prod t).lockPc = .inside) :
    f.pc.lockPc ≠ .inside := by
  obtain ⟨o, ho⟩ := ha.held
  intro hc
  cases ho.eq (t := .producer t) (u := .consumer) hp hc

/-- The addresses that others may not touch. -/
def FineState.Live (h : Nat) (f : FineState θ) (c : Nat) : Prop := c = h ∨ f.heap c ≠ none

theorem Queued.live_ring (hq : Queued h (f.coarse m pend) q) {c : Nat} (hc : c ∈ h :: q) :
    f.Live h c := by
  rcases List.mem_cons.mp hc with hc | hc
  · exact Or.inl hc
  · exact Or.inr (hq.alloc c hc)

theorem Queued.visited {pos n : Nat} (hq : Queued h (f.coarse m pend) q)
    (hpc : f.pc.coarse = .test pos n) (hpos : pos ≠ h) : ∃ rest, q = pos :: rest := by
  have hpoints := hq.points
  simp only [FineState.coarse, hpc, ReqPc.Points] at hpoints
  rcases hpoints with ⟨he, _⟩ | ⟨r, hr, _⟩
  · exact absurd he hpos
  · exact ⟨r, hr⟩

theorem Abstracts.live_full (ha : Abstracts h f m pend) (hq : Queued h (f.coarse m pend) q) (w : Who θ) :
    ∀ x ∈ f.full h m w, f.Live h x.addr := by
  have hring : Ring m h q := hq.ring
  have hprev : f.Live h (m h).prev := hq.live_ring hring.seg.prev_mem
  cases w with
  | producer t =>
    cases hp : f.prod t with
    | writing a rest =>
      have hpend : a ∈ pend := (ha.unlinked.mem_iff a).mpr ⟨t, by rw [hp]; rfl⟩
      have hnew : f.Live h a := Or.inr (hq.pending a hpend).1
      have hhead : f.Live h h := Or.inl rfl
      simp only [FineState.full, hp, ProdPc.full, insertWrites, List.forall_mem_cons]
      exact ⟨hhead, hnew, hnew, hprev, fun x hx => by cases hx⟩
    | _ => simp [FineState.full, hp, ProdPc.full]
  | consumer =>
    cases hp : f.pc with
    | unlinking pos n rest =>
      have hreads := ha.reads
      rw [hp] at hreads
      obtain ⟨r, rfl⟩ := hq.visited (by rw [hp]; rfl) hreads.1
      obtain ⟨_, hback, hseg⟩ := hring.seg
      have hpos : f.Live h pos := hq.live_ring (by simp)
      have hnext : f.Live h (m pos).next := by
        rw [hseg.next_eq]
        refine hq.live_ring ?_
        cases r with
        | nil => simp
        | cons y r => simp
      have hhead : f.Live h (m pos).prev := hback ▸ Or.inl rfl
      simp only [FineState.full, hp, ConsPc.full, delWrites, List.forall_mem_cons]
      exact ⟨hnext, hhead, hpos, hpos, fun x hx => by cases hx⟩
    | _ => simp [FineState.full, hp, ConsPc.full]
  | rest => simp [FineState.full]

/-- What is read under the lock stands at addresses that others may not touch. -/
theorem Abstracts.reads_congr (ha : Abstracts h f m pend) (hq : Queued h (f.coarse m pend) q)
    {m₁ : ListMem} (hlive : ∀ c, f.Live h c → m₁ c = m c) :
    f.pc.Reads h m₁ ∧ ∀ u, f.full h m₁ u = f.full h m u := by
  have hhead : m₁ h = m h := hlive h (Or.inl rfl)
  have hreads := ha.reads
  have hvisit : ∀ pos n, f.pc.coarse = .test pos n → pos ≠ h → m₁ pos = m pos := by
    intro pos n hpc hpos
    obtain ⟨r, rfl⟩ := hq.visited hpc hpos
    exact hlive pos (hq.live_ring (by simp))
  refine ⟨?_, fun u => ?_⟩
  · cases hp : f.pc with
    | firstNext pos =>
      rw [hp] at hreads
      rw [ConsPc.Reads, hhead]
      exact hreads
    | delNext pos n prev =>
      rw [hp] at hreads
      rw [ConsPc.Reads, hvisit pos n (by rw [hp]; rfl) hreads.1]
      exact hreads
    | delPrev pos n =>
      rw [hp] at hreads
      exact hreads
    | unlinking pos n rest =>
      rw [hp] at hreads
      exact hreads
    | _ => trivial
  · cases u with
    | producer t =>
      cases hp : f.prod t with
      | writing a rest => simp only [FineState.full, hp, ProdPc.full, hhead]
      | _ => simp only [FineState.full, hp, ProdPc.full]
    | consumer =>
      cases hp : f.pc with
      | unlinking pos n rest =>
        rw [hp] at hreads
        simp only [FineState.full, hp, ConsPc.full, hvisit pos n (by rw [hp]; rfl) hreads.1]
      | _ => simp only [FineState.full, hp, ConsPc.full]
    | rest => rfl

/-- The memory changes where nothing is allocated, in a step of one who is outside. -/
theorem Abstracts.rebase (ha : Abstracts h f m pend) (hq : Queued h (f.coarse m pend) q) {m₁ : ListMem}
    (hlive : ∀ c, f.Live h c → m₁ c = m c ∧ f'.mem c = f.mem c)
    (hdead : ∀ c, ¬ f.Live h c → f'.mem c = m₁ c) (hw : f'.lockPc w ≠ .inside)
    (helse : f.Elsewhere h w f') (hv : f'.val = f.val) : InMemory h f' m₁ := by
  refine ⟨fun u hu => ?_, fun h0 => ?_⟩
  · have huw : u ≠ w := fun he => hw (he ▸ hu)
    obtain ⟨hlock, hfull, htodo⟩ := helse u huw
    rw [hlock] at hu
    rw [hfull, htodo, (ha.reads_congr hq (fun c hc => (hlive c hc).1)).2]
    exact (ha.memory.inside u hu).rebase (ha.live_full hq u) hlive hdead
  · have hm := ha.memory.idle (by rw [← hv, h0])
    funext c
    by_cases hc : f.Live h c
    · rw [(hlive c hc).1, (hlive c hc).2, hm]
    · exact hdead c hc

theorem Abstracts.dead (ha : Abstracts h f m pend) (hq : Queued h (f.coarse m pend) q) {c : Nat}
    (hc : ¬ f.Live h c) : f.mem c = m c := by
  obtain ⟨o, ho⟩ := ha.held
  cases o with
  | none => rw [ha.memory.idle ho.word]
  | some u =>
    refine (ha.memory.inside u ((ho.inside u).mpr rfl)).dead (fun x hx he => hc ?_)
    rw [← he]
    exact ha.live_full hq u x hx

end Memory

structure FineInit (h : Nat) (f : FineState θ) : Prop where
  queue : ∃ m, f.mem = initListHead h m
  heap : ∀ a, f.heap a = none
  val : f.val = false
  prod : ∀ t, f.prod t = .away
  pc : f.pc = .idle
  accepted : f.accepted = []
  processed : f.processed = []

theorem FineInit.coarse {h : Nat} {f : FineState θ} (hf : FineInit h f) : ReqInit h (f.coarse f.mem []) :=
  ⟨hf.queue, hf.heap, rfl, by rw [FineState.coarse, hf.pc]; rfl, by rw [FineState.coarse, hf.pc]; rfl,
    hf.accepted, hf.processed⟩

theorem FineInit.abstracts {h : Nat} {f : FineState θ} (hf : FineInit h f) : Abstracts h f f.mem [] := by
  have hnone : ∀ w, f.lockPc w ≠ .inside := by
    intro w
    cases w with
    | producer t => simp [FineState.lockPc, hf.prod t, ProdPc.lockPc]
    | consumer => simp [FineState.lockPc, hf.pc, ConsPc.lockPc]
    | rest => simp [FineState.lockPc]
  refine ⟨⟨none, hf.val, fun w => ⟨fun hin => absurd hin (hnone w), fun he => by cases he⟩⟩,
    ⟨fun w hin => absurd hin (hnone w), fun _ => rfl⟩, ⟨?_, ?_, ?_⟩, by rw [hf.pc]; trivial⟩
  · intro a
    simp [hf.prod, ProdPc.node]
  · intro t u a ht
    rw [hf.prod] at ht
    cases ht
  · intro t a
    simp [hf.prod]

/-- Instructions until the lock is released. -/
def ProdPc.turns : ProdPc → Nat
  | readPrev _ => 5
  | writing _ rest => rest.length
  | _ => 0

def ConsPc.turns : ConsPc → Nat
  | first => 9
  | firstNext _ | advance _ => 8
  | test _ _ => 7
  | delPrev _ _ => 6
  | delNext _ _ _ => 5
  | unlinking _ _ rest => rest.length
  | _ => 0

def FineState.turns (f : FineState θ) : Who θ → Nat
  | .producer t => (f.prod t).turns
  | .consumer => f.pc.turns
  | .rest => 0

section Turns

variable {h : Nat} {f : FineState θ} {m : ListMem} {w : Who θ} {pend : List Nat}

/-- Where no write is outstanding, the links are those between two operations. -/
theorem Abstracts.quiet (ha : Abstracts h f m pend) (htodo : ∀ w, f.todo w = []) : f.mem = m := by
  have hfull : ∀ w, f.full h m w = [] := by
    intro w
    have hw := htodo w
    cases w with
    | producer t =>
      cases hp : f.prod t with
      | writing a rest =>
        simp only [FineState.todo, hp, ProdPc.todo] at hw
        exact absurd (hw ▸ hp) (ha.unlinked.busy t a)
      | _ => simp only [FineState.full, hp, ProdPc.full]
    | consumer =>
      have hreads := ha.reads
      cases hp : f.pc with
      | unlinking pos n rest =>
        rw [hp] at hreads
        simp only [FineState.todo, hp, ConsPc.todo] at hw
        exact absurd hw hreads.2
      | _ => simp only [FineState.full, hp, ConsPc.full]
    | rest => rfl
  obtain ⟨o, ho⟩ := ha.held
  cases o with
  | none => exact ha.memory.idle ho.word
  | some w =>
    have hp := ha.memory.inside w ((ho.inside w).mpr rfl)
    rw [hfull, htodo] at hp
    exact hp.none

theorem Abstracts.turns_le (ha : Abstracts h f m pend) (hin : f.lockPc w = .inside) :
    f.turns w ≤ 9 := by
  have hp := ha.memory.inside w hin
  cases w with
  | producer t =>
    cases hpc : f.prod t with
    | writing a rest =>
      obtain ⟨before, hfull, _⟩ := hp
      simp only [FineState.full, FineState.todo, hpc, ProdPc.full, ProdPc.todo] at hfull
      have hlen := congrArg List.length hfull
      simp only [List.length_append, insertWrites, List.length_cons, List.length_nil] at hlen
      simp only [FineState.turns, hpc, ProdPc.turns]
      omega
    | _ => simp [FineState.turns, hpc, ProdPc.turns]
  | consumer =>
    cases hpc : f.pc with
    | unlinking pos n rest =>
      obtain ⟨before, hfull, _⟩ := hp
      simp only [FineState.full, FineState.todo, hpc, ConsPc.full, ConsPc.todo] at hfull
      have hlen := congrArg List.length hfull
      simp only [List.length_append, delWrites, List.length_cons, List.length_nil] at hlen
      simp only [FineState.turns, hpc, ConsPc.turns]
      omega
    | _ => simp [FineState.turns, hpc, ConsPc.turns]
  | rest => simp [FineState.turns]

end Turns

variable [DecidableEq θ]

def FineState.goto (f : FineState θ) (t : θ) (pc : ProdPc) : FineState θ :=
  { f with prod := Function.update f.prod t pc }

/-- One instruction of a producer or of the consumer, or a step of the rest of
the system, which leaves the head and the requests alone. -/
inductive FineStep (cfg : Config) (h : Nat) : Who θ → FineState θ → FineState θ → Prop
  | request {f : FineState θ} {t : θ} {core : Int} {a : Nat} {req : RebRequest} :
      abtstRebReqAddCore cfg core = some req ∨ abtstRebReqRemoveCore cfg core = some req →
      a ≠ h → f.heap a = none → f.prod t = .away →
      FineStep cfg h (.producer t) f ({ f with
        heap := Function.update f.heap a (some req)
        mem := initListHead a f.mem }.goto t (.spin a false))
  | busy {f : FineState θ} {t : θ} {a : Nat} {polling : Bool} : f.prod t = .spin a polling →
      f.val = true → FineStep cfg h (.producer t) f (f.goto t (.spin a true))
  | clear {f : FineState θ} {t : θ} {a : Nat} : f.prod t = .spin a true → f.val = false →
      FineStep cfg h (.producer t) f (f.goto t (.spin a false))
  | take {f : FineState θ} {t : θ} {a : Nat} : f.prod t = .spin a false → f.val = false →
      FineStep cfg h (.producer t) f ({ f with val := true }.goto t (.readPrev a))
  | readPrev {f : FineState θ} {t : θ} {a : Nat} : f.prod t = .readPrev a →
      FineStep cfg h (.producer t) f (f.goto t (.writing a (insertWrites a (f.mem h).prev h)))
  | write {f : FineState θ} {t : θ} {a : Nat} {w : ListWrite} {rest : List ListWrite} :
      f.prod t = .writing a (w :: rest) → rest ≠ [] →
      FineStep cfg h (.producer t) f ({ f with mem := w.exec f.mem }.goto t (.writing a rest))
  | linked {f : FineState θ} {t : θ} {a : Nat} {w : ListWrite} {req : RebRequest} :
      f.prod t = .writing a [w] → f.heap a = some req →
      FineStep cfg h (.producer t) f ({ f with
        mem := w.exec f.mem
        accepted := f.accepted ++ [req] }.goto t .leaving)
  | release {f : FineState θ} {t : θ} : f.prod t = .leaving →
      FineStep cfg h (.producer t) f ({ f with val := false }.goto t .away)
  | call {f : FineState θ} : f.pc = .idle →
      FineStep cfg h .consumer f { f with pc := .spin none false }
  | lockBusy {f : FineState θ} {n : Option Nat} {polling : Bool} : f.pc = .spin n polling →
      f.val = true → FineStep cfg h .consumer f { f with pc := .spin n true }
  | lockClear {f : FineState θ} {n : Option Nat} : f.pc = .spin n true → f.val = false →
      FineStep cfg h .consumer f { f with pc := .spin n false }
  | lock {f : FineState θ} {n : Option Nat} : f.pc = .spin n false → f.val = false →
      FineStep cfg h .consumer f { f with pc := .locked n, val := true }
  | first {f : FineState θ} : f.pc = .first →
      FineStep cfg h .consumer f { f with pc := .firstNext (f.mem h).next }
  | firstNext {f : FineState θ} {pos : Nat} : f.pc = .firstNext pos →
      FineStep cfg h .consumer f { f with pc := .test pos (f.mem pos).next }
  | last {f : FineState θ} {n : Nat} : f.pc = .test h n →
      FineStep cfg h .consumer f { f with pc := .leaving }
  | visit {f : FineState θ} {pos n : Nat} : f.pc = .test pos n → pos ≠ h →
      FineStep cfg h .consumer f { f with pc := .delPrev pos n }
  | delPrev {f : FineState θ} {pos n : Nat} : f.pc = .delPrev pos n →
      FineStep cfg h .consumer f { f with pc := .delNext pos n (f.mem pos).prev }
  | delNext {f : FineState θ} {pos n prev : Nat} : f.pc = .delNext pos n prev →
      FineStep cfg h .consumer f
        { f with pc := .unlinking pos n (delWrites pos prev (f.mem pos).next) }
  | unlinkWrite {f : FineState θ} {pos n : Nat} {w : ListWrite} {rest : List ListWrite} :
      f.pc = .unlinking pos n (w :: rest) → rest ≠ [] →
      FineStep cfg h .consumer f { f with mem := w.exec f.mem, pc := .unlinking pos n rest }
  | unlinked {f : FineState θ} {pos n : Nat} {w : ListWrite} : f.pc = .unlinking pos n [w] →
      FineStep cfg h .consumer f { f with mem := w.exec f.mem, pc := .unlock pos n }
  | unlock {f : FineState θ} {pos n : Nat} : f.pc = .unlock pos n →
      FineStep cfg h .consumer f { f with pc := .process pos n, val := false }
  | process {f : FineState θ} {pos n : Nat} {req : RebRequest} {pf : Platform} {g : Global} :
      f.pc = .process pos n → f.heap pos = some req → processRequest pf cfg req f.global = .ok g →
      FineStep cfg h .consumer f
        { f with pc := .free pos n, global := g, processed := f.processed ++ [req] }
  | free {f : FineState θ} {pos n : Nat} : f.pc = .free pos n →
      FineStep cfg h .consumer f
        { f with pc := .spin (some n) false, heap := Function.update f.heap pos none }
  | advance {f : FineState θ} {n : Nat} : f.pc = .advance n →
      FineStep cfg h .consumer f { f with pc := .test n (f.mem n).next }
  | leave {f : FineState θ} : f.pc = .leaving →
      FineStep cfg h .consumer f { f with pc := .idle, val := false }
  | other {f : FineState θ} {g : Global} {m : ListMem} :
      (∀ a, a = h ∨ f.heap a ≠ none → m a = f.mem a) →
      FineStep cfg h .rest f { f with global := g, mem := m }

theorem FineState.lockPc_goto_same (f : FineState θ) (t : θ) (pc : ProdPc) :
    (f.goto t pc).lockPc (.producer t) = pc.lockPc := by
  simp [FineState.lockPc, FineState.goto]

theorem FineState.writes_goto_same (h : Nat) (f : FineState θ) (t : θ) (pc : ProdPc) (m : ListMem) :
    (f.goto t pc).full h m (.producer t) = pc.full h m ∧ (f.goto t pc).todo (.producer t) = pc.todo := by
  simp [FineState.full, FineState.todo, FineState.goto]

theorem FineState.elsewhere_goto (h : Nat) (f : FineState θ) (t : θ) (pc : ProdPc) :
    f.Elsewhere h (.producer t) (f.goto t pc) := by
  intro u hu
  cases u with
  | producer v =>
    have hv : v ≠ t := fun he => hu (he ▸ rfl)
    simp [FineState.lockPc, FineState.full, FineState.todo, FineState.goto, hv]
  | _ => exact ⟨rfl, fun _ => rfl, rfl⟩

theorem FineStep.lockMove {cfg : Config} {h : Nat} {w : Who θ} {f f' : FineState θ}
    (hst : FineStep cfg h w f f') : LockMove f.val (f.lockPc w) f'.val (f'.lockPc w) := by
  cases hst with
  | request _ _ _ hp =>
    rw [FineState.lockPc_goto_same, FineState.lockPc, hp]
    exact .want
  | @busy f t a polling hp hv =>
    rw [FineState.lockPc_goto_same, FineState.lockPc, hp]
    change LockMove f.val _ f.val _
    rw [hv]
    cases polling with
    | false => exact .busy
    | true => exact .work
  | @clear f _ _ hp hv =>
    rw [FineState.lockPc_goto_same, FineState.lockPc, hp]
    change LockMove f.val _ f.val _
    rw [hv]
    exact .clear
  | take hp hv =>
    rw [FineState.lockPc_goto_same, FineState.lockPc, hp, hv]
    exact .take
  | readPrev hp =>
    rw [FineState.lockPc_goto_same, FineState.lockPc, hp]
    exact .work
  | write hp _ =>
    rw [FineState.lockPc_goto_same, FineState.lockPc, hp]
    exact .work
  | linked hp _ =>
    rw [FineState.lockPc_goto_same, FineState.lockPc, hp]
    exact .work
  | release hp =>
    rw [FineState.lockPc_goto_same, FineState.lockPc, hp]
    exact .release
  | call hp =>
    simp only [FineState.lockPc, hp]
    exact .want
  | @lockBusy f n polling hp hv =>
    simp only [FineState.lockPc, hp, hv]
    cases polling with
    | false => exact .busy
    | true => exact .work
  | lockClear hp hv =>
    simp only [FineState.lockPc, hp, hv]
    exact .clear
  | @lock f n hp hv =>
    simp only [FineState.lockPc, hp, hv]
    cases n with
    | none => exact .take
    | some n => exact .take
  | unlock hp =>
    simp only [FineState.lockPc, hp]
    exact .release
  | leave hp =>
    simp only [FineState.lockPc, hp]
    exact .release
  | free hp =>
    simp only [FineState.lockPc, hp]
    exact .want
  | process hp =>
    simp only [FineState.lockPc, hp]
    exact .work
  | other => exact .work
  | _ hp =>
    simp only [FineState.lockPc, hp]
    exact .work

theorem FineStep.elsewhere {cfg : Config} {h : Nat} {w : Who θ} {f f' : FineState θ}
    (hst : FineStep cfg h w f f') : f.Elsewhere h w f' := by
  cases hst with
  | request => exact FineState.elsewhere_goto h _ _ _
  | busy => exact FineState.elsewhere_goto h _ _ _
  | clear => exact FineState.elsewhere_goto h _ _ _
  | take => exact FineState.elsewhere_goto h _ _ _
  | readPrev => exact FineState.elsewhere_goto h _ _ _
  | write => exact FineState.elsewhere_goto h _ _ _
  | linked => exact FineState.elsewhere_goto h _ _ _
  | release => exact FineState.elsewhere_goto h _ _ _
  | other =>
    intro u _
    cases u with
    | _ => exact ⟨rfl, fun _ => rfl, rfl⟩
  | _ =>
    refine FineState.elsewhere_consumer h ?_
    rfl

theorem FineStep.held {cfg : Config} {h : Nat} {w : Who θ} {f f' : FineState θ}
    (hst : FineStep cfg h w f f') (hf : ∃ o, LockHeld f.val f.lockPc o) :
    ∃ o, LockHeld f'.val f'.lockPc o := by
  obtain ⟨o, ho⟩ := hf
  exact ho.step hst.lockMove (fun u hu => (hst.elsewhere u hu).1)

end Fine

end AbtSt
