import AbtSt.Cores
import AbtSt.ListHead

/-! The queue of requests to add and remove cores. Producers append under a
lock; the consumer unlinks a request under the lock, works on it without the
lock, and goes on from the pointer that it saved before. -/

namespace AbtSt

inductive RebReqType
  | addCore
  | remCore
  deriving DecidableEq

structure RebRequest where
  type : RebReqType
  core : Int
  deriving DecidableEq

/-- The request that the caller allocates; `none` is the return value -1. -/
def abtstRebReqAddCore (cfg : Config) (core : Int) : Option RebRequest :=
  if core ≤ 0 ∨ cfg.nrCores ≤ u32 core then none else some ⟨.addCore, core⟩

/-- Here the number of cores is converted to `int`, and negative cores pass. -/
def abtstRebReqRemoveCore (cfg : Config) (core : Int) : Option RebRequest :=
  if i32 cfg.nrCores ≤ core then none else some ⟨.remCore, core⟩

def processRequest (pf : Platform) (cfg : Config) (req : RebRequest) (g : Global) :
    Except Fault Global :=
  match req.type with
  | .addCore => abtstRebProcessAddCore cfg req.core g
  | .remCore => abtstRebProcessRemoveCore pf cfg req.core g

/-- Where the consumer is in `abtst_reb_process_requests`. -/
inductive ReqPc
  | idle
  | locked
  | test (pos n : Nat)
  | unlinked (pos n : Nat)
  | process (pos n : Nat)
  | free (pos n : Nat)
  | relock (n : Nat)
  | advance (n : Nat)
  | leaving

namespace ReqPc

def holdsLock : ReqPc → Bool
  | locked | test _ _ | unlinked _ _ | advance _ | leaving => true
  | idle | process _ _ | free _ _ | relock _ => false

/-- The saved pointer. -/
def saved : ReqPc → Option Nat
  | test _ n | unlinked _ n | process _ n | free _ n | relock n | advance n => some n
  | idle | locked | leaving => none

/-- The request that the consumer has unlinked and not yet freed. -/
def owned : ReqPc → Option Nat
  | unlinked pos _ | process pos _ | free pos _ => some pos
  | _ => none

/-- The request that is unlinked and whose processing is not over. -/
def inHand : ReqPc → Option Nat
  | unlinked pos _ | process pos _ => some pos
  | _ => none

end ReqPc

/-- The heap maps the address of a request to its contents while it is
allocated. `pending` are the requests that producers have allocated and not yet
appended. `accepted` and `processed` record the requests in order. -/
structure ReqState where
  mem : ListMem
  heap : Nat → Option RebRequest
  pending : List Nat
  lock : Bool
  pc : ReqPc
  global : Global
  accepted : List RebRequest
  processed : List RebRequest

/-- One step of a producer, of the consumer, or of the rest of the system. The
queue head is at `h`; `malloc` may give out any address that is not in use, also
one that was freed before, and free memory may hold anything. -/
inductive ReqStep (cfg : Config) (h : Nat) : ReqState → ReqState → Prop
  | request {s : ReqState} {core : Int} {a : Nat} {req : RebRequest} :
      abtstRebReqAddCore cfg core = some req ∨ abtstRebReqRemoveCore cfg core = some req →
      a ≠ h → s.heap a = none →
      ReqStep cfg h s { s with
        heap := Function.update s.heap a (some req)
        mem := initListHead a s.mem
        pending := a :: s.pending }
  | append {s : ReqState} {a : Nat} {req : RebRequest} : a ∈ s.pending → s.heap a = some req →
      s.lock = false →
      ReqStep cfg h s { s with
        mem := listAddTail a h s.mem
        pending := s.pending.erase a
        accepted := s.accepted ++ [req] }
  | lock {s : ReqState} : s.pc = .idle → s.lock = false →
      ReqStep cfg h s { s with pc := .locked, lock := true }
  | first {s : ReqState} : s.pc = .locked →
      ReqStep cfg h s { s with pc := .test (s.mem h).next (s.mem (s.mem h).next).next }
  | last {s : ReqState} {n : Nat} : s.pc = .test h n → ReqStep cfg h s { s with pc := .leaving }
  | unlink {s : ReqState} {pos n : Nat} : s.pc = .test pos n → pos ≠ h →
      ReqStep cfg h s { s with mem := listDel pos s.mem, pc := .unlinked pos n }
  | unlock {s : ReqState} {pos n : Nat} : s.pc = .unlinked pos n →
      ReqStep cfg h s { s with pc := .process pos n, lock := false }
  | process {s : ReqState} {pos n : Nat} {req : RebRequest} {pf : Platform} {g : Global} :
      s.pc = .process pos n → s.heap pos = some req → processRequest pf cfg req s.global = .ok g →
      ReqStep cfg h s { s with pc := .free pos n, global := g, processed := s.processed ++ [req] }
  | free {s : ReqState} {pos n : Nat} : s.pc = .free pos n →
      ReqStep cfg h s { s with pc := .relock n, heap := Function.update s.heap pos none }
  | relock {s : ReqState} {n : Nat} : s.pc = .relock n → s.lock = false →
      ReqStep cfg h s { s with pc := .advance n, lock := true }
  | advance {s : ReqState} {n : Nat} : s.pc = .advance n →
      ReqStep cfg h s { s with pc := .test n (s.mem n).next }
  | leave {s : ReqState} : s.pc = .leaving → ReqStep cfg h s { s with pc := .idle, lock := false }
  | other {s : ReqState} {g : Global} {m : ListMem} :
      (∀ a, a = h ∨ s.heap a ≠ none → m a = s.mem a) →
      ReqStep cfg h s { s with global := g, mem := m }

structure ReqInit (h : Nat) (s : ReqState) : Prop where
  queue : ∃ m, s.mem = initListHead h m
  heap : ∀ a, s.heap a = none
  pending : s.pending = []
  lock : s.lock = false
  pc : s.pc = .idle
  accepted : s.accepted = []
  processed : s.processed = []

/-- What the pointers of the consumer refer to: the saved one to the first
request of the queue as it will be when it is used next, or to the head. -/
def ReqPc.Points (h : Nat) (q : List Nat) : ReqPc → Prop
  | test pos n => (pos = h ∧ (n = h ∨ n ∈ q)) ∨ ∃ rest, q = pos :: rest ∧ n = rest.headD h
  | unlinked _ n | process _ n | free _ n | relock n | advance n => n = h ∨ ∃ rest, q = n :: rest
  | idle | locked | leaving => True

/-- The queue holds the requests of `q`: they are allocated, and neither pending
nor in the hands of the consumer. -/
structure Queued (h : Nat) (s : ReqState) (q : List Nat) : Prop where
  ring : Ring s.mem h q
  alloc : ∀ a ∈ q, s.heap a ≠ none
  pending : ∀ a ∈ s.pending, s.heap a ≠ none ∧ a ∉ h :: q
  pending_nodup : s.pending.Nodup
  owned : ∀ a ∈ s.pc.owned, s.heap a ≠ none ∧ a ∉ h :: q ∧ a ∉ s.pending
  lock : s.lock = s.pc.holdsLock
  points : s.pc.Points h q
  delivered : s.processed ++ s.pc.inHand.toList.filterMap s.heap ++ q.filterMap s.heap = s.accepted

section Steps

variable {h : Nat} {s : ReqState} {q : List Nat}

theorem ReqInit.queued (hs : ReqInit h s) : Queued h s [] := by
  obtain ⟨m, hm⟩ := hs.queue
  refine ⟨hm ▸ Ring.init h m, by simp, by simp [hs.pending], by simp [hs.pending], ?_, ?_, ?_, ?_⟩
  · simp [hs.pc, ReqPc.owned]
  · simp [hs.lock, hs.pc, ReqPc.holdsLock]
  · simp [hs.pc, ReqPc.Points]
  · simp [hs.pc, ReqPc.inHand, hs.processed, hs.accepted]

theorem ReqPc.owned_of_inHand {pc : ReqPc} {a : Nat} (ha : a ∈ pc.inHand) : a ∈ pc.owned := by
  cases pc with
  | unlinked pos n => exact ha
  | process pos n => exact ha
  | _ => cases ha

theorem ReqPc.Points.append {pc : ReqPc} (hp : pc.Points h q) (hl : pc.holdsLock = false) (a : Nat) :
    pc.Points h (q ++ [a]) := by
  have hfirst : ∀ n, (n = h ∨ ∃ rest, q = n :: rest) → n = h ∨ ∃ rest, q ++ [a] = n :: rest := by
    rintro n (hn | ⟨rest, rfl⟩)
    · exact Or.inl hn
    · exact Or.inr ⟨rest ++ [a], rfl⟩
  cases pc with
  | idle => trivial
  | process pos n => exact hfirst n hp
  | free pos n => exact hfirst n hp
  | relock n => exact hfirst n hp
  | _ => cases hl

namespace Queued

theorem setPc (hs : Queued h s q) {pc : ReqPc} {lock : Bool} (howned : pc.owned = s.pc.owned)
    (hhand : pc.inHand = s.pc.inHand) (hlock : lock = pc.holdsLock) (hp : pc.Points h q) :
    Queued h { s with pc := pc, lock := lock } q := by
  refine ⟨hs.ring, hs.alloc, hs.pending, hs.pending_nodup, ?_, hlock, hp, ?_⟩
  · dsimp only
    rw [howned]
    exact hs.owned
  · dsimp only
    rw [hhand]
    exact hs.delivered

theorem request (hs : Queued h s q) {a : Nat} (req : RebRequest) (hah : a ≠ h)
    (ha : s.heap a = none) :
    Queued h { s with
      heap := Function.update s.heap a (some req)
      mem := initListHead a s.mem
      pending := a :: s.pending } q := by
  have hne : ∀ b, s.heap b ≠ none → b ≠ a := fun b hb he => hb (he ▸ ha)
  have hkeep : ∀ b, s.heap b ≠ none → Function.update s.heap a (some req) b = s.heap b :=
    fun b hb => Function.update_of_ne (hne b hb) _ _
  have halloc : ∀ b, s.heap b ≠ none → Function.update s.heap a (some req) b ≠ none :=
    fun b hb => by rw [hkeep b hb]; exact hb
  have haq : a ∉ h :: q := by
    rw [List.mem_cons]
    rintro (he | hm)
    · exact hah he
    · exact hs.alloc a hm ha
  have hap : a ∉ s.pending := fun hm => (hs.pending a hm).1 ha
  refine ⟨hs.ring.congr ?_, ?_, ?_, List.nodup_cons.mpr ⟨hap, hs.pending_nodup⟩, ?_, hs.lock,
    hs.points, ?_⟩
  · exact fun c hc => initListHead_other s.mem (fun he => haq (he ▸ hc))
  · exact fun b hb => halloc b (hs.alloc b hb)
  · intro b hb
    rcases List.mem_cons.mp hb with rfl | hb
    · exact ⟨by simp, haq⟩
    · exact ⟨halloc b (hs.pending b hb).1, (hs.pending b hb).2⟩
  · intro b hb
    obtain ⟨hheap, hbq, hbp⟩ := hs.owned b hb
    refine ⟨halloc b hheap, hbq, ?_⟩
    rw [List.mem_cons]
    rintro (he | hm)
    · exact hne b hheap he
    · exact hbp hm
  · have hhand : ∀ b ∈ s.pc.inHand.toList, Function.update s.heap a (some req) b = s.heap b := by
      intro b hb
      exact hkeep b (hs.owned b (ReqPc.owned_of_inHand (Option.mem_toList.mp hb))).1
    dsimp only
    rw [List.filterMap_congr hhand, List.filterMap_congr (fun b hb => hkeep b (hs.alloc b hb))]
    exact hs.delivered

theorem append (hs : Queued h s q) {a : Nat} {req : RebRequest} (ha : a ∈ s.pending)
    (hreq : s.heap a = some req) (hl : s.lock = false) :
    Queued h { s with
      mem := listAddTail a h s.mem
      pending := s.pending.erase a
      accepted := s.accepted ++ [req] } (q ++ [a]) := by
  obtain ⟨hheap, haq⟩ := hs.pending a ha
  have hmem : ∀ b, b ≠ a → b ∉ h :: q → b ∉ h :: (q ++ [a]) := by
    intro b hba hb
    simp only [List.mem_cons, List.mem_append, List.not_mem_nil, or_false, not_or] at hb ⊢
    exact ⟨hb.1, hb.2, hba⟩
  refine ⟨hs.ring.addTail haq, ?_, ?_, hs.pending_nodup.erase a, ?_, hs.lock, ?_, ?_⟩
  · intro b hb
    rcases List.mem_append.mp hb with hb | hb
    · exact hs.alloc b hb
    · obtain rfl : b = a := by simpa using hb
      exact hheap
  · intro b hb
    obtain ⟨hba, hb⟩ := hs.pending_nodup.mem_erase_iff.mp hb
    exact ⟨(hs.pending b hb).1, hmem b hba (hs.pending b hb).2⟩
  · intro b hb
    obtain ⟨hbheap, hbq, hbp⟩ := hs.owned b hb
    have hba : b ≠ a := fun he => hbp (he ▸ ha)
    exact ⟨hbheap, hmem b hba hbq, fun hm => hbp (List.mem_of_mem_erase hm)⟩
  · exact hs.points.append (by rw [← hs.lock, hl]) a
  · dsimp only
    rw [List.filterMap_append, ← hs.delivered]
    simp [hreq]

theorem unlink (hs : Queued h s q) {pos n : Nat} (hpc : s.pc = .test pos n) (hpos : pos ≠ h) :
    ∃ rest, q = pos :: rest ∧
      Queued h { s with mem := listDel pos s.mem, pc := .unlinked pos n } rest := by
  have hp := hs.points
  have hlock := hs.lock
  have hdel := hs.delivered
  rw [hpc] at hp hlock hdel
  obtain ⟨rest, rfl, hn⟩ : ∃ rest, q = pos :: rest ∧ n = rest.headD h := by
    rcases hp with ⟨he, _⟩ | hp
    · exact absurd he hpos
    · exact hp
  have hring := hs.ring
  have hnd := hring.nodup
  have hnotin : pos ∉ h :: rest := by
    have hr := (List.nodup_cons.mp (List.nodup_cons.mp hnd).2).1
    rw [List.mem_cons]
    rintro (he | hm)
    · exact hpos he
    · exact hr hm
  have hsub : ∀ b, b ∉ h :: pos :: rest → b ∉ h :: rest := by
    intro b hb hm
    rcases List.mem_cons.mp hm with rfl | hm
    · exact hb (by simp)
    · exact hb (by simp [hm])
  have hunlinked : Ring (listDel pos s.mem) h ([] ++ rest) := Ring.del hring
  refine ⟨rest, rfl, hunlinked, ?_, ?_, hs.pending_nodup, ?_, hlock, ?_, ?_⟩
  · exact fun b hb => hs.alloc b (List.mem_cons_of_mem pos hb)
  · exact fun b hb => ⟨(hs.pending b hb).1, hsub b (hs.pending b hb).2⟩
  · intro b hb
    obtain rfl : pos = b := Option.some.inj hb
    exact ⟨hs.alloc pos (by simp), hnotin, fun hm => (hs.pending pos hm).2 (by simp)⟩
  · cases rest with
    | nil => exact Or.inl hn
    | cons r rest => exact Or.inr ⟨rest, by rw [hn]; rfl⟩
  · obtain ⟨req, hreq⟩ := Option.ne_none_iff_exists'.mp (hs.alloc pos (by simp))
    simpa [ReqPc.inHand, hreq] using hdel

theorem process (hs : Queued h s q) {pos n : Nat} {req : RebRequest} {g : Global}
    (hpc : s.pc = .process pos n) (hreq : s.heap pos = some req) :
    Queued h { s with pc := .free pos n, global := g, processed := s.processed ++ [req] } q := by
  have hp := hs.points
  have hlock := hs.lock
  have howned := hs.owned
  have hdel := hs.delivered
  rw [hpc] at hp hlock howned hdel
  refine ⟨hs.ring, hs.alloc, hs.pending, hs.pending_nodup, howned, hlock, hp, ?_⟩
  simpa [ReqPc.inHand, hreq] using hdel

theorem free (hs : Queued h s q) {pos n : Nat} (hpc : s.pc = .free pos n) :
    Queued h { s with pc := .relock n, heap := Function.update s.heap pos none } q := by
  have hp := hs.points
  have hlock := hs.lock
  have howned := hs.owned
  have hdel := hs.delivered
  rw [hpc] at hp hlock howned hdel
  obtain ⟨_, hpq, hpp⟩ := howned pos rfl
  have hkeep : ∀ b, b ≠ pos → Function.update s.heap pos none b = s.heap b :=
    fun b hb => Function.update_of_ne hb _ _
  have hq : ∀ b ∈ q, Function.update s.heap pos none b = s.heap b :=
    fun b hb => hkeep b (fun he => hpq (by simp [← he, hb]))
  refine ⟨hs.ring, ?_, ?_, hs.pending_nodup, by simp [ReqPc.owned], hlock, hp, ?_⟩
  · intro b hb
    dsimp only
    rw [hq b hb]
    exact hs.alloc b hb
  · intro b hb
    dsimp only
    rw [hkeep b (fun he => hpp (he ▸ hb))]
    exact hs.pending b hb
  · dsimp only
    rw [List.filterMap_congr hq]
    exact hdel

theorem first (hs : Queued h s q) :
    (ReqPc.test (s.mem h).next (s.mem (s.mem h).next).next).Points h q := by
  have hring := hs.ring
  cases q with
  | nil =>
    have hn : (s.mem h).next = h := hring.next_head
    rw [hn, hn]
    exact Or.inl ⟨rfl, Or.inl rfl⟩
  | cons x rest =>
    have hn : (s.mem h).next = x := hring.next_head
    rw [hn]
    exact Or.inr ⟨rest, rfl, hring.next_first⟩

theorem advance (hs : Queued h s q) {n : Nat} (hn : n = h ∨ ∃ rest, q = n :: rest) :
    (ReqPc.test n (s.mem n).next).Points h q := by
  have hring := hs.ring
  rcases hn with rfl | ⟨rest, rfl⟩
  · refine Or.inl ⟨rfl, ?_⟩
    rw [hring.next_head]
    cases q with
    | nil => exact Or.inl rfl
    | cons x rest => exact Or.inr (by simp)
  · exact Or.inr ⟨rest, rfl, hring.next_first⟩

end Queued

theorem Queued.step {cfg : Config} {t : ReqState} (hs : Queued h s q) (hst : ReqStep cfg h s t) :
    ∃ q', Queued h t q' := by
  have hp := hs.points
  have hl := hs.lock
  cases hst with
  | request _ hah ha => exact ⟨q, hs.request _ hah ha⟩
  | append ha hreq hl => exact ⟨_, hs.append ha hreq hl⟩
  | lock hpc =>
    exact ⟨q, hs.setPc (by rw [hpc]; rfl) (by rw [hpc]; rfl) rfl trivial⟩
  | first hpc =>
    rw [hpc] at hl
    exact ⟨q, hs.setPc (by rw [hpc]; rfl) (by rw [hpc]; rfl) hl hs.first⟩
  | last hpc =>
    rw [hpc] at hl
    exact ⟨q, hs.setPc (by rw [hpc]; rfl) (by rw [hpc]; rfl) hl trivial⟩
  | unlink hpc hpos =>
    obtain ⟨rest, _, hq⟩ := hs.unlink hpc hpos
    exact ⟨rest, hq⟩
  | unlock hpc =>
    rw [hpc] at hp
    exact ⟨q, hs.setPc (by rw [hpc]; rfl) (by rw [hpc]; rfl) rfl hp⟩
  | process hpc hreq => exact ⟨q, hs.process hpc hreq⟩
  | free hpc => exact ⟨q, hs.free hpc⟩
  | relock hpc =>
    rw [hpc] at hp
    exact ⟨q, hs.setPc (by rw [hpc]; rfl) (by rw [hpc]; rfl) rfl hp⟩
  | advance hpc =>
    rw [hpc] at hp hl
    exact ⟨q, hs.setPc (by rw [hpc]; rfl) (by rw [hpc]; rfl) hl (hs.advance hp)⟩
  | leave hpc =>
    exact ⟨q, hs.setPc (by rw [hpc]; rfl) (by rw [hpc]; rfl) rfl trivial⟩
  | other hm =>
    refine ⟨q, hs.ring.congr (fun c hc => hm c ?_), hs.alloc, hs.pending, hs.pending_nodup,
      hs.owned, hs.lock, hs.points, hs.delivered⟩
    rcases List.mem_cons.mp hc with hc | hc
    · exact Or.inl hc
    · exact Or.inr (hs.alloc c hc)

theorem Queued.run {cfg : Config} {s₀ : ReqState} (hinit : ReqInit h s₀)
    (hr : Relation.ReflTransGen (ReqStep cfg h) s₀ s) : ∃ q, Queued h s q := by
  induction hr with
  | refl => exact ⟨[], hinit.queued⟩
  | tail _ hst ih =>
    obtain ⟨q, hq⟩ := ih
    exact hq.step hst

end Steps

/-- Every request is delivered once and in order: in every interleaving, the
requests processed, the one in hand and those in the queue are the accepted
ones in the order of their appends. The saved pointer refers to the head or to a
request in the queue, a request is visited only while it is in the queue, and
the one in hand is out of the queue and still allocated. -/
theorem requests_delivered_once_in_order {cfg : Config} {h : Nat} {s₀ s : ReqState}
    (hinit : ReqInit h s₀) (hr : Relation.ReflTransGen (ReqStep cfg h) s₀ s) :
    ∃ q, Ring s.mem h q ∧ (∀ q', Ring s.mem h q' → q' = q) ∧ (∀ a ∈ q, s.heap a ≠ none) ∧
      s.processed ++ s.pc.inHand.toList.filterMap s.heap ++ q.filterMap s.heap = s.accepted ∧
      (∀ n ∈ s.pc.saved, n = h ∨ n ∈ q) ∧
      (∀ pos n, s.pc = .test pos n → pos = h ∨ pos ∈ q) ∧
      ∀ a ∈ s.pc.inHand, a ∉ q ∧ s.heap a ≠ none := by
  obtain ⟨q, hq⟩ := Queued.run hinit hr
  have hp := hq.points
  refine ⟨q, hq.ring, fun q' hq' => hq'.unique hq.ring, hq.alloc, hq.delivered, ?_, ?_, ?_⟩
  · intro n hn
    have hfirst : (n = h ∨ ∃ rest, q = n :: rest) → n = h ∨ n ∈ q := by
      rintro (hn | ⟨rest, rfl⟩)
      · exact Or.inl hn
      · exact Or.inr (by simp)
    cases hpc : s.pc with
    | test pos m =>
      rw [hpc] at hp hn
      obtain rfl : m = n := Option.some.inj hn
      rcases hp with ⟨_, hp⟩ | ⟨rest, rfl, hm⟩
      · exact hp
      · cases rest with
        | nil => exact Or.inl hm
        | cons r rest => exact Or.inr (by simp [hm])
    | idle => rw [hpc] at hn; cases hn
    | locked => rw [hpc] at hn; cases hn
    | leaving => rw [hpc] at hn; cases hn
    | _ =>
      rw [hpc] at hp hn
      obtain rfl := Option.some.inj hn
      exact hfirst hp
  · intro pos n hpc
    rw [hpc] at hp
    rcases hp with ⟨hpos, _⟩ | ⟨rest, rfl, _⟩
    · exact Or.inl hpos
    · exact Or.inr (by simp)
  · intro a ha
    obtain ⟨hheap, haq, _⟩ := hq.owned a (ReqPc.owned_of_inHand ha)
    exact ⟨fun hm => haq (List.mem_cons_of_mem h hm), hheap⟩

def emptyQueue : ReqState where
  mem := initListHead 0 fun _ => ⟨0, 0⟩
  heap _ := none
  pending := []
  lock := false
  pc := .idle
  global := blank
  accepted := []
  processed := []

/-- The consumer has unlinked the only request and saved the head when a second
request is appended. -/
def midTraversal : ReqState where
  mem := listAddTail 2 0 (initListHead 2 (listDel 1 (listAddTail 1 0 (initListHead 1 emptyQueue.mem))))
  heap := Function.update (Function.update (fun _ => none) 1 (some ⟨.addCore, 1⟩)) 2
    (some ⟨.remCore, 3⟩)
  pending := []
  lock := false
  pc := .process 1 0
  global := blank
  accepted := [⟨.addCore, 1⟩, ⟨.remCore, 3⟩]
  processed := []

theorem midTraversal_reached :
    Relation.ReflTransGen (ReqStep smallConfig 0) emptyQueue midTraversal := by
  have hadd : abtstRebReqAddCore smallConfig 1 = some ⟨.addCore, 1⟩ := by decide +kernel
  have hrem : abtstRebReqRemoveCore smallConfig 3 = some ⟨.remCore, 3⟩ := by decide +kernel
  have h1 : (1 : Nat) ≠ 0 := by decide
  have h2 : (2 : Nat) ≠ 0 := by decide
  refine .head (.request (Or.inl hadd) h1 rfl) (.head (.append List.mem_cons_self rfl rfl) ?_)
  refine .head (.lock rfl rfl) (.head (.first rfl) (.head (.unlink rfl h1) (.head (.unlock rfl) ?_)))
  exact .head (.request (Or.inr hrem) h2 rfl) (.single (.append List.mem_cons_self rfl rfl))

theorem requests_delivered_once_in_order_two : ReqInit 0 emptyQueue ∧
    Relation.ReflTransGen (ReqStep smallConfig 0) emptyQueue midTraversal ∧
    ∃ q, Ring midTraversal.mem 0 q ∧
      [⟨.addCore, 1⟩] ++ q.filterMap midTraversal.heap = midTraversal.accepted := by
  have hinit : ReqInit 0 emptyQueue :=
    ⟨⟨_, rfl⟩, fun _ => rfl, rfl, rfl, rfl, rfl, rfl⟩
  obtain ⟨q, hring, _, _, hdel, _⟩ := requests_delivered_once_in_order hinit midTraversal_reached
  exact ⟨hinit, midTraversal_reached, q, hring, hdel⟩

/-- The consumer alone: the requests that stand in the queue, in their order. -/
def abtstRebProcessRequests (pf : Platform) (cfg : Config) (reqs : List RebRequest) (g : Global) :
    Except Fault Global :=
  reqs.foldlM (fun g req => processRequest pf cfg req g) g

/-- One used stream is out of use, its loads are on another used stream, and the
other streams are in use as before. -/
def RemovesOne (g t : Global) : Prop :=
  ∃ c d, c ≠ d ∧ (g.streams c).used = true ∧ (g.streams d).used = true ∧
    (t.streams c).used = false ∧ (t.streams c).loadQ = [] ∧
    (∀ l ∈ (g.streams c).loadQ, l ∈ (t.streams d).loadQ) ∧
    ∀ x, x ≠ c → (t.streams x).used = (g.streams x).used

/-- The request is accepted, and processing it removes a core of the system's choice. -/
def RemovesAny (cfg : Config) (core : Int) (g : Global) : Prop :=
  ∃ req, abtstRebReqRemoveCore cfg core = some req ∧
    ∀ pf, ∃ t, abtstRebProcessRequests pf cfg [req] g = .ok t ∧ RemovesOne g t

theorem abtstRebReqRemoveCore_negative {cfg : Config} {core : Int} (hcores : cfg.nrCores < 2 ^ 31)
    (hneg : core < 0) : abtstRebReqRemoveCore cfg core = some ⟨.remCore, core⟩ := by
  have hi : i32 cfg.nrCores = cfg.nrCores := i32_of_lt (by omega) (by omega)
  rw [abtstRebReqRemoveCore, hi, if_neg (by omega)]

/-- As an unsigned number a negative core is past the last one. -/
theorem abtstRebProcessRemoveCore_negative {cfg : Config} {core : Int} (pf : Platform) (g : Global)
    (hcores : cfg.nrCores < 2 ^ 31) (hint : -2 ^ 31 ≤ core) (hneg : core < 0) :
    abtstRebProcessRemoveCore pf cfg core g = .ok g := by
  have hu := cast_u32 core
  have hpast : cfg.nrCores ≤ u32 core := by omega
  unfold abtstRebProcessRemoveCore
  exact if_pos hpast

theorem abtstRebProcessRequests_negative {cfg : Config} {core : Int} (pf : Platform) (g : Global)
    (hcores : cfg.nrCores < 2 ^ 31) (hint : -2 ^ 31 ≤ core) (hneg : core < 0) :
    abtstRebProcessRequests pf cfg [⟨.remCore, core⟩] g = .ok g := by
  rw [abtstRebProcessRequests, List.foldlM_cons]
  exact except_bind_eq_ok.mpr
    ⟨g, abtstRebProcessRemoveCore_negative pf g hcores hint hneg, rfl⟩

theorem not_removesOne_self (g : Global) : ¬ RemovesOne g g := by
  rintro ⟨c, d, -, hused, -, hunused, -⟩
  simp [hused] at hunused

theorem not_removesAny_of_negative {cfg : Config} {core : Int} (hcores : cfg.nrCores < 2 ^ 31)
    (hint : -2 ^ 31 ≤ core) (hneg : core < 0) (g : Global) : ¬ RemovesAny cfg core g := by
  rintro ⟨req, hacc, hall⟩
  obtain rfl := Option.some.inj ((abtstRebReqRemoveCore_negative hcores hneg).symm.trans hacc)
  obtain ⟨t, ht, hone⟩ := hall sortedPlatform
  rw [abtstRebProcessRequests_negative sortedPlatform g hcores hint hneg, Except.ok.injEq] at ht
  subst ht
  exact not_removesOne_self g hone

/-- No request to remove a core of the system's choice does so: it is accepted
and put in the queue, and processing it leaves the system as it is. -/
theorem removesAny_never {cfg : Config} {core : Int} (hcores : cfg.nrCores < 2 ^ 31)
    (hint : -2 ^ 31 ≤ core) (hneg : core < 0) (g : Global) :
    (∃ req, abtstRebReqRemoveCore cfg core = some req ∧
      ∀ pf, abtstRebProcessRequests pf cfg [req] g = .ok g) ∧ ¬ RemovesAny cfg core g :=
  ⟨⟨_, abtstRebReqRemoveCore_negative hcores hneg,
    fun pf => abtstRebProcessRequests_negative pf g hcores hint hneg⟩,
    not_removesAny_of_negative hcores hint hneg g⟩

theorem removesAny_never_small : ∃ g, smallStart = some g ∧ ¬ RemovesAny smallConfig (-1) g := by
  obtain ⟨g, hg, _⟩ := smallStart_created
  exact ⟨g, hg, (removesAny_never (by decide) (by decide) (by decide) g).2⟩

/-- Two cores of node 1 are in use, and no core is removed. -/
theorem remove_any_ignored : ∃ g, smallStart = some g ∧ smallConfig.Valid ∧
    2 ≤ ((g.usedIn (smallConfig.coresOf 1)).filter (· ≠ 0)).length ∧
    ¬ RemovesAny smallConfig (-1) g := by
  obtain ⟨g, hg, -⟩ := smallStart_created
  have htwo : smallStart.map (fun g =>
      ((g.usedIn (smallConfig.coresOf 1)).filter (· ≠ 0)).length) = some 2 := by decide +kernel
  rw [hg, Option.map_some, Option.some.injEq] at htwo
  exact ⟨g, hg, smallConfig_valid, htwo.ge,
    not_removesAny_of_negative (by decide) (by decide) (by decide) g⟩

end AbtSt
