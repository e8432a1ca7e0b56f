import AbtSt.Shutdown
import AbtSt.Hash

/-! The storage application of `app/main.c`. The main thread goes round a table
of requests in flight: it fills each free slot, maps its key to a load and
creates a work unit in the pool of this load. The work unit frees its slot and
counts itself as ended. The main thread, the work units, the schedulers and the
rebalancer interleave in any order. -/

namespace AbtSt

def parallelIos : Nat := 128 * 8
def hashBlockSize : UInt32 := 64 * 1024
def hashTableBuckets : UInt32 := 1024 * 8 * 16

structure IoParam where
  used : Bool := false
  key : UserKey := ⟨0, 0⟩
  load : Option LoadId := none

/-- Where the main thread is in its loop over the slots. -/
inductive MainPc
  | scan (i : Nat)
  | claim (i : Nat)
  | fill (i : Nat)
  | route (i : Nat)
  | create (i : Nat) (l : LoadId)
  | count (i : Nat) (l : LoadId)
  | exit
  | done
  deriving DecidableEq

/-- The main thread has left its loop. -/
def MainPc.left : MainPc → Bool
  | .exit => true
  | .done => true
  | _ => false

/-- Where the work unit of a request is in `st_thread_func`: before the release
of its slot, after it, and on the way to `pkt_ended` of the load that it found. -/
inductive LwtPc
  | work (t : Nat)
  | released (t : Nat)
  | found (t : Nat) (l : LoadId)
  | ending (t : Nat) (l : LoadId) (v : Nat)
  deriving DecidableEq

def LwtPc.request : LwtPc → Nat
  | .work t => t
  | .released t => t
  | .found t _ => t
  | .ending t _ _ => t

structure Request where
  slot : Nat
  key : UserKey
  load : LoadId
  deriving DecidableEq

/-- What the loop is about: the number of slots, the key of each request in
turn, and the mapping with its parameter. -/
structure App where
  pf : Platform
  slots : Nat
  keys : Nat → UserKey
  mapping : Nat
  hash : HashInfo

/-- The keys of `main`: consecutive blocks of volume 1. -/
def mainKey (cnt : Nat) : UserKey := ⟨UInt64.ofNat cnt * hashBlockSize.toUInt64, 1⟩

def mainApp (pf : Platform) (mappingId : Nat) : App where
  pf := pf
  slots := parallelIos
  keys := mainKey
  mapping := mappingId
  hash := setHashInfo hashTableBuckets hashBlockSize abtstHashFunc

def randomMappingToLoad (pf : Platform) (nrLoads rand : UInt32) : Except Fault UInt32 := do
  let q ← pf.div32 rand nrLoads
  .ok (rand - q * nrLoads)

/-- The call through `mapping_to_load`, which `abtst_create_mapping` sets by the
type; `rand` is what `rand` returns. -/
def mappingToLoad (pf : Platform) (info : HashInfo) (x : Mapping) (rand : UInt32) (key : UserKey) :
    Except Fault UInt32 :=
  if x.type = mappingTypeHashing then hashMappingToLoad pf info (UInt32.ofNat x.nrLoads) key
  else if x.type = mappingTypeRandom then randomMappingToLoad pf (UInt32.ofNat x.nrLoads) rand
  else .error .badIndex

def mapKeyToLoad (app : App) (g : Global) (rand : UInt32) (key : UserKey) : Except Fault LoadId := do
  let load ← mappingToLoad app.pf app.hash (g.mappings app.mapping) rand key
  .ok ⟨app.mapping, load.toNat⟩

/-- The system with its application. Request `t` is the `t`-th entry of `issued`;
the requests that have begun and ended are recorded, and no step reads these. -/
structure Io where
  sys : Sys
  params : Nat → IoParam
  main : MainPc
  lwts : Nat → Option LwtPc
  issued : List Request
  begun : List Nat
  ended : List Nat

def startIo (g : Global) : Io where
  sys := launch g
  params _ := {}
  main := .scan 0
  lwts _ := none
  issued := []
  begun := []
  ended := []

namespace Io

def setParam (s : Io) (i : Nat) (p : IoParam) : Io := { s with params := Function.update s.params i p }

def setLwt (s : Io) (c : Nat) (p : Option LwtPc) : Io := { s with lwts := Function.update s.lwts c p }

def setLoad (s : Io) (l : LoadId) (x : Load) : Io := { s with sys := s.sys.setLoad l x }

def load (s : Io) (l : LoadId) : Load := s.sys.g.loads l

def requestOn (s : Io) (c : Nat) : Option Nat := (s.lwts c).map LwtPc.request

def loadOf (s : Io) (t : Nat) : Option LoadId := s.issued[t]?.map Request.load

/-- The requests of a list that go to a load. -/
def ofLoad (s : Io) (l : LoadId) (ts : List Nat) : List Nat := ts.filter (fun t => s.loadOf t = some l)

end Io

def abtstLoadIncStarted (x : Load) : Load := { x with pktStarted := (x.pktStarted + 1) % 2 ^ 64 }

/-- One step of the loop of `main`; `fails` is what `ABT_thread_create` and the
clock report. -/
def mainStep (cfg : Config) (app : App) (fails : Bool) (rand : UInt32) (s : Io) : Option Io :=
  match s.main with
  | .scan i =>
    if i < app.slots then
      some { s with main := if (s.params i).used = true then .scan (i + 1) else .claim i }
    else some { s with main := if fails = true then .exit else .scan 0 }
  | .claim i => some { s.setParam i { s.params i with used := true } with main := .fill i }
  | .fill i =>
    some { s.setParam i { s.params i with key := app.keys s.issued.length } with main := .route i }
  | .route i =>
    match mapKeyToLoad app s.sys.g rand (s.params i).key with
    | .error _ => none
    | .ok l => some { s.setParam i { s.params i with load := some l } with main := .create i l }
  | .create i l =>
    if fails = true then some { s with main := .exit }
    else
      match next cfg (splitStep cfg) (.create l s.issued.length) s.sys with
      | none => none
      | some t => some { s with
          sys := t
          main := .count i l
          issued := s.issued ++ [⟨i, (s.params i).key, l⟩] }
  | .count i l => some { s.setLoad l (abtstLoadIncStarted (s.load l)) with main := .scan (i + 1) }
  | .exit =>
    match next cfg (splitStep cfg) .stop s.sys with
    | none => none
    | some t => some { s with sys := t, main := .done }
  | .done => none

/-- One step of `st_thread_func` on a stream. The increment of `pkt_ended` is a
read and a write. -/
def stThreadFunc (c : Nat) (s : Io) : Option Io :=
  match s.lwts c with
  | none => none
  | some (.work t) =>
    match s.issued[t]? with
    | none => none
    | some r => some ((s.setParam r.slot { s.params r.slot with used := false }).setLwt c
        (some (.released t)))
  | some (.released t) =>
    match s.issued[t]? with
    | none => none
    | some r =>
      match (s.params r.slot).load with
      | none => none
      | some l => some (s.setLwt c (some (.found t l)))
  | some (.found t l) => some (s.setLwt c (some (.ending t l (s.load l).pktEnded)))
  | some (.ending t l v) =>
    some { (s.setLoad l { s.load l with pktEnded := (v + 1) % 2 ^ 64 }).setLwt c none with
      ended := s.ended ++ [t] }

/-- The work unit that a step of a sub-scheduler pops, with its stream. -/
def popped (s : Sys) : Label → Option (Nat × Nat)
  | .sched c _ =>
    match (s.scheds c).pc with
    | .running l k _ => if k < maxBatchCount then (s.g.loads l).pool.head?.map (c, ·) else none
    | _ => none
  | _ => none

/-- A scheduler waits for the work unit that it runs; work is created and the
system is stopped by the main thread. -/
def Io.waits (s : Io) : Label → Bool
  | .sched c _ => (s.lwts c).isSome
  | .create _ _ => true
  | .stop => true
  | _ => false

def sysStep (cfg : Config) (a : Label) (s : Io) : Option Io :=
  if s.waits a = true then none
  else
    match next cfg (splitStep cfg) a s.sys, popped s.sys a with
    | none, _ => none
    | some t, none => some { s with sys := t }
    | some t, some (c, x) => some { { s with sys := t }.setLwt c (some (.work x)) with
        begun := s.begun ++ [x] }

inductive Turn
  | sys (a : Label)
  | lwt (c : Nat)
  | main (fails : Bool) (rand : UInt32)
  deriving DecidableEq

def ioNext (cfg : Config) (app : App) : Turn → Io → Option Io
  | .sys a, s => sysStep cfg a s
  | .lwt c, s => stThreadFunc c s
  | .main fails rand, s => mainStep cfg app fails rand s

def IoStep (cfg : Config) (app : App) (w : Turn) (s t : Io) : Prop := ioNext cfg app w s = some t

/-- What one turn can do. -/
inductive IoMove (cfg : Config) (app : App) (s : Io) : Turn → Io → Prop
  | sys {a : Label} {t : Sys} : (∀ l x, a ≠ .create l x) → (∀ c b, a = .sched c b → s.lwts c = none) →
      SplitStep cfg a s.sys t → popped s.sys a = none → IoMove cfg app s (.sys a) { s with sys := t }
  | begins {c x : Nat} {b : Bool} {t : Sys} : s.lwts c = none → SplitStep cfg (.sched c b) s.sys t →
      popped s.sys (.sched c b) = some (c, x) → IoMove cfg app s (.sys (.sched c b))
        { { s with sys := t }.setLwt c (some (.work x)) with begun := s.begun ++ [x] }
  | release {c t : Nat} {r : Request} : s.lwts c = some (.work t) → s.issued[t]? = some r →
      IoMove cfg app s (.lwt c) ((s.setParam r.slot { s.params r.slot with used := false }).setLwt c
        (some (.released t)))
  | find {c t : Nat} {r : Request} {l : LoadId} : s.lwts c = some (.released t) →
      s.issued[t]? = some r → (s.params r.slot).load = some l →
      IoMove cfg app s (.lwt c) (s.setLwt c (some (.found t l)))
  | read {c t : Nat} {l : LoadId} : s.lwts c = some (.found t l) →
      IoMove cfg app s (.lwt c) (s.setLwt c (some (.ending t l (s.load l).pktEnded)))
  | finish {c t v : Nat} {l : LoadId} : s.lwts c = some (.ending t l v) → IoMove cfg app s (.lwt c)
      { (s.setLoad l { s.load l with pktEnded := (v + 1) % 2 ^ 64 }).setLwt c none with
        ended := s.ended ++ [t] }
  | scan {b : Bool} {z : UInt32} {i : Nat} {m : MainPc} : s.main = .scan i →
      (m = .scan (i + 1) ∨ m = .scan 0 ∨ m = .exit ∨
        m = .claim i ∧ i < app.slots ∧ (s.params i).used = false) →
      IoMove cfg app s (.main b z) { s with main := m }
  | claim {b : Bool} {z : UInt32} {i : Nat} : s.main = .claim i → IoMove cfg app s (.main b z)
      { s.setParam i { s.params i with used := true } with main := .fill i }
  | fill {b : Bool} {z : UInt32} {i : Nat} : s.main = .fill i → IoMove cfg app s (.main b z)
      { s.setParam i { s.params i with key := app.keys s.issued.length } with main := .route i }
  | route {b : Bool} {z : UInt32} {i : Nat} {l : LoadId} : s.main = .route i →
      mapKeyToLoad app s.sys.g z (s.params i).key = .ok l → IoMove cfg app s (.main b z)
        { s.setParam i { s.params i with load := some l } with main := .create i l }
  | fails {b : Bool} {z : UInt32} {i : Nat} {l : LoadId} : s.main = .create i l →
      IoMove cfg app s (.main b z) { s with main := .exit }
  | create {b : Bool} {z : UInt32} {i : Nat} {l : LoadId} {t : Sys} : s.main = .create i l →
      SplitStep cfg (.create l s.issued.length) s.sys t → IoMove cfg app s (.main b z) { s with
        sys := t
        main := .count i l
        issued := s.issued ++ [⟨i, (s.params i).key, l⟩] }
  | count {b : Bool} {z : UInt32} {i : Nat} {l : LoadId} : s.main = .count i l → IoMove cfg app s (.main b z)
      { s.setLoad l (abtstLoadIncStarted (s.load l)) with main := .scan (i + 1) }
  | stop {b : Bool} {z : UInt32} {t : Sys} : s.main = .exit → SplitStep cfg .stop s.sys t →
      IoMove cfg app s (.main b z) { s with sys := t, main := .done }

section Inversion

variable {cfg : Config} {app : App} {s t : Io}

theorem popped_sched {s : Sys} {a : Label} {c x : Nat} (h : popped s a = some (c, x)) :
    ∃ b l k n rest, a = .sched c b ∧ (s.scheds c).pc = .running l k n ∧ k < maxBatchCount ∧
      (s.g.loads l).pool = x :: rest := by
  cases a with
  | sched d b =>
    rw [popped] at h
    cases hpc : (s.scheds d).pc with
    | running l k n =>
      rw [hpc] at h
      dsimp only at h
      split_ifs at h with hk
      obtain ⟨y, hy, he⟩ := Option.map_eq_some_iff.mp h
      obtain ⟨rfl, rfl⟩ := Prod.mk.inj he
      obtain ⟨rest, hrest⟩ := List.head?_eq_some_iff.mp hy
      exact ⟨b, l, k, n, rest, rfl, hpc, hk, hrest⟩
    | _ =>
      rw [hpc] at h
      cases h
  | _ => cases h

theorem sysStep_move {a : Label} (h : sysStep cfg a s = some t) : IoMove cfg app s (.sys a) t := by
  unfold sysStep at h
  split_ifs at h with hw
  have hcreate : ∀ l x, a ≠ .create l x := by
    rintro l x rfl
    exact hw rfl
  have hfree : ∀ c b, a = .sched c b → s.lwts c = none := by
    rintro c b rfl
    simpa [Io.waits] using hw
  cases hn : next cfg (splitStep cfg) a s.sys with
  | none =>
    rw [hn] at h
    cases h
  | some u =>
    rw [hn] at h
    cases hp : popped s.sys a with
    | none =>
      rw [hp] at h
      rw [← Option.some.inj h]
      exact .sys hcreate hfree hn hp
    | some e =>
      obtain ⟨c, x⟩ := e
      rw [hp] at h
      obtain ⟨b, l, k, n, rest, rfl, _⟩ := popped_sched hp
      rw [← Option.some.inj h]
      exact .begins (hfree c b rfl) hn hp

theorem stThreadFunc_move {c : Nat} (h : stThreadFunc c s = some t) : IoMove cfg app s (.lwt c) t := by
  unfold stThreadFunc at h
  cases hl : s.lwts c with
  | none =>
    rw [hl] at h
    cases h
  | some p =>
    rw [hl] at h
    cases p with
    | work x =>
      dsimp only at h
      cases hr : s.issued[x]? with
      | none =>
        rw [hr] at h
        cases h
      | some r =>
        rw [hr] at h
        rw [← Option.some.inj h]
        exact .release hl hr
    | released x =>
      dsimp only at h
      cases hr : s.issued[x]? with
      | none =>
        rw [hr] at h
        cases h
      | some r =>
        rw [hr] at h
        dsimp only at h
        cases hp : (s.params r.slot).load with
        | none =>
          rw [hp] at h
          cases h
        | some l =>
          rw [hp] at h
          rw [← Option.some.inj h]
          exact .find hl hr hp
    | found x l =>
      rw [← Option.some.inj h]
      exact .read hl
    | ending x l v =>
      rw [← Option.some.inj h]
      exact .finish hl

theorem mainStep_move {b : Bool} {z : UInt32} (h : mainStep cfg app b z s = some t) :
    IoMove cfg app s (.main b z) t := by
  unfold mainStep at h
  cases hm : s.main with
  | scan i =>
    rw [hm] at h
    dsimp only at h
    split_ifs at h with hi hu hb <;> rw [← Option.some.inj h]
    · exact .scan hm (Or.inl rfl)
    · exact .scan hm (Or.inr (Or.inr (Or.inr ⟨rfl, hi, by simpa using hu⟩)))
    · exact .scan hm (Or.inr (Or.inr (Or.inl rfl)))
    · exact .scan hm (Or.inr (Or.inl rfl))
  | claim i =>
    rw [hm] at h
    rw [← Option.some.inj h]
    exact .claim hm
  | fill i =>
    rw [hm] at h
    rw [← Option.some.inj h]
    exact .fill hm
  | route i =>
    rw [hm] at h
    dsimp only at h
    cases hr : mapKeyToLoad app s.sys.g z (s.params i).key with
    | error e =>
      rw [hr] at h
      cases h
    | ok l =>
      rw [hr] at h
      rw [← Option.some.inj h]
      exact .route hm hr
  | create i l =>
    rw [hm] at h
    dsimp only at h
    split_ifs at h
    · rw [← Option.some.inj h]
      exact .fails hm
    · cases hn : next cfg (splitStep cfg) (.create l s.issued.length) s.sys with
      | none =>
        rw [hn] at h
        cases h
      | some u =>
        rw [hn] at h
        rw [← Option.some.inj h]
        exact .create hm hn
  | count i l =>
    rw [hm] at h
    rw [← Option.some.inj h]
    exact .count hm
  | exit =>
    rw [hm] at h
    dsimp only at h
    cases hn : next cfg (splitStep cfg) .stop s.sys with
    | none =>
      rw [hn] at h
      cases h
    | some u =>
      rw [hn] at h
      rw [← Option.some.inj h]
      exact .stop hm hn
  | done =>
    rw [hm] at h
    cases h

theorem IoStep.move {w : Turn} (h : IoStep cfg app w s t) : IoMove cfg app s w t := by
  cases w with
  | sys a => exact sysStep_move h
  | lwt c => exact stThreadFunc_move h
  | main b z => exact mainStep_move h

end Inversion

end AbtSt
