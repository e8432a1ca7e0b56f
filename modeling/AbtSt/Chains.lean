import AbtSt.ListHead
import AbtSt.Runs
import Mathlib.Data.Nat.Pairing

/-! The queues of the streams as they lie in memory: circular lists whose heads
are in the streams and whose nodes are in the loads. What the program does to
the links is what the model does to its lists. -/

namespace AbtSt

/-- Where the heads and the nodes lie, and the macro `list_entry` on a node. -/
structure Places where
  head : Nat → Nat
  node : LoadId → Nat
  listEntry : Nat → LoadId
  listEntry_node : ∀ l, listEntry (node l) = l
  head_inj : Function.Injective head
  head_ne_node : ∀ c l, head c ≠ node l

/-- The memory and the record; in the record every queue is empty. -/
structure Chained where
  mem : ListMem
  g : Global

def Global.unlinked (g : Global) : Global :=
  { g with streams := fun c => { g.streams c with loadQ := [] } }

structure Chains (pl : Places) (cfg : Config) (p : Chained) (g : Global) : Prop where
  record : p.g = g.unlinked
  ring : ∀ c < cfg.nrCores, Ring p.mem (pl.head c) ((g.streams c).loadQ.map pl.node)

/-- `abtst_add_load_to_stream` -/
def chainAdd (pl : Places) (c : Nat) (l : LoadId) (p : Chained) : Chained :=
  ⟨listAdd (pl.node l) (pl.head c) p.mem,
    p.g.setStream c { p.g.streams c with nrLoads := (p.g.streams c).nrLoads + 1 }⟩

/-- `abtst_remove_load_from_stream` -/
def chainRemove (pl : Places) (c : Nat) (l : LoadId) (p : Chained) : Chained :=
  ⟨listDelInit (pl.node l) p.mem,
    p.g.setStream c { p.g.streams c with nrLoads := (p.g.streams c).nrLoads - 1 }⟩

def chainMigrate (pl : Places) (src dst : Nat) (p : Chained) (l : LoadId) : Chained :=
  let p := chainAdd pl dst l (chainRemove pl src l p)
  ⟨p.mem, abtstLoadSetMigrating p.g l (p.g.streams dst).rank⟩

/-- A traversal of the queue of a stream. -/
def chainForEach {σ : Type} (pl : Places) (fuel : Nat) (p : Chained) (c : Nat)
    (body : Nat → σ → σ × Bool) (s : σ) : Option σ :=
  let pos := (p.mem (pl.head c)).next
  listForEachSafe p.mem (pl.head c) body fuel pos (p.mem pos).next s

def iosBody (pl : Places) (g : Global) (pos : Nat) (count : Int) : Int × Bool :=
  (i32 (count + g.loadSize (pl.listEntry pos)), false)

/-- `get_stream_ios` -/
def chainIos (pl : Places) (fuel : Nat) (p : Chained) (c : Nat) : Option Int :=
  chainForEach pl fuel p c (iosBody pl p.g) 0

def collectBody (pl : Places) (pos : Nat) (mloads : List LoadId) : List LoadId × Bool :=
  (mloads ++ [pl.listEntry pos], false)

/-- `abtst_combine_streams`; `none` when the traversal does not end in time. -/
def chainCombine (pl : Places) (fuel : Nat) (p : Chained) (src dst : Nat) :
    Option (Except Fault Chained) :=
  if (p.g.streams src).nrLoads = 0 then some (.ok p)
  else do
    let mloads ← chainForEach pl fuel p src (collectBody pl) []
    if (p.g.streams src).nrLoads < mloads.length then some (.error .overrun)
    else
      let p := mloads.foldl (chainMigrate pl src dst) p
      let g := abtstStreamUpdateQdepth p.g dst (u32 (p.g.qdepth src + p.g.qdepth dst))
      some (.ok ⟨p.mem, abtstStreamUpdateQdepth g src 0⟩)

def foreignBody (pl : Places) (g : Global) (pos : Nat) (pk : Pick) : Pick × Bool :=
  let load := pl.listEntry pos
  (if (g.loads load).currRank ≠ (g.loads load).initRank then pk.choose load (g.loadSize load) else pk,
    false)

def fittingBody (pl : Places) (g : Global) (avg toLoads : Nat) (pos : Nat) (pk : Pick) : Pick × Bool :=
  let load := pl.listEntry pos
  if g.loadSize load = 0 then (pk, false)
  else
    let pk := pk.visit g avg load
    (pk, decide (loadsPerXstream / 16 ≤ pk.mloads.length ∧ toLoads ≠ 0) || decide (u32 pk.ios = avg))

def chainPick (pl : Places) (fuel : Nat) (p : Chained) (p1 p2 : SortParam) (avg : Nat) : Option Pick := do
  let pk ← chainForEach pl fuel p p2.stream (foreignBody pl p.g) (startPick p1 p2)
  if pk.mloads ≠ [] then some pk
  else
    let pk ← chainForEach pl fuel p p2.stream
      (fittingBody pl p.g avg (p.g.streams p1.stream).nrLoads) pk
    if pk.mloads ≠ [] then some pk else some (pk.fallback p1 p2)

/-- `abtst_rebalance_streams` -/
def chainRebalance (pl : Places) (fuel : Nat) (p : Chained) (p1 p2 : SortParam) (avg : Nat) :
    Option (Except Fault (Option Chained)) :=
  if avg ≤ u32 p1.ios ∨ u32 p2.ios ≤ avg then some (.ok none)
  else if 2 * p2.ios < 3 * p1.ios then some (.ok none)
  else do
    let pk ← chainPick pl fuel p p1 p2 avg
    if (p.g.streams p2.stream).nrLoads < pk.mloads.length then some (.error .overrun)
    else if pk.mloads = [] then some (.ok none)
    else
      let p := pk.mloads.foldl (chainMigrate pl p2.stream p1.stream) p
      let g := abtstStreamUpdateQdepth p.g p2.stream (u32 (i32 (p2.ios - i32 (pk.ios - p1.ios))))
      some (.ok (some ⟨p.mem, abtstStreamUpdateQdepth g p1.stream (u32 pk.ios)⟩))

section Unlinked

variable (g : Global)

@[simp] theorem unlinked_streams (c : Nat) : g.unlinked.streams c = { g.streams c with loadQ := [] } := rfl

@[simp] theorem unlinked_loads : g.unlinked.loads = g.loads := rfl

@[simp] theorem unlinked_qdepth (c : Nat) : g.unlinked.qdepth c = g.qdepth c := rfl

@[simp] theorem unlinked_loadSize (l : LoadId) : g.unlinked.loadSize l = g.loadSize l := rfl

theorem unlinked_setStream (c : Nat) (s : Stream) :
    (g.setStream c s).unlinked = g.unlinked.setStream c { s with loadQ := [] } := by
  unfold Global.unlinked Global.setStream
  congr 1
  funext d
  by_cases hd : d = c
  · subst hd
    simp
  · simp [hd]

theorem unlinked_setLoad (l : LoadId) (x : Load) : (g.setLoad l x).unlinked = g.unlinked.setLoad l x := rfl

end Unlinked

/-- Each load is in one queue at most, and there once. -/
structure Apart (g : Global) : Prop where
  nodup : ∀ c, (g.streams c).loadQ.Nodup
  unique : ∀ c d l, l ∈ (g.streams c).loadQ → l ∈ (g.streams d).loadQ → c = d

theorem Linked.apart {cfg : Config} {g : Global} {S : LoadId → Prop} (h : Linked cfg g S) : Apart g :=
  ⟨h.nodup, h.unique⟩

section Chains

variable {pl : Places} {cfg : Config} {p : Chained} {g : Global}

theorem Places.node_inj (pl : Places) : Function.Injective pl.node :=
  Function.LeftInverse.injective pl.listEntry_node

theorem Places.node_mem (pl : Places) {l : LoadId} {ls : List LoadId} :
    pl.node l ∈ ls.map pl.node ↔ l ∈ ls :=
  List.mem_map_of_injective pl.node_inj

theorem Apart.disjoint (h : Apart g) (pl : Places) {c d a : Nat} (hcd : c ≠ d)
    (ha : a ∈ pl.head c :: (g.streams c).loadQ.map pl.node) :
    a ∉ pl.head d :: (g.streams d).loadQ.map pl.node := by
  intro hd
  rcases List.mem_cons.mp ha with rfl | ha
  · rcases List.mem_cons.mp hd with he | hd
    · exact hcd (pl.head_inj he)
    · obtain ⟨m, _, hm⟩ := List.mem_map.mp hd
      exact pl.head_ne_node c m hm.symm
  · obtain ⟨l, hl, rfl⟩ := List.mem_map.mp ha
    rcases List.mem_cons.mp hd with he | hd
    · exact pl.head_ne_node d l he.symm
    · exact hcd (h.unique c d l hl (pl.node_mem.mp hd))

theorem Chains.add (h : Chains pl cfg p g) (hg : Apart g) {c : Nat} (hc : c < cfg.nrCores) {l : LoadId}
    (hl : ∀ d, l ∉ (g.streams d).loadQ) :
    Chains pl cfg (chainAdd pl c l p) (abtstAddLoadToStream g c l) := by
  have hnot : ∀ d, pl.node l ∉ pl.head d :: (g.streams d).loadQ.map pl.node := by
    intro d hm
    rcases List.mem_cons.mp hm with he | hm
    · exact pl.head_ne_node d l he.symm
    · exact hl d (pl.node_mem.mp hm)
  refine ⟨?_, ?_⟩
  · rw [abtstAddLoadToStream, unlinked_setStream, ← h.record]
    simp [chainAdd, h.record]
  · intro d hd
    by_cases hdc : d = c
    · subst hdc
      have hring := (h.ring d hd).add (hnot d)
      simpa [chainAdd, abtstAddLoadToStream, Global.setStream] using hring
    · have hring : Ring (listAdd (pl.node l) (pl.head c) p.mem) (pl.head d)
          ((g.streams d).loadQ.map pl.node) := by
        refine (h.ring d hd).congr (fun a ha => (h.ring c hc).add_frame ?_ (hg.disjoint pl hdc ha))
        rintro rfl
        exact hnot d ha
      simpa [chainAdd, abtstAddLoadToStream, Global.setStream, hdc] using hring

theorem Chains.remove (h : Chains pl cfg p g) (hg : Apart g) {c : Nat} (hc : c < cfg.nrCores) {l : LoadId}
    (hl : l ∈ (g.streams c).loadQ) :
    Chains pl cfg (chainRemove pl c l p) (abtstRemoveLoadFromStream g c l) := by
  refine ⟨?_, ?_⟩
  · rw [abtstRemoveLoadFromStream, unlinked_setStream, ← h.record]
    simp [chainRemove, h.record]
  · intro d hd
    by_cases hdc : d = c
    · subst hdc
      obtain ⟨pre, post, hq⟩ := List.append_of_mem hl
      have hpre : l ∉ pre := not_mem_of_split (hg.nodup d) hq
      have herase : (g.streams d).loadQ.erase l = pre ++ post := by
        rw [hq, List.erase_append_right _ hpre, List.erase_cons_head]
      have hring := h.ring d hd
      rw [hq, List.map_append, List.map_cons] at hring
      simpa [chainRemove, abtstRemoveLoadFromStream, Global.setStream, herase] using hring.delInit
    · have hring : Ring (listDelInit (pl.node l) p.mem) (pl.head d)
          ((g.streams d).loadQ.map pl.node) :=
        (h.ring d hd).congr (fun a ha =>
          (h.ring c hc).delInit_frame (pl.node_mem.mpr hl) (hg.disjoint pl hdc ha))
      simpa [chainRemove, abtstRemoveLoadFromStream, Global.setStream, hdc] using hring

theorem Chains.setLoad (h : Chains pl cfg p g) (l : LoadId) (x : Load) :
    Chains pl cfg ⟨p.mem, p.g.setLoad l x⟩ (g.setLoad l x) :=
  ⟨by rw [unlinked_setLoad, h.record], h.ring⟩

theorem Chains.setStream (h : Chains pl cfg p g) (c : Nat) {s : Stream}
    (hs : s.loadQ = (g.streams c).loadQ) :
    Chains pl cfg ⟨p.mem, p.g.setStream c { s with loadQ := [] }⟩ (g.setStream c s) := by
  refine ⟨by rw [unlinked_setStream, h.record], ?_⟩
  intro d hd
  by_cases hdc : d = c
  · subst hdc
    simpa [Global.setStream, hs] using h.ring d hd
  · simpa [Global.setStream, hdc] using h.ring d hd

theorem Chains.updateQdepth (h : Chains pl cfg p g) (c q : Nat) :
    Chains pl cfg ⟨p.mem, abtstStreamUpdateQdepth p.g c q⟩ (abtstStreamUpdateQdepth g c q) := by
  have hset := h.setStream c (s := { g.streams c with totalQdepth := q }) rfl
  rw [abtstStreamUpdateQdepth, abtstStreamUpdateQdepth, h.record]
  rw [h.record] at hset
  exact hset

theorem mem_remove (hg : Apart g) {c d : Nat} {l m : LoadId} :
    m ∈ ((abtstRemoveLoadFromStream g c l).streams d).loadQ ↔
      m ∈ (g.streams d).loadQ ∧ ¬ (d = c ∧ m = l) := by
  by_cases hdc : d = c
  · subst hdc
    simp [abtstRemoveLoadFromStream, Global.setStream, (hg.nodup d).mem_erase_iff, and_comm]
  · simp [abtstRemoveLoadFromStream, Global.setStream, hdc]

theorem Apart.remove (hg : Apart g) (c : Nat) (l : LoadId) : Apart (abtstRemoveLoadFromStream g c l) := by
  refine ⟨?_, ?_⟩
  · intro d
    by_cases hdc : d = c
    · subst hdc
      simpa [abtstRemoveLoadFromStream, Global.setStream] using (hg.nodup d).erase l
    · simpa [abtstRemoveLoadFromStream, Global.setStream, hdc] using hg.nodup d
  · intro d e m hd he
    exact hg.unique d e m ((mem_remove hg).mp hd).1 ((mem_remove hg).mp he).1

theorem mem_add {c d : Nat} {l m : LoadId} : m ∈ ((abtstAddLoadToStream g c l).streams d).loadQ ↔
    (d = c ∧ m = l) ∨ m ∈ (g.streams d).loadQ := by
  by_cases hdc : d = c
  · subst hdc
    simp [abtstAddLoadToStream, Global.setStream]
  · simp [abtstAddLoadToStream, Global.setStream, hdc]

theorem Apart.add (hg : Apart g) (c : Nat) {l : LoadId} (hl : ∀ d, l ∉ (g.streams d).loadQ) :
    Apart (abtstAddLoadToStream g c l) := by
  refine ⟨?_, ?_⟩
  · intro d
    by_cases hdc : d = c
    · subst hdc
      simpa [abtstAddLoadToStream, Global.setStream] using ⟨hl d, hg.nodup d⟩
    · simpa [abtstAddLoadToStream, Global.setStream, hdc] using hg.nodup d
  · intro d e m hd he
    rcases mem_add.mp hd with ⟨hdc, hml⟩ | hmd
    · rcases mem_add.mp he with ⟨hec, _⟩ | hme
      · exact hdc.trans hec.symm
      · exact absurd (hml ▸ hme) (hl e)
    · rcases mem_add.mp he with ⟨_, hml⟩ | hme
      · exact absurd (hml ▸ hmd) (hl d)
      · exact hg.unique d e m hmd hme

theorem Chains.migrate (h : Chains pl cfg p g) (hg : Apart g) {src dst : Nat} (hs : src < cfg.nrCores)
    (hd : dst < cfg.nrCores) {l : LoadId} (hl : l ∈ (g.streams src).loadQ) :
    Chains pl cfg (chainMigrate pl src dst p l) (migrateLoad src dst g l) ∧
      Apart (migrateLoad src dst g l) := by
  have hremoved := h.remove hg hs hl
  have hapart := hg.remove src l
  have hnone : ∀ d, l ∉ ((abtstRemoveLoadFromStream g src l).streams d).loadQ := by
    intro d hm
    obtain ⟨hm, hne⟩ := (mem_remove hg).mp hm
    exact hne ⟨hg.unique d src l hm hl, rfl⟩
  have hadded := hremoved.add hapart hd hnone
  have hset := hadded.setLoad l
    { (abtstAddLoadToStream (abtstRemoveLoadFromStream g src l) dst l).loads l with
      destRank := ((abtstAddLoadToStream (abtstRemoveLoadFromStream g src l) dst l).streams dst).rank }
  refine ⟨?_, (hapart.add dst hnone).nodup, (hapart.add dst hnone).unique⟩
  unfold chainMigrate migrateLoad abtstLoadSetMigrating
  dsimp only
  rw [hadded.record]
  rw [hadded.record] at hset
  exact hset

theorem Chains.migrateAll {src dst : Nat} (hs : src < cfg.nrCores) (hd : dst < cfg.nrCores)
    {ms : List LoadId} : ∀ {p : Chained} {g : Global}, Chains pl cfg p g → Apart g →
      ms.Nodup → (∀ l ∈ ms, l ∈ (g.streams src).loadQ) →
      Chains pl cfg (ms.foldl (chainMigrate pl src dst) p) (ms.foldl (migrateLoad src dst) g) := by
  induction ms with
  | nil => exact fun h _ _ _ => h
  | cons l ms ih =>
    intro p g h hg hnd hm
    obtain ⟨hlm, hnd⟩ := List.nodup_cons.mp hnd
    obtain ⟨hmoved, hapart⟩ := h.migrate hg hs hd (hm l (by simp))
    rw [List.foldl_cons, List.foldl_cons]
    refine ih hmoved hapart hnd (fun m hmem => ?_)
    have hml : m ≠ l := fun he => hlm (he ▸ hmem)
    have hkeep : m ∈ ((abtstRemoveLoadFromStream g src l).streams src).loadQ :=
      (mem_remove hg).mpr ⟨hm m (by simp [hmem]), fun he => hml he.2⟩
    exact mem_add.mpr (Or.inr hkeep)

theorem Chains.forEach {σ : Type} (h : Chains pl cfg p g) {c : Nat} (hc : c < cfg.nrCores)
    (body : Nat → σ → σ × Bool) {fuel : Nat} (hfuel : (g.streams c).loadQ.length < fuel) (s : σ) :
    chainForEach pl fuel p c body s = some (walk body ((g.streams c).loadQ.map pl.node) s) :=
  (h.ring c hc).forEachSafe body (by simpa using hfuel) s

theorem walk_collect (pl : Places) (ls ms : List LoadId) :
    walk (collectBody pl) (ls.map pl.node) ms = ms ++ ls := by
  induction ls generalizing ms with
  | nil => simp [walk]
  | cons l ls ih =>
    rw [List.map_cons, walk]
    simp [collectBody, pl.listEntry_node, ih]

theorem walk_ios (pl : Places) (g : Global) (ls : List LoadId) (count : Int) :
    walk (iosBody pl g) (ls.map pl.node) count =
      ls.foldl (fun count l => i32 (count + g.loadSize l)) count := by
  induction ls generalizing count with
  | nil => rfl
  | cons l ls ih =>
    rw [List.map_cons, walk, List.foldl_cons, ← ih]
    simp [iosBody, pl.listEntry_node]

theorem walk_foreign (pl : Places) (g : Global) (ls : List LoadId) (pk : Pick) :
    walk (foreignBody pl g) (ls.map pl.node) pk = scanForeign g ls pk := by
  induction ls generalizing pk with
  | nil => rfl
  | cons l ls ih =>
    rw [List.map_cons, walk, scanForeign]
    by_cases hf : (g.loads l).currRank = (g.loads l).initRank
    · simp [foreignBody, pl.listEntry_node, hf, ih]
    · simp [foreignBody, pl.listEntry_node, hf, ih]

theorem walk_fitting (pl : Places) (g : Global) (avg toLoads : Nat) (ls : List LoadId) (pk : Pick) :
    walk (fittingBody pl g avg toLoads) (ls.map pl.node) pk = scanFitting g avg toLoads ls pk := by
  induction ls generalizing pk with
  | nil => rfl
  | cons l ls ih =>
    rw [List.map_cons, walk, scanFitting_cons]
    by_cases hz : g.loadSize l = 0
    · simp [fittingBody, pl.listEntry_node, hz, ih]
    · rw [if_neg hz]
      by_cases hfull : loadsPerXstream / 16 ≤ (pk.visit g avg l).mloads.length ∧ toLoads ≠ 0
      · simp [fittingBody, pl.listEntry_node, hz, hfull]
      · by_cases havg : u32 (pk.visit g avg l).ios = avg
        · simp [fittingBody, pl.listEntry_node, hz, havg]
        · rw [if_neg hfull, if_neg havg, ← ih]
          simp only [fittingBody, pl.listEntry_node, hz, if_false, hfull, havg, decide_false, Bool.or_self,
            Bool.false_eq_true]

theorem Chains.ios (h : Chains pl cfg p g) {c : Nat} (hc : c < cfg.nrCores) {fuel : Nat}
    (hfuel : (g.streams c).loadQ.length < fuel) : chainIos pl fuel p c = some (getStreamIos g c) := by
  rw [chainIos, h.forEach hc _ hfuel, h.record, walk_ios]
  rfl

theorem Chains.pick (h : Chains pl cfg p g) {p1 p2 : SortParam} (hc : p2.stream < cfg.nrCores) {fuel : Nat}
    (hfuel : (g.streams p2.stream).loadQ.length < fuel) (avg : Nat) :
    chainPick pl fuel p p1 p2 avg = some (pickLoads g p1 p2 avg) := by
  have hforeign : ∀ ls pk, walk (foreignBody pl g.unlinked) (ls.map pl.node) pk = scanForeign g ls pk :=
    walk_foreign pl g
  have hfitting : ∀ n ls pk,
      walk (fittingBody pl g.unlinked avg n) (ls.map pl.node) pk = scanFitting g avg n ls pk :=
    fun n => walk_fitting pl g avg n
  unfold chainPick pickLoads
  rw [h.forEach hc _ hfuel, h.record, hforeign]
  dsimp only [Option.bind_eq_bind, Option.bind_some]
  by_cases hf : (scanForeign g (g.streams p2.stream).loadQ (startPick p1 p2)).mloads = []
  · rw [if_neg (not_not.mpr hf), if_neg (not_not.mpr hf), h.forEach hc _ hfuel, hfitting]
    dsimp only [Option.bind_some, unlinked_streams]
    split_ifs <;> rfl
  · rw [if_pos hf, if_pos hf]

/-- On the links, `abtst_combine_streams` does what it does on the lists. -/
theorem Chains.combine (h : Chains pl cfg p g) (hg : Apart g) {src dst : Nat} (hs : src < cfg.nrCores)
    (hd : dst < cfg.nrCores) {fuel : Nat}
    (hfuel : (g.streams src).loadQ.length < fuel) {t : Global}
    (ht : abtstCombineStreams g src dst = .ok t) :
    ∃ q, chainCombine pl fuel p src dst = some (.ok q) ∧ Chains pl cfg q t := by
  have hnr : (p.g.streams src).nrLoads = (g.streams src).nrLoads := by rw [h.record]; rfl
  unfold abtstCombineStreams at ht
  unfold chainCombine
  by_cases hz : (g.streams src).nrLoads = 0
  · rw [if_pos hz] at ht
    rw [if_pos (hnr.trans hz)]
    obtain rfl := Except.ok.inj ht
    exact ⟨p, rfl, h⟩
  · rw [if_neg hz] at ht
    rw [if_neg (by rw [hnr]; exact hz), h.forEach hs _ hfuel, walk_collect, List.nil_append]
    dsimp only [Option.bind_eq_bind, Option.bind_some] at ht ⊢
    by_cases hover : (g.streams src).nrLoads < (g.streams src).loadQ.length
    · rw [if_pos hover] at ht
      cases ht
    · rw [if_neg hover] at ht
      rw [hnr, if_neg hover]
      obtain rfl := Except.ok.inj ht
      have hall := h.migrateAll hs hd hg (hg.nodup src) (fun _ hl => hl)
      have hlast := (hall.updateQdepth dst (u32 ((((g.streams src).loadQ.foldl (migrateLoad src dst) g).qdepth
        src : Int) + ((g.streams src).loadQ.foldl (migrateLoad src dst) g).qdepth dst))).updateQdepth src 0
      refine ⟨_, rfl, ?_⟩
      rw [hall.record] at hlast ⊢
      exact hlast

/-- On the links, `abtst_rebalance_streams` does what it does on the lists. -/
theorem Chains.rebalance (h : Chains pl cfg p g) (hg : Apart g) {p1 p2 : SortParam}
    (hs : p2.stream < cfg.nrCores) (hd : p1.stream < cfg.nrCores)
    {fuel : Nat} (hfuel : (g.streams p2.stream).loadQ.length < fuel) {avg : Nat} {r : Option Global}
    (hr : abtstRebalanceStreams g p1 p2 avg = .ok r) :
    ∃ q, chainRebalance pl fuel p p1 p2 avg = some (.ok q) ∧ (q = none ↔ r = none) ∧
      ∀ p' ∈ q, ∀ t ∈ r, Chains pl cfg p' t := by
  have hnr : (p.g.streams p2.stream).nrLoads = (g.streams p2.stream).nrLoads := by rw [h.record]; rfl
  have hstay : r = none → ∃ q : Option Chained, some (.ok none : Except Fault (Option Chained)) =
      some (.ok q) ∧ (q = none ↔ r = none) ∧ ∀ p' ∈ q, ∀ t ∈ r, Chains pl cfg p' t := by
    intro hnone
    exact ⟨none, rfl, by simp [hnone], fun p' hp' => by cases hp'⟩
  unfold abtstRebalanceStreams at hr
  unfold chainRebalance
  by_cases hneed : avg ≤ u32 p1.ios ∨ u32 p2.ios ≤ avg
  · rw [if_pos hneed] at hr ⊢
    exact hstay (Except.ok.inj hr).symm
  · rw [if_neg hneed] at hr ⊢
    by_cases hfactor : 2 * p2.ios < 3 * p1.ios
    · rw [if_pos hfactor] at hr ⊢
      exact hstay (Except.ok.inj hr).symm
    · rw [if_neg hfactor] at hr ⊢
      rw [h.pick hs hfuel]
      dsimp only [Option.bind_eq_bind, Option.bind_some] at hr ⊢
      rw [hnr]
      by_cases hover : (g.streams p2.stream).nrLoads < (pickLoads g p1 p2 avg).mloads.length
      · rw [if_pos hover] at hr
        cases hr
      · rw [if_neg hover] at hr ⊢
        by_cases hnil : (pickLoads g p1 p2 avg).mloads = []
        · rw [if_pos hnil] at hr ⊢
          exact hstay (Except.ok.inj hr).symm
        · rw [if_neg hnil] at hr ⊢
          obtain rfl := Except.ok.inj hr
          have hsub := pickLoads_sublist g p1 p2 avg
          have hall := h.migrateAll hs hd hg ((hg.nodup _).sublist hsub) (fun _ hl => hsub.subset hl)
          have hlast := (hall.updateQdepth p2.stream
            (u32 (i32 (p2.ios - i32 ((pickLoads g p1 p2 avg).ios - p1.ios))))).updateQdepth p1.stream
              (u32 (pickLoads g p1 p2 avg).ios)
          refine ⟨_, rfl, by simp, ?_⟩
          intro p' hp' t ht
          obtain rfl := Option.some.inj hp'
          obtain rfl := Option.some.inj ht
          exact hlast

end Chains

def setDepths (cfg : Config) (ios : Nat → Int) (g : Global) : Global :=
  { g with streams := fun c =>
      if c < cfg.nrCores ∧ (g.streams c).used = true then
        { g.streams c with totalQdepth := calcStreamQdepth (g.streams c) (u32 (ios c)) }
      else g.streams c }

/-- What the other actions do to the record. They leave the links alone. -/
inductive RecordAct (cfg : Config) : Act → (Global → Global) → Prop
  | readStats : RecordAct cfg .readStats id
  | updatePartitionStats : RecordAct cfg .updatePartitionStats (abtstUpdatePartitionStats cfg)
  | updateNumaStat (n : Nat) (s : NumaStat) : RecordAct cfg (.updateNumaStat n) (·.setNumaStat n s)
  | updatePowerStat (n pct : Nat) : RecordAct cfg (.updatePowerStat n) (abtstSetNumaPsPct · n pct)
  | setPartition (c p : Nat) : RecordAct cfg (.setPartition c p) (setPartitionId c p)
  | setPsState (n : Nat) (state : Bool) :
      RecordAct cfg (.setPsState n state) (abtstSetNumaPsState n state)
  | resetStreamsStat : RecordAct cfg .resetStreamsStat (abtstResetStreamsStat cfg)

/-- An action of the rebalancer, carried out on the links. -/
inductive ChainStep (pl : Places) (cfg : Config) : Act → Chained → Chained → Prop
  | record {a : Act} {f : Global → Global} {p : Chained} : RecordAct cfg a f →
      ChainStep pl cfg a p ⟨p.mem, f p.g⟩
  | updateStreamsStat {p : Chained} {ios : Nat → Int} :
      (∀ c < cfg.nrCores, (p.g.streams c).used = true → ∃ fuel, chainIos pl fuel p c = some (ios c)) →
      ChainStep pl cfg .updateStreamsStat p ⟨p.mem, setDepths cfg ios p.g⟩
  | combine {p q : Chained} {fuel src dst : Nat} : chainCombine pl fuel p src dst = some (.ok q) →
      ChainStep pl cfg (.combine src dst) p q
  | rebalance {p q : Chained} {fuel src dst avg : Nat} :
      chainRebalance pl fuel p ⟨i32 (p.g.qdepth dst), dst⟩ ⟨i32 (p.g.qdepth src), src⟩ avg =
        some (.ok (some q)) →
      ChainStep pl cfg (.rebalance src dst) p q

theorem addPartitionStat_unlinked (i : Nat) (g : Global) (j : Nat) :
    addPartitionStat i g.unlinked j = (addPartitionStat i g j).unlinked := by
  unfold addPartitionStat
  dsimp only
  by_cases hu : (g.streams j).used = true
  · rw [if_pos hu, if_pos (show (g.unlinked.streams j).used = true from hu)]
    rfl
  · rw [if_neg hu, if_neg (show ¬ (g.unlinked.streams j).used = true from hu)]

theorem abtstUpdatePartitionStats_unlinked (cfg : Config) (g : Global) :
    abtstUpdatePartitionStats cfg g.unlinked = (abtstUpdatePartitionStats cfg g).unlinked := by
  have hcores : ∀ (i : Nat) (cores : List Nat) (g : Global),
      cores.foldl (addPartitionStat i) g.unlinked = (cores.foldl (addPartitionStat i) g).unlinked := by
    intro i cores
    induction cores with
    | nil => exact fun _ => rfl
    | cons j cores ih =>
      intro g
      rw [List.foldl_cons, List.foldl_cons, addPartitionStat_unlinked, ih]
  have hnumas : ∀ (numas : List Nat) (g : Global),
      numas.foldl (fun g i => (cfg.coresOf i).foldl (addPartitionStat i) g) g.unlinked =
        (numas.foldl (fun g i => (cfg.coresOf i).foldl (addPartitionStat i) g) g).unlinked := by
    intro numas
    induction numas with
    | nil => exact fun _ => rfl
    | cons n numas ih =>
      intro g
      rw [List.foldl_cons, List.foldl_cons, hcores, ih]
  exact hnumas (List.range cfg.nrNumas) (abtstResetPartitionStats g)

theorem RecordAct.unlinked {cfg : Config} {a : Act} {f : Global → Global} (h : RecordAct cfg a f)
    (g : Global) : f g.unlinked = (f g).unlinked ∧
      ∀ c, ((f g).streams c).loadQ = (g.streams c).loadQ := by
  cases h with
  | updatePartitionStats =>
    refine ⟨abtstUpdatePartitionStats_unlinked cfg g, ?_⟩
    obtain ⟨_, _, hf⟩ := abtstUpdatePartitionStats_frame cfg g
    rw [hf]
    exact fun _ => rfl
  | setPartition c q =>
    refine ⟨?_, (setPartitionId_queues c q g).loadQ⟩
    rw [setPartitionId, setPartitionId, unlinked_setStream]
    rfl
  | resetStreamsStat =>
    refine ⟨?_, (resetStreamsStat_queues cfg g).1.loadQ⟩
    unfold abtstResetStreamsStat Global.unlinked
    congr 1
    funext c
    dsimp only
    split_ifs <;> rfl
  | _ => exact ⟨rfl, fun _ => rfl⟩

theorem Chains.record_act {pl : Places} {cfg : Config} {p : Chained} {g : Global} (h : Chains pl cfg p g)
    {a : Act} {f : Global → Global} (hf : RecordAct cfg a f) :
    ∃ q, ChainStep pl cfg a p q ∧ Chains pl cfg q (f g) := by
  obtain ⟨hrecord, hqueues⟩ := hf.unlinked g
  refine ⟨⟨p.mem, f p.g⟩, .record hf, by rw [← hrecord, ← h.record], ?_⟩
  intro c hc
  rw [hqueues]
  exact h.ring c hc

theorem setDepths_unlinked (cfg : Config) (g : Global) :
    setDepths cfg (getStreamIos g) g.unlinked = (abtstUpdateStreamsStat cfg g).unlinked := by
  unfold setDepths abtstUpdateStreamsStat Global.unlinked
  congr 1
  funext c
  dsimp only
  split_ifs <;> rfl

theorem Chains.updateStreamsStat {pl : Places} {cfg : Config} {p : Chained} {g : Global}
    (h : Chains pl cfg p g) : ∃ q, ChainStep pl cfg .updateStreamsStat p q ∧
      Chains pl cfg q (abtstUpdateStreamsStat cfg g) := by
  refine ⟨⟨p.mem, setDepths cfg (getStreamIos g) p.g⟩, .updateStreamsStat
    (fun c hc _ => ⟨(g.streams c).loadQ.length + 1, h.ios hc (Nat.lt_succ_self _)⟩), ?_, ?_⟩
  · change setDepths cfg (getStreamIos g) p.g = (abtstUpdateStreamsStat cfg g).unlinked
    rw [h.record, setDepths_unlinked]
  · intro c hc
    rw [(updateStreamsStat_queues cfg g).1.loadQ]
    exact h.ring c hc

/-- Every action of the rebalancer is carried out on the links. -/
theorem RebStep.on_chains {pl : Places} {cfg : Config} {a : Act} {g s : Global} {S : LoadId → Prop}
    {p : Chained} (h : RebStep cfg a g s) (hl : Linked cfg g S) (hp : Chains pl cfg p g) :
    ∃ q, ChainStep pl cfg a p q ∧ Chains pl cfg q s := by
  cases h with
  | readStats => exact hp.record_act .readStats
  | updateStreamsStat => exact hp.updateStreamsStat
  | updatePartitionStats => exact hp.record_act .updatePartitionStats
  | updateNumaStat _ n v => exact hp.record_act (.updateNumaStat n v)
  | updatePowerStat _ n pct => exact hp.record_act (.updatePowerStat n pct)
  | combine he _ hc =>
    obtain ⟨q, hq, hs⟩ := hp.combine hl.apart (hl.used_lt _ he.used_src) (hl.used_lt _ he.used_dst)
      (Nat.lt_succ_self _) hc
    exact ⟨q, .combine hq, hs⟩
  | @rebalance _ _ src dst avg he _ hr =>
    obtain ⟨q, hq, hnone, hs⟩ := hp.rebalance hl.apart (hl.used_lt _ he.used_src)
      (hl.used_lt _ he.used_dst) (Nat.lt_succ_self _) hr
    cases q with
    | none => cases hnone.mp rfl
    | some q =>
      have hstep : chainRebalance pl ((g.streams src).loadQ.length + 1) p ⟨i32 (p.g.qdepth dst), dst⟩
          ⟨i32 (p.g.qdepth src), src⟩ avg = some (.ok (some q)) := by
        rw [hp.record]
        exact hq
      exact ⟨q, .rebalance hstep, hs q rfl s rfl⟩
  | setPartition => exact hp.record_act (.setPartition _ _)
  | sleep => exact hp.record_act (.setPsState _ true)
  | wake => exact hp.record_act (.setPsState _ false)
  | resetStreamsStat => exact hp.record_act .resetStreamsStat

/-- `INIT_LIST_HEAD` on the queue of every stream. -/
def initHeads (pl : Places) (n : Nat) (m : ListMem) : ListMem :=
  (List.range n).foldl (fun m c => initListHead (pl.head c) m) m

/-- The loop of `abtst_init_loads`. -/
def chainLoadsLoop (pl : Places) (cfg : Config) (abt : Nat → AbtCall → Bool) (m partitionId : Nat) :
    Nat → Nat → Nat → Chained → Bool × Chained
  | 0, _, _, p => (true, p)
  | n + 1, i, start, p =>
    match findNextStream cfg p.g partitionId start with
    | none => (false, p)
    | some c =>
      let rank := (p.g.streams c).rank
      let p : Chained := ⟨initListHead (pl.node ⟨m, i⟩) p.mem, initLoad p.g ⟨m, i⟩ rank⟩
      if abt i .poolCreate = false then (false, p)
      else if abt i .schedCreate = false then (false, p)
      else if abt i .addSched = false then (false, p)
      else
        let p := chainAdd pl c ⟨m, i⟩ ⟨p.mem, abtPoolAddSched p.g c ⟨m, i⟩⟩
        chainLoadsLoop pl cfg abt m partitionId n (i + 1) (rank + 1) p

def chainInitLoads (pl : Places) (cfg : Config) (abt : Nat → AbtCall → Bool) (m : Nat) (p : Chained) :
    Bool × Chained :=
  let g := { p.g with loads := fun l => if l.mapping = m then {} else p.g.loads l }
  chainLoadsLoop pl cfg abt m (g.mappings m).partitionId (g.mappings m).nrLoads 0 0 ⟨p.mem, g⟩

/-- `abtst_create_mapping` -/
def chainCreateMapping (pl : Places) (cfg : Config) (abt : Nat → AbtCall → Bool) (type partid : Nat)
    (p : Chained) : Except Fault (Int × Chained) :=
  if maxMappings ≤ p.g.nrMappings then .error .badIndex
  else
    match cfg.partitions[partid]? with
    | none => .error .badIndex
    | some part =>
      let m := p.g.nrMappings
      let g := { p.g with nrMappings := m + 1 }
      match mappingLoads cfg type part.partitionCores.length with
      | none =>
        .ok (-1, ⟨p.mem, g.setMapping m { g.mappings m with partitionId := partid, type := type }⟩)
      | some nrLoads =>
        let r := chainInitLoads pl cfg abt m ⟨p.mem, g.setMapping m ⟨partid, type, nrLoads⟩⟩
        .ok (if r.1 then m else -1, r.2)

/-- The states that the operations on the links lead to. -/
inductive ChainReachable (pl : Places) (cfg : Config) : Chained → Prop
  | start {g g' : Global} {abt : Nat → Bool} {m : ListMem} : g.nrMappings = 0 →
      abtstInitStreams cfg abt (abtstInitPower cfg g) = some g' →
      ChainReachable pl cfg ⟨initHeads pl cfg.nrCores m, g'⟩
  | create {p q : Chained} {abt : Nat → AbtCall → Bool} {type partid : Nat} {id : Int} :
      ChainReachable pl cfg p → chainCreateMapping pl cfg abt type partid p = .ok (id, q) → 0 ≤ id →
      ChainReachable pl cfg q
  | between {p : Chained} {g : Global} : ChainReachable pl cfg p → Between p.g g →
      ChainReachable pl cfg ⟨p.mem, g⟩
  | pass {p q : Chained} {log : List (Act × Chained)} : ChainReachable pl cfg p →
      Path (ChainStep pl cfg) p log q → ChainReachable pl cfg q

theorem initHeads_ring (pl : Places) (m : ListMem) {n c : Nat} (hc : c < n) :
    Ring (initHeads pl n m) (pl.head c) [] := by
  induction n with
  | zero => exact absurd hc (Nat.not_lt_zero c)
  | succ n ih =>
    have hsucc : initHeads pl (n + 1) m = initListHead (pl.head n) (initHeads pl n m) := by
      unfold initHeads
      rw [List.range_succ, List.foldl_append]
      rfl
    rw [hsucc]
    by_cases hcn : c = n
    · subst hcn
      exact Ring.init _ _
    · refine (ih (by omega)).congr (fun a ha => initListHead_other _ ?_)
      obtain rfl := List.mem_singleton.mp ha
      exact fun he => hcn (pl.head_inj he)

theorem findNextStream_unlinked (cfg : Config) (g : Global) (partitionId start : Nat) :
    findNextStream cfg g.unlinked partitionId start = findNextStream cfg g partitionId start := rfl

section Start

variable {pl : Places} {cfg : Config} {abt : Nat → AbtCall → Bool}

theorem Chains.initLoad {p : Chained} {g : Global} (h : Chains pl cfg p g) {l : LoadId}
    (hl : ∀ d, l ∉ (g.streams d).loadQ) (rank : Nat) :
    Chains pl cfg ⟨initListHead (pl.node l) p.mem, initLoad p.g l rank⟩ (initLoad g l rank) := by
  refine ⟨by rw [AbtSt.initLoad, h.record]; rfl, ?_⟩
  intro d hd
  refine (h.ring d hd).congr (fun a ha => initListHead_other _ ?_)
  rintro rfl
  rcases List.mem_cons.mp ha with he | hm
  · exact pl.head_ne_node d l he.symm
  · exact hl d (pl.node_mem.mp hm)

theorem Chains.loadsLoop {m : Nat} (n : Nat) : ∀ {i start : Nat} {p : Chained} {g : Global},
    Chains pl cfg p g → Apart g → (∀ c, (g.streams c).used = true → c < cfg.nrCores) →
    (∀ c l, l ∈ (g.streams c).loadQ → l.mapping = m → l.index < i) → ∀ partitionId,
    (chainLoadsLoop pl cfg abt m partitionId n i start p).1 =
      (initLoadsLoop cfg abt m partitionId n i start g).1 ∧
    Chains pl cfg (chainLoadsLoop pl cfg abt m partitionId n i start p).2
      (initLoadsLoop cfg abt m partitionId n i start g).2 := by
  induction n with
  | zero => exact fun h _ _ _ _ => ⟨rfl, h⟩
  | succ n ih =>
    intro i start p g h hg hu hnew partitionId
    have hl : ∀ d, (⟨m, i⟩ : LoadId) ∉ (g.streams d).loadQ :=
      fun d hd => absurd (hnew d _ hd rfl) (Nat.lt_irrefl i)
    rw [chainLoadsLoop, initLoadsLoop, h.record, findNextStream_unlinked]
    cases hf : findNextStream cfg g partitionId start with
    | none => exact ⟨rfl, h⟩
    | some c =>
      have hin : (g.streams c).used = true ∧ (g.streams c).partId = partitionId := by
        simpa [Global.inPart] using List.find?_some hf
      have hc := hu c hin.1
      have hinit := h.initLoad hl (g.streams c).rank
      rw [h.record] at hinit
      dsimp only [unlinked_streams]
      split_ifs
      · exact ⟨rfl, hinit⟩
      · exact ⟨rfl, hinit⟩
      · exact ⟨rfl, hinit⟩
      · have hpool := hinit.setStream c (s := { g.streams c with
          pool := (g.streams c).pool ++ [.sched ⟨m, i⟩] }) rfl
        have hqueue : ∀ d, ((abtPoolAddSched (AbtSt.initLoad g ⟨m, i⟩ (g.streams c).rank) c ⟨m, i⟩).streams
            d).loadQ = (g.streams d).loadQ := by
          intro d
          by_cases hdc : d = c
          · subst hdc
            simp [abtPoolAddSched, AbtSt.initLoad, Global.setStream, Global.setLoad]
          · simp [abtPoolAddSched, AbtSt.initLoad, Global.setStream, Global.setLoad, hdc]
        have hapart : Apart (abtPoolAddSched (AbtSt.initLoad g ⟨m, i⟩ (g.streams c).rank) c ⟨m, i⟩) := by
          refine ⟨fun d => ?_, fun d e l hd he => ?_⟩
          · rw [hqueue d]
            exact hg.nodup d
          · rw [hqueue d] at hd
            rw [hqueue e] at he
            exact hg.unique d e l hd he
        have hnone : ∀ d, (⟨m, i⟩ : LoadId) ∉
            ((abtPoolAddSched (AbtSt.initLoad g ⟨m, i⟩ (g.streams c).rank) c ⟨m, i⟩).streams d).loadQ := by
          intro d
          rw [hqueue d]
          exact hl d
        refine ih (Chains.add hpool hapart hc hnone) (hapart.add c hnone) ?_ ?_ partitionId
        · intro d hd
          exact hu d ((placeLoad_shape g c ⟨m, i⟩ d).2.1.symm.trans hd)
        · intro d l hd hm
          rcases (mem_placeLoad_loadQ g c ⟨m, i⟩ d l).mp hd with ⟨rfl, _⟩ | hd
          · exact Nat.lt_succ_self i
          · exact Nat.lt_succ_of_lt (hnew d l hd hm)

/-- A mapping whose loads are in no queue yet is created on the links. -/
theorem Chains.createMapping {p : Chained} {g g' : Global} (h : Chains pl cfg p g)
    (hl : Linked cfg g g.Created) {type partid : Nat} {id : Int}
    (hc : abtstCreateMapping cfg abt type partid g = .ok (id, g')) :
    ∃ q, chainCreateMapping pl cfg abt type partid p = .ok (id, q) ∧ Chains pl cfg q g' := by
  unfold abtstCreateMapping at hc
  unfold chainCreateMapping
  rw [h.record]
  change (if maxMappings ≤ g.nrMappings then _ else _) = _ at hc
  by_cases hfull : maxMappings ≤ g.nrMappings
  · rw [if_pos hfull] at hc
    cases hc
  · rw [if_neg hfull] at hc
    rw [if_neg (show ¬ maxMappings ≤ g.unlinked.nrMappings from hfull)]
    cases hpart : cfg.partitions[partid]? with
    | none =>
      rw [hpart] at hc
      cases hc
    | some part =>
      rw [hpart] at hc
      dsimp only at hc ⊢
      cases hn : mappingLoads cfg type part.partitionCores.length with
      | none =>
        rw [hn] at hc
        obtain ⟨rfl, rfl⟩ := Prod.mk.inj (Except.ok.inj hc)
        exact ⟨_, rfl, rfl, h.ring⟩
      | some nrLoads =>
        rw [hn] at hc
        obtain ⟨rfl, rfl⟩ := Prod.mk.inj (Except.ok.inj hc)
        have hnext : Chains pl cfg ⟨p.mem, nextMapping g.unlinked ⟨partid, type, nrLoads⟩⟩
            (nextMapping g ⟨partid, type, nrLoads⟩) := ⟨rfl, h.ring⟩
        have hapart : Apart (nextMapping g ⟨partid, type, nrLoads⟩) := ⟨hl.nodup, hl.unique⟩
        have hnew : ∀ c l, l ∈ (g.streams c).loadQ → l.mapping = g.nrMappings → l.index < 0 := by
          intro c l hq hm
          have hlt := ((hl.mem_iff l).mpr ⟨c, hq⟩).1
          omega
        obtain ⟨hret, hq⟩ : (chainLoadsLoop pl cfg abt g.nrMappings partid nrLoads 0 0 _).1 =
            (initLoadsLoop cfg abt g.nrMappings partid nrLoads 0 0 _).1 ∧ _ :=
          hnext.loadsLoop nrLoads hapart hl.used_lt hnew partid
        have hloads : abtstInitLoads cfg abt g.nrMappings
            (({ g with nrMappings := g.nrMappings + 1 } : Global).setMapping g.nrMappings
              ⟨partid, type, nrLoads⟩) =
            initLoadsLoop cfg abt g.nrMappings partid nrLoads 0 0 (nextMapping g ⟨partid, type, nrLoads⟩) := by
          rw [abtstInitLoads_next]
          simp only [nextMapping, Function.update_self]
        have hchain : chainInitLoads pl cfg abt g.nrMappings
            ⟨p.mem, ({ g.unlinked with nrMappings := g.nrMappings + 1 } : Global).setMapping g.nrMappings
              ⟨partid, type, nrLoads⟩⟩ =
            chainLoadsLoop pl cfg abt g.nrMappings partid nrLoads 0 0
              ⟨p.mem, nextMapping g.unlinked ⟨partid, type, nrLoads⟩⟩ := by
          simp only [chainInitLoads, Global.setMapping, Function.update_self]
          rfl
        rw [hloads]
        refine ⟨_, ?_, hq⟩
        rw [← hret, ← hchain]
        rfl

theorem Chains.start (m : ListMem) {calls : Nat → Bool} {g g' : Global}
    (h : abtstInitStreams cfg calls (abtstInitPower cfg g) = some g') :
    Chains pl cfg ⟨initHeads pl cfg.nrCores m, g'⟩ g' := by
  have hq : ∀ c, (g'.streams c).loadQ = [] := by
    unfold abtstInitStreams at h
    dsimp only at h
    split_ifs at h
    obtain rfl := Option.some.inj h
    intro c
    dsimp only
    split_ifs <;> rfl
  have hsame : g'.unlinked = g' := by
    have hstreams : (fun c => { g'.streams c with loadQ := [] }) = g'.streams := by
      funext c
      rw [← hq c]
    unfold Global.unlinked
    rw [hstreams]
  refine ⟨hsame.symm, fun c hc => ?_⟩
  rw [hq]
  exact initHeads_ring pl m hc

theorem SameQueues.unlinked {g s : Global} (h : SameQueues g s) : SameQueues g.unlinked s.unlinked :=
  ⟨h.rank, h.used, fun _ => rfl, h.nrLoads, h.destRank, h.nrMappings, h.mappings⟩

theorem Between.unlinked {g s : Global} (h : Between g s) : Between g.unlinked s.unlinked :=
  ⟨h.queues.unlinked, h.partId, h.initRank, h.psState, h.nrPsNumas⟩

theorem Chains.between {p : Chained} {g s : Global} (h : Chains pl cfg p g) (hs : SameQueues g s) :
    Chains pl cfg ⟨p.mem, s.unlinked⟩ s := by
  refine ⟨rfl, fun c hc => ?_⟩
  rw [hs.loadQ]
  exact h.ring c hc

theorem Chains.pass (hv : cfg.Valid) {p : Chained} {g : Global} (h : Chains pl cfg p g)
    (hg : Placed cfg g) (pf : Platform) : ∃ log q, Path (ChainStep pl cfg) p log q ∧
      Chains pl cfg q ((rebPass pf cfg).run g).st ∧
      List.Forall₂ (fun e' e => e'.1 = e.1 ∧ Chains pl cfg e'.2 e.2) log ((rebPass pf cfg).run g).log := by
  have hkeep : ∀ a s t, RebStep cfg a s t → Placed cfg s → Placed cfg t :=
    fun _ _ _ hst hs => Placed.step hst hs
  have hstep : ∀ a s t p, RebStep cfg a s t → Placed cfg s → Chains pl cfg p s →
      ∃ q, ChainStep pl cfg a p q ∧ Chains pl cfg q t :=
    fun _ _ _ _ hst hs hp => hst.on_chains hs.linked hp
  exact ((rebPass_follows pf hv).path hg.parts).simulate hkeep hstep hg h

theorem Mapped.on_chains (hv : cfg.Valid) (pl : Places) {g : Global} (h : Mapped cfg g) :
    ∃ p, ChainReachable pl cfg p ∧ Chains pl cfg p g := by
  induction h with
  | start hm hs => exact ⟨_, .start hm hs, Chains.start (fun _ => ⟨0, 0⟩) hs⟩
  | create hg hc hid ih =>
    obtain ⟨p, hp, hpg⟩ := ih
    obtain ⟨q, hq, hqg⟩ := hpg.createMapping (hg.initial hv).laid.linked hc
    exact ⟨q, .create hp hq hid, hqg⟩

theorem Reachable.on_chains (hv : cfg.Valid) (pl : Places) {g : Global} (h : Reachable cfg g) :
    ∃ p, ChainReachable pl cfg p ∧ Chains pl cfg p g := by
  induction h with
  | mapped hm => exact hm.on_chains hv pl
  | between _ hb ih =>
    obtain ⟨p, hp, hpg⟩ := ih
    have hmid : Between p.g _ := hpg.record ▸ hb.unlinked
    exact ⟨_, .between hp hmid, hpg.between hb.queues⟩
  | @pass g pf hg _ ih =>
    obtain ⟨p, hp, hpg⟩ := ih
    obtain ⟨_, q, hpath, hq, _⟩ := hpg.pass hv (Visited.placed hv (.reachable hg)) pf
    exact ⟨q, .pass hp hpath, hq⟩

end Start

/-- The queues of the model are the circular lists of the program: what start-up
and the passes do to the links of the heads and nodes, read along either
direction, is what they do to the lists, action by action. -/
theorem load_queues_on_links {cfg : Config} (hv : cfg.Valid) (pl : Places) :
    (∀ g, Reachable cfg g → ∃ p, ChainReachable pl cfg p ∧ Chains pl cfg p g) ∧
    ∀ g, Reachable cfg g → ∀ p, Chains pl cfg p g → ∀ pf, ∃ log q,
      Path (ChainStep pl cfg) p log q ∧ Chains pl cfg q ((rebPass pf cfg).run g).st ∧
      List.Forall₂ (fun e' e => e'.1 = e.1 ∧ Chains pl cfg e'.2 e.2) log ((rebPass pf cfg).run g).log :=
  ⟨fun _ hg => hg.on_chains hv pl,
    fun _ hg _ hp pf => hp.pass hv (Visited.placed hv (.reachable hg)) pf⟩

/-- Heads at the even addresses, nodes at the odd ones. -/
def evenOdd : Places where
  head c := 2 * c
  node l := 2 * Nat.pair l.mapping l.index + 1
  listEntry a := ⟨(Nat.unpair (a / 2)).1, (Nat.unpair (a / 2)).2⟩
  listEntry_node l := by
    have hhalf : (2 * Nat.pair l.mapping l.index + 1) / 2 = Nat.pair l.mapping l.index := by omega
    rw [hhalf, Nat.unpair_pair]
  head_inj c d h := by
    dsimp only at h
    omega
  head_ne_node c l := by omega

theorem load_queues_on_links_moved : ∃ g p, RushHour g ∧ ChainReachable evenOdd sharedConfig p ∧
    Chains evenOdd sharedConfig p g ∧ ∃ log q, Path (ChainStep evenOdd sharedConfig) p log q ∧
      Chains evenOdd sharedConfig q (afterRush g) := by
  obtain ⟨g, -, h⟩ := exists_rushHour
  obtain ⟨p, hp, hpg⟩ := (load_queues_on_links sharedConfig_valid evenOdd).1 g h.reachable
  obtain ⟨log, q, hpath, hq, _⟩ :=
    (load_queues_on_links sharedConfig_valid evenOdd).2 g h.reachable p hpg sortedPlatform
  exact ⟨g, p, h, hp, hpg, log, q, hpath, hq⟩

end AbtSt
