import AbtSt.Model
import Mathlib.Data.List.Perm.Subperm

/-! Moving loads between streams. `abtstCombineStreams` empties one stream into
another and `abtstRebalanceStreams` moves a selection; both end in the same
update of two queues, two counters, two depths and the targets of the loads. -/

namespace AbtSt

def abtstAddLoadToStream (g : Global) (c : Nat) (l : LoadId) : Global :=
  g.setStream c { g.streams c with
    loadQ := l :: (g.streams c).loadQ
    nrLoads := (g.streams c).nrLoads + 1 }

def abtstRemoveLoadFromStream (g : Global) (c : Nat) (l : LoadId) : Global :=
  g.setStream c { g.streams c with
    loadQ := (g.streams c).loadQ.erase l
    nrLoads := (g.streams c).nrLoads - 1 }

def abtstLoadSetMigrating (g : Global) (l : LoadId) (dest : Nat) : Global :=
  g.setLoad l { g.loads l with destRank := dest }

def abtstStreamUpdateQdepth (g : Global) (c : Nat) (qdepth : Nat) : Global :=
  g.setStream c { g.streams c with totalQdepth := qdepth }

/-- The body of the loops that migrate the loads collected in `mloads`. -/
def migrateLoad (src dst : Nat) (g : Global) (l : LoadId) : Global :=
  let g := abtstAddLoadToStream (abtstRemoveLoadFromStream g src l) dst l
  abtstLoadSetMigrating g l (g.streams dst).rank

/-- `mloads` has room for `nr_loads` pointers; filling it further overruns it. -/
def abtstCombineStreams (g : Global) (src dst : Nat) : Except Fault Global :=
  if (g.streams src).nrLoads = 0 then .ok g
  else
    let mloads := (g.streams src).loadQ
    if (g.streams src).nrLoads < mloads.length then .error .overrun
    else
      let g := mloads.foldl (migrateLoad src dst) g
      let g := abtstStreamUpdateQdepth g dst (u32 (g.qdepth src + g.qdepth dst))
      .ok (abtstStreamUpdateQdepth g src 0)

structure Pick where
  ios : Int
  fromIos : Int
  mloads : List LoadId := []
  minLoad : Option LoadId := none
  minLsize : Int := 0

def Pick.choose (p : Pick) (l : LoadId) (lsize : Int) : Pick :=
  { p with
    ios := i32 (p.ios + lsize)
    fromIos := i32 (p.fromIos - lsize)
    mloads := p.mloads ++ [l] }

def scanForeign (g : Global) : List LoadId → Pick → Pick
  | [], p => p
  | l :: ls, p =>
    if (g.loads l).currRank ≠ (g.loads l).initRank then
      scanForeign g ls (p.choose l (g.loadSize l))
    else scanForeign g ls p

/-- Second scan: loads that fit below the average, with the smallest one seen. -/
def scanFitting (g : Global) (avg toLoads : Nat) : List LoadId → Pick → Pick
  | [], p => p
  | l :: ls, p =>
    let lsize := g.loadSize l
    if lsize = 0 then scanFitting g avg toLoads ls p
    else
      let p := if p.minLsize = 0 ∨ lsize < p.minLsize
        then { p with minLsize := lsize, minLoad := some l } else p
      let p := if avg ≤ u32 (i32 (p.fromIos - lsize)) ∧ u32 (i32 (p.ios + lsize)) ≤ avg
        then p.choose l lsize else p
      if loadsPerXstream / 16 ≤ p.mloads.length ∧ toLoads ≠ 0 then p
      else if u32 p.ios = avg then p
      else scanFitting g avg toLoads ls p

/-- With nothing chosen, the smallest load may still move when the source keeps
the larger part. -/
def Pick.fallback (p1 p2 : SortParam) (p : Pick) : Pick :=
  match p.minLoad with
  | none => p
  | some l =>
    if p.minLsize ≠ 0 ∧ 2 * i32 (p1.ios + p.minLsize) < 3 * i32 (p2.ios - p.minLsize) then
      { p with ios := i32 (p.ios + p.minLsize), mloads := p.mloads ++ [l] }
    else p

def startPick (p1 p2 : SortParam) : Pick := { ios := p1.ios, fromIos := p2.ios }

def pickLoads (g : Global) (p1 p2 : SortParam) (avg : Nat) : Pick :=
  let loadQ := (g.streams p2.stream).loadQ
  let p := scanForeign g loadQ (startPick p1 p2)
  if p.mloads ≠ [] then p
  else
    let p := scanFitting g avg (g.streams p1.stream).nrLoads loadQ p
    if p.mloads ≠ [] then p else p.fallback p1 p2

/-- `none` stands for the return value -1, which leaves everything as it was. -/
def abtstRebalanceStreams (g : Global) (p1 p2 : SortParam) (avg : Nat) :
    Except Fault (Option Global) :=
  if avg ≤ u32 p1.ios ∨ u32 p2.ios ≤ avg then .ok none
  else if 2 * p2.ios < 3 * p1.ios then .ok none
  else
    let p := pickLoads g p1 p2 avg
    if (g.streams p2.stream).nrLoads < p.mloads.length then .error .overrun
    else if p.mloads = [] then .ok none
    else
      let g := p.mloads.foldl (migrateLoad p2.stream p1.stream) g
      let g := abtstStreamUpdateQdepth g p2.stream (u32 (i32 (p2.ios - i32 (p.ios - p1.ios))))
      .ok (some (abtstStreamUpdateQdepth g p1.stream (u32 p.ios)))

/-- The closed form of a migration of `ms` from `src` to `dst`. -/
def Global.moved (g : Global) (src dst : Nat) (ms : List LoadId) (qsrc qdst : Nat) : Global :=
  { g with
    streams := Function.update
      (Function.update g.streams src { g.streams src with
        loadQ := (g.streams src).loadQ.diff ms
        nrLoads := (g.streams src).nrLoads - ms.length
        totalQdepth := qsrc })
      dst { g.streams dst with
        loadQ := ms.reverse ++ (g.streams dst).loadQ
        nrLoads := (g.streams dst).nrLoads + ms.length
        totalQdepth := qdst }
    loads := fun l => if l ∈ ms then { g.loads l with destRank := (g.streams dst).rank }
      else g.loads l }

theorem foldl_migrateLoad (g : Global) {src dst : Nat} (h : src ≠ dst) (ms : List LoadId) :
    ms.foldl (migrateLoad src dst) g = g.moved src dst ms (g.qdepth src) (g.qdepth dst) := by
  induction ms generalizing g with
  | nil =>
    simp [Global.moved, Global.qdepth, List.diff]
  | cons l ms ih =>
    rw [List.foldl_cons, ih]
    have hd : dst ≠ src := fun he => h he.symm
    simp only [migrateLoad, abtstLoadSetMigrating, abtstAddLoadToStream, abtstRemoveLoadFromStream,
      Global.moved, Global.setLoad, Global.setStream, Global.qdepth, Function.update_self,
      Function.update_of_ne h, Function.update_of_ne hd, List.diff_cons, List.length_cons,
      List.reverse_cons, List.append_assoc, List.singleton_append, Global.mk.injEq, and_true]
    constructor
    · funext c
      by_cases hc : c = dst
      · subst hc; simp; omega
      · by_cases hs : c = src
        · subst hs; simp [h]; omega
        · simp [hc, hs]
    · funext m
      by_cases hm : m = l
      · subst hm; simp
      · simp [hm]

end AbtSt
