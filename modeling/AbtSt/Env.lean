import AbtSt.Model
import AbtSt.Scan

/-! Discovery of the NUMA nodes from sysfs. Each node is taken to be one range
of cores, read from the first item of its list of CPUs; an item that is a single
CPU leaves the end of the range as it was. The ranges are a partition of the
cores exactly if the CPUs of every node are the range that is read. -/

namespace AbtSt

structure Env where
  nrCores : Nat
  nrNumas : Nat
  numaInfo : Nat → Numa

/-- What the system shows: the entries of the directory of the nodes, unless it
cannot be opened, and the line in the `cpulist` of a node, unless there is none. -/
structure Machine where
  nrCores : Nat
  nodeDir : Option (List (List Char))
  cpulist : Nat → Option (List Char)

def nodePrefix : List Char := ['n', 'o', 'd', 'e']

def getNumaNodes (m : Machine) : Int :=
  match m.nodeDir with
  | none => 1
  | some entries =>
    entries.foldl (fun maxNodes name =>
      if nodePrefix.isPrefixOf name then
        let nd := i32 (strtoul (name.drop 4))
        if maxNodes < nd then nd else maxNodes
      else maxNodes) 0 + 1

/-- `sscanf(buf, "%d-%d\n", start, end)`: what is not matched is left alone. -/
def sscanfRange (line : List Char) (info : Numa) : Numa :=
  match scanInt line with
  | none => info
  | some (a, rest) =>
    if rest.head? = some '-' then
      match scanInt rest.tail with
      | none => ⟨u32 a, info.endCore⟩
      | some (b, _) => ⟨u32 a, u32 b⟩
    else ⟨u32 a, info.endCore⟩

def Env.setNuma (env : Env) (i : Nat) (info : Numa) : Env :=
  { env with numaInfo := Function.update env.numaInfo i info }

def Env.oneNuma (env : Env) : Env :=
  { env with nrNumas := 1 }.setNuma 0 ⟨0, u32 ((env.nrCores : Int) - 1)⟩

/-- The loop over the nodes; it writes `numa_info`, which has `MAX_NUMAS` entries. -/
def readNodes (m : Machine) : List Nat → Env → Except Fault Env
  | [], env => .ok env
  | i :: is, env =>
    match m.cpulist i with
    | none => .ok env.oneNuma
    | some line =>
      if maxNumas ≤ i then .error .badIndex
      else
        let info := sscanfRange line (env.numaInfo i)
        let env := env.setNuma i info
        if env.nrCores ≤ info.startCore ∨ env.nrCores ≤ info.endCore then .ok env.oneNuma
        else readNodes m is env

def abtstInitEnv (m : Machine) : Except Fault Env :=
  let env := Env.oneNuma { nrCores := u32 m.nrCores, nrNumas := 1, numaInfo := fun _ => ⟨0, 0⟩ }
  let env := { env with nrNumas := u32 (getNumaNodes m) }
  if 1 < env.nrNumas then readNodes m (List.range env.nrNumas) env else .ok env

def Numa.has (info : Numa) (core : Nat) : Bool := info.startCore ≤ core && core ≤ info.endCore

def abtstEnvGetNumaId (env : Env) (core : Nat) : Option Nat :=
  (List.range env.nrNumas).find? fun i => (env.numaInfo i).has core

/-- An item of a list of CPUs as the kernel prints it. -/
inductive CpuItem
  | single (a : Nat)
  | range (a b : Nat)

namespace CpuItem

def text : CpuItem → List Char
  | single a => Nat.toDigits 10 a
  | range a b => Nat.toDigits 10 a ++ '-' :: Nat.toDigits 10 b

def Has : CpuItem → Nat → Prop
  | single a, c => c = a
  | range a b, c => a ≤ c ∧ c ≤ b

def Proper : CpuItem → Prop
  | single _ => True
  | range a b => a ≤ b

end CpuItem

def cpulistText : List CpuItem → List Char
  | [] => ['\n']
  | [x] => x.text ++ ['\n']
  | x :: y :: xs => x.text ++ ',' :: cpulistText (y :: xs)

def nodeName (i : Nat) : List Char := nodePrefix ++ Nat.toDigits 10 i

def Owns (nodes : List (List CpuItem)) (i c : Nat) : Prop :=
  ∃ items, nodes[i]? = some items ∧ ∃ x ∈ items, x.Has c

/-- A machine with the given nodes: each CPU is in the list of one node. -/
structure Described (m : Machine) (nodes : List (List CpuItem)) : Prop where
  cores_pos : 0 < m.nrCores
  cores_lt : m.nrCores < 2 ^ 31
  nodes_lt : nodes.length < 2 ^ 31
  dir : ∃ entries, m.nodeDir = some entries ∧ ∀ name, nodePrefix.isPrefixOf name = true →
    (name ∈ entries ↔ ∃ i < nodes.length, name = nodeName i)
  cpulist : ∀ i items, nodes[i]? = some items → m.cpulist i = some (cpulistText items)
  proper : ∀ items ∈ nodes, ∀ x ∈ items, x.Proper
  owned : ∀ c, c < m.nrCores ↔ ∃ i, Owns nodes i c
  once : ∀ c i j, Owns nodes i c → Owns nodes j c → i = j

/-- The cores are split into the ranges of the nodes, or are all in one range. -/
structure Discovered (m : Machine) (nodes : List (List CpuItem)) (env : Env) : Prop where
  nrNumas_le : env.nrNumas ≤ maxNumas
  endCore_lt : ∀ n < env.nrNumas, (env.numaInfo n).endCore < m.nrCores
  covered : ∀ c < m.nrCores, ∃ n < env.nrNumas, (env.numaInfo n).has c = true ∧
    (∀ k < env.nrNumas, (env.numaInfo k).has c = true → k = n) ∧
    (Owns nodes n c ∨ env.nrNumas = 1 ∧ env.numaInfo 0 = ⟨0, m.nrCores - 1⟩) ∧
    abtstEnvGetNumaId env c = some n

/-- The range that the first item of a list gives to node `i`. -/
def firstRange (nrCores i : Nat) : List CpuItem → Numa
  | [] => ⟨0, if i = 0 then nrCores - 1 else 0⟩
  | .single a :: _ => ⟨a, if i = 0 then nrCores - 1 else 0⟩
  | .range a b :: _ => ⟨a, b⟩

def Contiguous (nrCores : Nat) (nodes : List (List CpuItem)) : Prop :=
  nodes.length ≤ 1 ∨ nodes.length ≤ maxNumas ∧
    ∀ i items, nodes[i]? = some items → ∀ c < nrCores,
      (∃ x ∈ items, x.Has c) ↔ (firstRange nrCores i items).has c = true

def CpuItem.Small : CpuItem → Prop
  | .single a => a < 2 ^ 32
  | .range a b => a < 2 ^ 32 ∧ b < 2 ^ 32

theorem cpulistText_cons (x : CpuItem) (xs : List CpuItem) : ∃ c cs,
    cpulistText (x :: xs) = x.text ++ c :: cs ∧ (c = ',' ∨ c = '\n') := by
  cases xs with
  | nil => exact ⟨'\n', [], rfl, Or.inr rfl⟩
  | cons y ys => exact ⟨',', cpulistText (y :: ys), rfl, Or.inl rfl⟩

theorem ends10_cons {c : Char} {cs : List Char} (h : ¬ digitVal c < 10) : Ends10 (c :: cs) := by
  intro d hd
  obtain rfl : c = d := by simpa using hd
  exact h

theorem sscanfRange_cpulistText (nrCores i : Nat) {items : List CpuItem}
    (h : ∀ x ∈ items.head?, x.Small) :
    sscanfRange (cpulistText items) (firstRange nrCores i []) = firstRange nrCores i items := by
  cases items with
  | nil => rfl
  | cons x xs =>
    have hx := h x (by simp)
    obtain ⟨c, cs, htext, hc⟩ := cpulistText_cons x xs
    have hend : Ends10 (c :: cs) := by
      rcases hc with rfl | rfl <;> exact ends10_cons (by decide)
    rw [htext]
    cases x with
    | single a =>
      have hdash : (c :: cs).head? ≠ some '-' := by
        rcases hc with rfl | rfl <;> simp
      unfold sscanfRange
      rw [CpuItem.text, scanInt_toDigits a hend]
      dsimp only
      rw [if_neg hdash, u32_of_lt hx]
      rfl
    | range a b =>
      have ha : scanInt (Nat.toDigits 10 a ++ '-' :: (Nat.toDigits 10 b ++ c :: cs)) =
          some ((a : Int), '-' :: (Nat.toDigits 10 b ++ c :: cs)) :=
        scanInt_toDigits a (ends10_cons (by decide))
      unfold sscanfRange
      rw [CpuItem.text, List.append_assoc, List.cons_append, ha]
      dsimp only
      rw [List.head?_cons, if_pos rfl, List.tail_cons, scanInt_toDigits b hend]
      dsimp only
      rw [u32_of_lt hx.1, u32_of_lt hx.2]
      rfl

theorem nodeName_drop (i : Nat) : (nodeName i).drop 4 = Nat.toDigits 10 i := rfl

theorem nodeName_number {i : Nat} (h : i < 2 ^ 31) : i32 (strtoul ((nodeName i).drop 4)) = i := by
  rw [nodeName_drop, strtoul_toDigits (by omega), i32_of_lt (by omega) (by omega)]

theorem nodeName_node (i : Nat) : nodePrefix.isPrefixOf (nodeName i) = true := by
  rw [List.isPrefixOf_iff_prefix]
  exact ⟨_, rfl⟩

def maxNode (maxNodes : Int) (name : List Char) : Int :=
  if nodePrefix.isPrefixOf name then
    let nd := i32 (strtoul (name.drop 4))
    if maxNodes < nd then nd else maxNodes
  else maxNodes

theorem foldl_maxNode {k : Nat} (hk : k < 2 ^ 31) (entries : List (List Char)) (acc : Int)
    (h : ∀ name ∈ entries, nodePrefix.isPrefixOf name = true → ∃ i < k, name = nodeName i)
    (h0 : 0 ≤ acc) (h1 : acc < k) :
    acc ≤ entries.foldl maxNode acc ∧ entries.foldl maxNode acc < k ∧
      ∀ i < k, nodeName i ∈ entries → (i : Int) ≤ entries.foldl maxNode acc := by
  induction entries generalizing acc with
  | nil => exact ⟨Int.le_refl _, h1, by simp⟩
  | cons name entries ih =>
    have hrest := fun n hn => h n (List.mem_cons_of_mem _ hn)
    -- one entry keeps the bounds and is itself accounted for
    have hstep : acc ≤ maxNode acc name ∧ maxNode acc name < k ∧
        ∀ i < k, name = nodeName i → (i : Int) ≤ maxNode acc name := by
      by_cases hp : nodePrefix.isPrefixOf name = true
      · obtain ⟨i, hi, rfl⟩ := h name (by simp) hp
        have hnum := nodeName_number (i := i) (by omega)
        unfold maxNode
        rw [if_pos hp]
        dsimp only
        rw [hnum]
        have hown : ∀ j < k, nodeName i = nodeName j → (j : Int) = i := by
          intro j hj he
          rw [← nodeName_number (i := j) (by omega), ← he, hnum]
        split_ifs with hlt
        · refine ⟨by omega, by omega, fun j hj he => ?_⟩
          rw [hown j hj he]
        · refine ⟨Int.le_refl _, h1, fun j hj he => ?_⟩
          rw [hown j hj he]
          omega
      · unfold maxNode
        rw [if_neg hp]
        refine ⟨Int.le_refl _, h1, fun i _ he => ?_⟩
        rw [he] at hp
        exact absurd (nodeName_node i) hp
    obtain ⟨h2, h3, h4⟩ := hstep
    obtain ⟨h5, h6, h7⟩ := ih (maxNode acc name) hrest (by omega) h3
    rw [List.foldl_cons]
    refine ⟨by omega, h6, fun i hi hmem => ?_⟩
    rcases List.mem_cons.mp hmem with he | hmem
    · have := h4 i hi he.symm
      omega
    · exact h7 i hi hmem

theorem Described.nodes_pos {m : Machine} {nodes : List (List CpuItem)} (h : Described m nodes) :
    0 < nodes.length := by
  obtain ⟨i, items, hi, _⟩ := (h.owned 0).mp h.cores_pos
  have := (List.getElem?_eq_some_iff.mp hi).1
  omega

theorem getNumaNodes_eq {m : Machine} {nodes : List (List CpuItem)} (h : Described m nodes) :
    getNumaNodes m = nodes.length := by
  obtain ⟨entries, hdir, hname⟩ := h.dir
  have hpos := h.nodes_pos
  obtain ⟨_, hlt, hall⟩ := foldl_maxNode h.nodes_lt entries 0
    (fun name hn hp => (hname name hp).mp hn) (Int.le_refl 0) (by omega)
  have hlast := hall (nodes.length - 1) (by omega)
    ((hname _ (nodeName_node _)).mpr ⟨nodes.length - 1, by omega, rfl⟩)
  have heq : getNumaNodes m = entries.foldl maxNode 0 + 1 := by
    unfold getNumaNodes
    rw [hdir]
    rfl
  omega

/-- Each of the nodes has a line, and `r` is the range that is read from it. -/
def Reads (m : Machine) (env : Env) (r : Nat → Numa) (is : List Nat) : Prop :=
  ∀ i ∈ is, (r i).startCore < env.nrCores ∧ (r i).endCore < env.nrCores ∧
    ∃ line, m.cpulist i = some line ∧ sscanfRange line (env.numaInfo i) = r i

theorem Reads.next {m : Machine} {env : Env} {r : Nat → Numa} {i : Nat} {is : List Nat}
    (h : Reads m env r (i :: is)) (hnot : i ∉ is) : Reads m (env.setNuma i (r i)) r is := by
  intro j hj
  obtain ⟨hs, he, line, hl, hr⟩ := h j (List.mem_cons_of_mem _ hj)
  have hji : j ≠ i := fun he => hnot (he ▸ hj)
  exact ⟨hs, he, line, hl, by simpa [Env.setNuma, hji] using hr⟩

theorem Reads.readNodes_cons {m : Machine} {env : Env} {r : Nat → Numa} {i : Nat} {is : List Nat}
    (h : Reads m env r (i :: is)) (hi : i < maxNumas) :
    readNodes m (i :: is) env = readNodes m is (env.setNuma i (r i)) := by
  obtain ⟨hs, he, line, hl, hr⟩ := h i (by simp)
  have hin : ¬ ((env.setNuma i (r i)).nrCores ≤ (r i).startCore ∨
      (env.setNuma i (r i)).nrCores ≤ (r i).endCore) := by
    change ¬ (env.nrCores ≤ (r i).startCore ∨ env.nrCores ≤ (r i).endCore)
    omega
  rw [readNodes, hl]
  dsimp only
  rw [hr, if_neg (by omega), if_neg hin]

theorem Reads.readNodes_ok {m : Machine} {env : Env} {r : Nat → Numa} {is : List Nat}
    (h : Reads m env r is) (hnd : is.Nodup) (hlt : ∀ i ∈ is, i < maxNumas) :
    readNodes m is env =
      .ok { env with numaInfo := fun i => if i ∈ is then r i else env.numaInfo i } := by
  induction is generalizing env with
  | nil => simp [readNodes]
  | cons i is ih =>
    have hnot := (List.nodup_cons.mp hnd).1
    rw [h.readNodes_cons (hlt i (by simp)),
      ih (h.next hnot) (List.nodup_cons.mp hnd).2 (fun j hj => hlt j (by simp [hj]))]
    simp only [Env.setNuma, Except.ok.injEq, Env.mk.injEq, true_and]
    funext j
    by_cases hji : j = i
    · subst hji
      simp [hnot]
    · simp [hji]

theorem Reads.readNodes_error {m : Machine} {env : Env} {r : Nat → Numa} {is : List Nat}
    (h : Reads m env r is) (hnd : is.Nodup) (hbig : ∃ i ∈ is, maxNumas ≤ i) :
    readNodes m is env = .error .badIndex := by
  induction is generalizing env with
  | nil => simp at hbig
  | cons i is ih =>
    by_cases hi : maxNumas ≤ i
    · obtain ⟨_, _, line, hl, _⟩ := h i (by simp)
      rw [readNodes, hl]
      dsimp only
      rw [if_pos hi]
    · rw [h.readNodes_cons (by omega)]
      refine ih (h.next (List.nodup_cons.mp hnd).1) (List.nodup_cons.mp hnd).2 ?_
      obtain ⟨j, hj, hbig⟩ := hbig
      rcases List.mem_cons.mp hj with rfl | hj
      · exact absurd hbig hi
      · exact ⟨j, hj, hbig⟩

theorem Numa.has_iff {info : Numa} {c : Nat} :
    info.has c = true ↔ info.startCore ≤ c ∧ c ≤ info.endCore := by
  simp [Numa.has]

theorem abtstEnvGetNumaId_eq (env : Env) {c n : Nat} (hn : n < env.nrNumas)
    (hc : (env.numaInfo n).has c = true)
    (huniq : ∀ k < env.nrNumas, (env.numaInfo k).has c = true → k = n) :
    abtstEnvGetNumaId env c = some n := by
  unfold abtstEnvGetNumaId
  cases hf : (List.range env.nrNumas).find? fun i => (env.numaInfo i).has c with
  | none => exact absurd hc (List.find?_eq_none.mp hf n (List.mem_range.mpr hn))
  | some k =>
    have hk := List.mem_range.mp (List.mem_of_find?_eq_some hf)
    have hhas : (env.numaInfo k).has c = true := by simpa using List.find?_some hf
    rw [huniq k hk hhas]

section Nodes

variable {m : Machine} {nodes : List (List CpuItem)}

theorem Described.head_lt (h : Described m nodes) {i : Nat} {items : List CpuItem}
    (hi : nodes[i]? = some items) :
    (∀ x ∈ items.head?, x.Small) ∧ (firstRange m.nrCores i items).startCore < m.nrCores ∧
      (firstRange m.nrCores i items).endCore < m.nrCores := by
  have hpos := h.cores_pos
  have hlt := h.cores_lt
  have hdefault : (if i = 0 then m.nrCores - 1 else 0) < m.nrCores := by split_ifs <;> omega
  cases items with
  | nil => exact ⟨by simp, hpos, hdefault⟩
  | cons x xs =>
    have hmem : ∀ c, x.Has c → c < m.nrCores :=
      fun c hc => (h.owned c).mpr ⟨i, x :: xs, hi, x, by simp, hc⟩
    have hhead : ∀ y ∈ (x :: xs).head?, y = x := fun y hy => by simpa [eq_comm] using hy
    cases x with
    | single a =>
      have ha := hmem a rfl
      refine ⟨fun y hy => ?_, ha, hdefault⟩
      rw [hhead y hy]
      exact Nat.lt_trans ha (by omega)
    | range a b =>
      have hab : a ≤ b := h.proper _ (List.mem_of_getElem? hi) (.range a b) (by simp)
      have ha := hmem a ⟨Nat.le_refl a, hab⟩
      have hb := hmem b ⟨hab, Nat.le_refl b⟩
      refine ⟨fun y hy => ?_, ha, hb⟩
      rw [hhead y hy]
      exact ⟨by omega, by omega⟩

/-- The ranges that the loop over the nodes stores. -/
def nodeRange (nrCores : Nat) (nodes : List (List CpuItem)) (i : Nat) : Numa :=
  firstRange nrCores i (nodes[i]?.getD [])

theorem abtstInitEnv_eq (h : Described m nodes) :
    abtstInitEnv m =
      if nodes.length ≤ 1 then .ok ⟨m.nrCores, 1, fun i => firstRange m.nrCores i []⟩
      else if nodes.length ≤ maxNumas then
        .ok ⟨m.nrCores, nodes.length, fun i =>
          if i < nodes.length then nodeRange m.nrCores nodes i else ⟨0, 0⟩⟩
      else .error .badIndex := by
  have hpos := h.cores_pos
  have hlt := h.cores_lt
  have hnodes := h.nodes_lt
  have hk := h.nodes_pos
  have hu : u32 ((m.nrCores : Int) - 1) = m.nrCores - 1 := by
    rw [← u32_of_lt (n := m.nrCores - 1) (by omega)]
    congr 1
    omega
  have hinit : (Env.oneNuma { nrCores := u32 m.nrCores, nrNumas := 1, numaInfo := fun _ => ⟨0, 0⟩ }) =
      ⟨m.nrCores, 1, fun i => firstRange m.nrCores i []⟩ := by
    unfold Env.oneNuma Env.setNuma
    rw [u32_of_lt (by omega)]
    simp only [Env.mk.injEq, true_and]
    funext i
    by_cases hi : i = 0
    · subst hi
      simp [firstRange, hu]
    · simp [firstRange, hi]
  have hitems : ∀ i < nodes.length, ∃ items, nodes[i]? = some items ∧
      nodeRange m.nrCores nodes i = firstRange m.nrCores i items := by
    intro i hi
    exact ⟨nodes[i], List.getElem?_eq_getElem hi, by simp [nodeRange, hi]⟩
  have hreads : Reads m ⟨m.nrCores, nodes.length, fun i => firstRange m.nrCores i []⟩
      (nodeRange m.nrCores nodes) (List.range nodes.length) := by
    intro i hi
    obtain ⟨items, hget, hrange⟩ := hitems i (List.mem_range.mp hi)
    obtain ⟨hsmall, hstart, hend⟩ := h.head_lt hget
    rw [hrange]
    exact ⟨hstart, hend, _, h.cpulist i items hget, sscanfRange_cpulistText m.nrCores i hsmall⟩
  unfold abtstInitEnv
  rw [hinit, getNumaNodes_eq h, u32_of_lt (by omega)]
  dsimp only
  by_cases h1 : nodes.length ≤ 1
  · rw [if_neg (by omega), if_pos h1, show nodes.length = 1 by omega]
  · rw [if_pos (by omega), if_neg h1]
    by_cases h8 : nodes.length ≤ maxNumas
    · rw [if_pos h8, hreads.readNodes_ok List.nodup_range
        (fun i hi => Nat.lt_of_lt_of_le (List.mem_range.mp hi) h8)]
      simp only [Except.ok.injEq, Env.mk.injEq, true_and, List.mem_range]
      funext i
      by_cases hi : i < nodes.length
      · rw [if_pos hi, if_pos hi]
      · have h0 : i ≠ 0 := by omega
        simp [hi, firstRange, h0]
    · rw [if_neg h8]
      exact hreads.readNodes_error List.nodup_range
        ⟨maxNumas, List.mem_range.mpr (by omega), Nat.le_refl _⟩

theorem Described.owns_lt (h : Described m nodes) {i c : Nat} (hc : Owns nodes i c) :
    i < nodes.length ∧ c < m.nrCores := by
  have hlt := (h.owned c).mpr ⟨i, hc⟩
  obtain ⟨items, hi, _⟩ := hc
  exact ⟨(List.getElem?_eq_some_iff.mp hi).1, hlt⟩

/-- For several nodes: each node owns the cores of its range and no others. -/
theorem contiguous_iff (h1 : ¬ nodes.length ≤ 1) : Contiguous m.nrCores nodes ↔
    nodes.length ≤ maxNumas ∧ ∀ i < nodes.length, ∀ c < m.nrCores,
      Owns nodes i c ↔ (nodeRange m.nrCores nodes i).has c = true := by
  unfold Contiguous
  constructor
  · rintro (h | ⟨h8, h⟩)
    · exact absurd h h1
    · refine ⟨h8, fun i hi c hc => ?_⟩
      have hget := List.getElem?_eq_getElem hi
      have hiff := h i nodes[i] hget c hc
      simpa [Owns, nodeRange, hget] using hiff
  · rintro ⟨h8, h⟩
    refine Or.inr ⟨h8, fun i items hget c hc => ?_⟩
    have hiff := h i (List.getElem?_eq_some_iff.mp hget).1 c hc
    simpa [Owns, nodeRange, hget] using hiff

theorem discovered_single (hpos : 0 < m.nrCores) :
    Discovered m nodes ⟨m.nrCores, 1, fun i => firstRange m.nrCores i []⟩ := by
  refine ⟨Nat.le_add_left 1 7, ?_, ?_⟩
  · intro n hn
    obtain rfl : n = 0 := Nat.lt_one_iff.mp hn
    exact Nat.sub_lt hpos Nat.one_pos
  · intro c hc
    have hhas : (firstRange m.nrCores 0 []).has c = true :=
      Numa.has_iff.mpr ⟨Nat.zero_le c, by change c ≤ m.nrCores - 1; omega⟩
    have huniq : ∀ k < 1, (firstRange m.nrCores k []).has c = true → k = 0 :=
      fun k hk _ => Nat.lt_one_iff.mp hk
    exact ⟨0, Nat.one_pos, hhas, huniq, Or.inr ⟨rfl, rfl⟩,
      abtstEnvGetNumaId_eq ⟨m.nrCores, 1, fun i => firstRange m.nrCores i []⟩
        Nat.one_pos hhas huniq⟩

/-- Several nodes with the ranges that the loop stored. -/
theorem Described.discovered_iff (h : Described m nodes) (h1 : ¬ nodes.length ≤ 1)
    (h8 : nodes.length ≤ maxNumas) (env : Env) (hnum : env.nrNumas = nodes.length)
    (hinfo : ∀ i < nodes.length, env.numaInfo i = nodeRange m.nrCores nodes i) :
    Discovered m nodes env ↔ ∀ i < nodes.length, ∀ c < m.nrCores,
      Owns nodes i c ↔ (nodeRange m.nrCores nodes i).has c = true := by
  constructor
  · intro hd i hi c hc
    obtain ⟨n, hn, hhas, huniq, hown, _⟩ := hd.covered c hc
    rw [hnum] at hn huniq hown
    have hown : Owns nodes n c := by
      rcases hown with hown | ⟨hone, _⟩
      · exact hown
      · omega
    rw [hinfo n hn] at hhas
    constructor
    · intro hi'
      rw [h.once c i n hi' hown]
      exact hhas
    · intro hi'
      rw [huniq i hi (by rw [hinfo i hi]; exact hi')]
      exact hown
  · intro hall
    refine ⟨by rw [hnum]; exact h8, ?_, ?_⟩
    · intro n hn
      rw [hnum] at hn
      rw [hinfo n hn, nodeRange, List.getElem?_eq_getElem hn, Option.getD_some]
      exact (h.head_lt (List.getElem?_eq_getElem hn)).2.2
    · intro c hc
      obtain ⟨n, hown⟩ := (h.owned c).mp hc
      have hn := (h.owns_lt hown).1
      have hhas := (hall n hn c hc).mp hown
      have huniq : ∀ k < env.nrNumas, (env.numaInfo k).has c = true → k = n := by
        intro k hk hkc
        rw [hnum] at hk
        rw [hinfo k hk] at hkc
        exact h.once c k n ((hall k hk c hc).mpr hkc) hown
      rw [← hinfo n hn] at hhas
      rw [← hnum] at hn
      exact ⟨n, hn, hhas, huniq, Or.inl hown, abtstEnvGetNumaId_eq env hn hhas huniq⟩

/-- Discovery splits the cores into the ranges of the nodes exactly if there is
one node, or at most `MAX_NUMAS` of them and the CPUs of each are the range that
the first item of its list gives. -/
theorem numa_discovery_exact (h : Described m nodes) :
    (∃ env, abtstInitEnv m = .ok env ∧ Discovered m nodes env) ↔ Contiguous m.nrCores nodes := by
  rw [abtstInitEnv_eq h]
  by_cases h1 : nodes.length ≤ 1
  · rw [if_pos h1]
    exact ⟨fun _ => Or.inl h1, fun _ => ⟨_, rfl, discovered_single h.cores_pos⟩⟩
  · rw [if_neg h1, contiguous_iff h1]
    by_cases h8 : nodes.length ≤ maxNumas
    · rw [if_pos h8]
      have hiff := h.discovered_iff h1 h8 (⟨m.nrCores, nodes.length, fun i =>
        if i < nodes.length then nodeRange m.nrCores nodes i else ⟨0, 0⟩⟩ : Env) rfl (fun i hi => if_pos hi)
      constructor
      · rintro ⟨env, he, hd⟩
        obtain rfl := (Except.ok.inj he).symm
        exact ⟨h8, hiff.mp hd⟩
      · rintro ⟨_, hall⟩
        exact ⟨_, rfl, hiff.mpr hall⟩
    · rw [if_neg h8]
      constructor
      · rintro ⟨env, he, _⟩
        cases he
      · exact fun hh => absurd hh.1 h8

end Nodes

/-- A machine that shows its nodes under sysfs. -/
def machineOf (nrCores : Nat) (nodes : List (List CpuItem)) : Machine where
  nrCores := nrCores
  nodeDir := some ("possible".toList :: (List.range nodes.length).map nodeName)
  cpulist i := nodes[i]?.map cpulistText

theorem machineOf_dir {nrCores : Nat} {nodes : List (List CpuItem)} :
    ∃ entries, (machineOf nrCores nodes).nodeDir = some entries ∧
      ∀ name, nodePrefix.isPrefixOf name = true →
        (name ∈ entries ↔ ∃ i < nodes.length, name = nodeName i) := by
  refine ⟨_, rfl, fun name hp => ?_⟩
  have hother : name ≠ "possible".toList := by
    rintro rfl
    revert hp
    decide
  rw [List.mem_cons, or_iff_right hother, List.mem_map]
  constructor
  · rintro ⟨i, hi, rfl⟩
    exact ⟨i, List.mem_range.mp hi, rfl⟩
  · rintro ⟨i, hi, rfl⟩
    exact ⟨i, List.mem_range.mpr hi, rfl⟩

def twoNodes : List (List CpuItem) := [[.range 0 1], [.range 2 3]]

theorem owns_twoNodes {i c : Nat} : Owns twoNodes i c ↔ i < 2 ∧ c / 2 = i ∧ c < 4 := by
  rcases i with _ | _ | i
  · simp [Owns, twoNodes, CpuItem.Has]
    omega
  · simp [Owns, twoNodes, CpuItem.Has]
    omega
  · simp [Owns, twoNodes]

theorem twoNodes_described : Described (machineOf 4 twoNodes) twoNodes := by
  refine ⟨by decide, by decide, by decide, machineOf_dir, ?_, ?_, ?_, ?_⟩
  · intro i items hi
    simp [machineOf, hi]
  · simp [twoNodes, CpuItem.Proper]
  · intro c
    simp only [owns_twoNodes]
    constructor
    · intro hc
      change c < 4 at hc
      exact ⟨c / 2, by omega, rfl, hc⟩
    · rintro ⟨i, _, _, hc⟩
      exact hc
  · intro c i j hi hj
    rw [owns_twoNodes] at hi hj
    omega

theorem numa_discovery_exact_two : ∃ env, abtstInitEnv (machineOf 4 twoNodes) = .ok env ∧
    Discovered (machineOf 4 twoNodes) twoNodes env := by
  refine (numa_discovery_exact twoNodes_described).mpr (Or.inr ⟨by decide, ?_⟩)
  intro i items hi c _
  rcases i with _ | _ | i
  · obtain rfl : [.range 0 1] = items := by simpa [twoNodes] using hi
    simp [CpuItem.Has, firstRange, Numa.has_iff]
  · obtain rfl : [.range 2 3] = items := by simpa [twoNodes] using hi
    simp [CpuItem.Has, firstRange, Numa.has_iff]
  · simp [twoNodes] at hi

/-- Two nodes with two hyperthreads for each core: siblings are four apart. -/
def siblings : List (List CpuItem) := [[.range 0 1, .range 4 5], [.range 2 3, .range 6 7]]

theorem owns_siblings {i c : Nat} : Owns siblings i c ↔ i < 2 ∧ c / 2 % 2 = i ∧ c < 8 := by
  rcases i with _ | _ | i
  · simp [Owns, siblings, CpuItem.Has]
    omega
  · simp [Owns, siblings, CpuItem.Has]
    omega
  · simp [Owns, siblings]

theorem siblings_described : Described (machineOf 8 siblings) siblings := by
  refine ⟨by decide, by decide, by decide, machineOf_dir, ?_, ?_, ?_, ?_⟩
  · intro i items hi
    simp [machineOf, hi]
  · simp [siblings, CpuItem.Proper]
  · intro c
    simp only [owns_siblings]
    constructor
    · intro hc
      change c < 8 at hc
      exact ⟨c / 2 % 2, by omega, rfl, hc⟩
    · rintro ⟨i, _, _, hc⟩
      exact hc
  · intro c i j hi hj
    rw [owns_siblings] at hi hj
    omega

/-- The siblings are in no range: core 4 belongs to node 0, whose range is 0-1. -/
theorem siblings_lost : Described (machineOf 8 siblings) siblings ∧
    ∃ env, abtstInitEnv (machineOf 8 siblings) = .ok env ∧ env.nrNumas = 2 ∧
      (∀ n < env.nrNumas, (env.numaInfo n).has 4 = false) ∧
      ¬ Discovered (machineOf 8 siblings) siblings env := by
  refine ⟨siblings_described, ⟨8, 2, fun i => if i < 2 then nodeRange 8 siblings i else ⟨0, 0⟩⟩,
    abtstInitEnv_eq siblings_described, rfl, by decide, fun hd => ?_⟩
  have hnone : ∀ n < 2,
      ((fun i => if i < 2 then nodeRange 8 siblings i else ⟨0, 0⟩) n).has 4 = false := by decide
  obtain ⟨n, hn, hhas, _⟩ := hd.covered 4 (by decide)
  exact absurd (hnone n hn) (by simpa using hhas)

end AbtSt
