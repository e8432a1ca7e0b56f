import AbtSt.Rebalance

/-! The shape of a state, which migrations leave alone, and the ends of a
migration. -/

namespace AbtSt

structure SameShape (g s : Global) : Prop where
  rank : ∀ c, (s.streams c).rank = (g.streams c).rank
  used : ∀ c, (s.streams c).used = (g.streams c).used
  partId : ∀ c, (s.streams c).partId = (g.streams c).partId
  power : s.power = g.power
  rebalance : s.rebalance = g.rebalance
  nrMappings : s.nrMappings = g.nrMappings
  mappings : s.mappings = g.mappings
  numaStat : s.numaStat = g.numaStat

theorem SameShape.refl (g : Global) : SameShape g g :=
  ⟨fun _ => rfl, fun _ => rfl, fun _ => rfl, rfl, rfl, rfl, rfl, rfl⟩

theorem SameShape.trans {g s t : Global} (h : SameShape g s) (h' : SameShape s t) :
    SameShape g t :=
  ⟨fun c => (h'.rank c).trans (h.rank c), fun c => (h'.used c).trans (h.used c),
    fun c => (h'.partId c).trans (h.partId c), h'.power.trans h.power,
    h'.rebalance.trans h.rebalance, h'.nrMappings.trans h.nrMappings,
    h'.mappings.trans h.mappings, h'.numaStat.trans h.numaStat⟩

theorem SameShape.group {g s : Global} (h : SameShape g s) : s.group = g.group :=
  Global.group_congr h.used h.partId

theorem SameShape.usedIn {g s : Global} (h : SameShape g s) : s.usedIn = g.usedIn :=
  Global.usedIn_congr h.used

section Moved

variable (g : Global) {src dst : Nat} (ms : List LoadId) (a b : Nat)

theorem moved_src (h : src ≠ dst) : (g.moved src dst ms a b).streams src =
    { g.streams src with
      loadQ := (g.streams src).loadQ.diff ms
      nrLoads := (g.streams src).nrLoads - ms.length
      totalQdepth := a } := by
  simp [Global.moved, h]

theorem moved_dst : (g.moved src dst ms a b).streams dst =
    { g.streams dst with
      loadQ := ms.reverse ++ (g.streams dst).loadQ
      nrLoads := (g.streams dst).nrLoads + ms.length
      totalQdepth := b } := by
  simp [Global.moved]

theorem moved_other {c : Nat} (hs : c ≠ src) (hd : c ≠ dst) :
    (g.moved src dst ms a b).streams c = g.streams c := by
  simp [Global.moved, hs, hd]

theorem moved_sameShape (h : src ≠ dst) : SameShape g (g.moved src dst ms a b) := by
  refine ⟨?_, ?_, ?_, rfl, rfl, rfl, rfl, rfl⟩ <;> intro c <;> by_cases hs : c = src <;>
    by_cases hd : c = dst
  all_goals first
    | (subst hs; subst hd; exact absurd rfl h)
    | (subst hs; rw [moved_src g ms a b h])
    | (subst hd; rw [moved_dst g ms a b])
    | rw [moved_other g ms a b hs hd]

end Moved

theorem moved_fits {g : Global} {src dst a b : Nat} (h : src ≠ dst)
    (ho : Overfull (g.moved src dst (g.streams src).loadQ a b)) : Overfull g := by
  obtain ⟨c, hc⟩ := ho
  by_cases hs : c = src
  · subst hs
    rw [moved_src g _ _ _ h] at hc
    simp [diff_self] at hc
  · refine ⟨c, ?_⟩
    by_cases hd : c = dst
    · subst hd
      rw [moved_dst] at hc
      simp only [List.length_append, List.length_reverse] at hc
      omega
    · rw [moved_other g _ _ _ hs hd] at hc
      exact hc

theorem combine_fits {g s : Global} {src dst : Nat} (h : src ≠ dst)
    (he : abtstCombineStreams g src dst = .ok s) (ho : Overfull s) : Overfull g := by
  rcases abtstCombineStreams_ok h he with ⟨_, rfl⟩ | ⟨_, _, rfl⟩
  · exact ho
  · exact moved_fits h ho

theorem combine_sameShape {g s : Global} {src dst : Nat} (h : src ≠ dst)
    (he : abtstCombineStreams g src dst = .ok s) : SameShape g s := by
  rcases abtstCombineStreams_ok h he with ⟨_, rfl⟩ | ⟨_, _, rfl⟩
  · exact .refl _
  · exact moved_sameShape g _ _ _ h

def Emptied (g : Global) (c : Nat) : Prop :=
  (g.streams c).nrLoads = 0 ∨ (g.streams c).loadQ = []

theorem combine_emptied {g s : Global} {src dst : Nat} (h : src ≠ dst)
    (he : abtstCombineStreams g src dst = .ok s) : Emptied s src := by
  rcases abtstCombineStreams_ok h he with ⟨hz, rfl⟩ | ⟨_, _, rfl⟩
  · exact Or.inl hz
  · apply Or.inr
    rw [moved_src g _ _ _ h]
    exact diff_self _

theorem combine_other {g s : Global} {src dst c : Nat} (h : src ≠ dst)
    (he : abtstCombineStreams g src dst = .ok s) (hs : c ≠ src) (hd : c ≠ dst) :
    s.streams c = g.streams c := by
  rcases abtstCombineStreams_ok h he with ⟨_, rfl⟩ | ⟨_, _, rfl⟩
  · rfl
  · exact moved_other g _ _ _ hs hd

theorem combine_queues {g s : Global} {src dst : Nat} (h : src ≠ dst)
    (hcount : (g.streams src).nrLoads = (g.streams src).loadQ.length)
    (he : abtstCombineStreams g src dst = .ok s) :
    (s.streams src).loadQ = [] ∧
      (s.streams dst).loadQ = (g.streams src).loadQ.reverse ++ (g.streams dst).loadQ := by
  rcases abtstCombineStreams_ok h he with ⟨hz, rfl⟩ | ⟨_, _, rfl⟩
  · have hnil : (s.streams src).loadQ = [] := List.length_eq_zero_iff.mp (hcount.symm.trans hz)
    exact ⟨hnil, by rw [hnil]; rfl⟩
  · refine ⟨?_, by rw [moved_dst]⟩
    rw [moved_src g _ _ _ h]
    exact diff_self _

theorem combine_emptied_append {g s : Global} {src dst : Nat} (h : src ≠ dst)
    (he : abtstCombineStreams g src dst = .ok s) {cores : List Nat} (hd : dst ∉ cores)
    (hc : ∀ c ∈ cores, (g.streams c).used = true → Emptied g c) :
    ∀ c ∈ cores ++ [src], (s.streams c).used = true → Emptied s c := by
  intro c hm hu
  by_cases hcs : c = src
  · subst hcs
    exact combine_emptied h he
  · have hm : c ∈ cores := by simpa [hcs] using hm
    have hsame := combine_other h he hcs (fun hcd => hd (hcd ▸ hm))
    unfold Emptied
    rw [hsame] at hu ⊢
    exact hc c hm hu

structure Ends (g : Global) (src dst : Nat) : Prop where
  ne : src ≠ dst
  used_src : (g.streams src).used = true
  used_dst : (g.streams dst).used = true
  partId : (g.streams src).partId = (g.streams dst).partId

theorem Ends.of_shape {g s : Global} {src dst : Nat} (h : Ends g src dst) (hs : SameShape g s) :
    Ends s src dst :=
  ⟨h.ne, by rw [hs.used, h.used_src], by rw [hs.used, h.used_dst],
    by rw [hs.partId, hs.partId, h.partId]⟩

def SameNuma (cfg : Config) (src dst : Nat) : Prop :=
  ∃ n < cfg.nrNumas, src ∈ cfg.coresOf n ∧ dst ∈ cfg.coresOf n

/-- Loads leave a node only at level 3, and only for a node that is awake. -/
def CrossNuma (cfg : Config) (g : Global) (src dst : Nat) : Prop :=
  3 ≤ g.rebalance.rebalanceLevel ∧ ∃ m < cfg.nrNumas, ∃ n < cfg.nrNumas, m ≠ n ∧
    src ∈ cfg.coresOf m ∧ dst ∈ cfg.coresOf n ∧ g.power.psState n = false

end AbtSt
