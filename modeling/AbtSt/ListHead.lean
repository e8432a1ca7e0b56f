import Mathlib.Data.List.Nodup
import Mathlib.Logic.Function.Basic

/-! Circular doubly linked lists in memory, with the operations of the kernel's
list header. A ring is a head whose links pass through a list of other nodes and
come back. -/

namespace AbtSt

structure ListNode where
  next : Nat
  prev : Nat
  deriving DecidableEq

abbrev ListMem := Nat → ListNode

namespace ListMem

def setNext (m : ListMem) (a v : Nat) : ListMem := Function.update m a { m a with next := v }

def setPrev (m : ListMem) (a v : Nat) : ListMem := Function.update m a { m a with prev := v }

@[simp] theorem setNext_next (m : ListMem) (a v c : Nat) :
    (m.setNext a v c).next = if c = a then v else (m c).next := by
  by_cases h : c = a
  · simp [setNext, h]
  · simp [setNext, h]

@[simp] theorem setNext_prev (m : ListMem) (a v c : Nat) :
    (m.setNext a v c).prev = (m c).prev := by
  by_cases h : c = a
  · simp [setNext, h]
  · simp [setNext, h]

@[simp] theorem setPrev_next (m : ListMem) (a v c : Nat) :
    (m.setPrev a v c).next = (m c).next := by
  by_cases h : c = a
  · simp [setPrev, h]
  · simp [setPrev, h]

@[simp] theorem setPrev_prev (m : ListMem) (a v c : Nat) :
    (m.setPrev a v c).prev = if c = a then v else (m c).prev := by
  by_cases h : c = a
  · simp [setPrev, h]
  · simp [setPrev, h]

end ListMem

def listPoison1 : Nat := 0x00100100
def listPoison2 : Nat := 0x00200200

def initListHead (a : Nat) (m : ListMem) : ListMem := (m.setNext a a).setPrev a a

/-- `__list_add` -/
def listInsert (new prev next : Nat) (m : ListMem) : ListMem :=
  (((m.setPrev next new).setNext new next).setPrev new prev).setNext prev new

def listAdd (new head : Nat) (m : ListMem) : ListMem := listInsert new head (m head).next m

def listAddTail (new head : Nat) (m : ListMem) : ListMem := listInsert new (m head).prev head m

/-- `__list_del` -/
def listUnlink (prev next : Nat) (m : ListMem) : ListMem := (m.setPrev next prev).setNext prev next

def listDel (entry : Nat) (m : ListMem) : ListMem :=
  ((listUnlink (m entry).prev (m entry).next m).setNext entry listPoison1).setPrev entry listPoison2

def listDelInit (entry : Nat) (m : ListMem) : ListMem :=
  initListHead entry (listUnlink (m entry).prev (m entry).next m)

/-- `list_for_each_safe` over a body that leaves the links alone and tells whether
to leave the loop; `none` when it has not ended after `fuel` turns. -/
def listForEachSafe {σ : Type} (m : ListMem) (head : Nat) (body : Nat → σ → σ × Bool) :
    Nat → Nat → Nat → σ → Option σ
  | 0, _, _, _ => none
  | fuel + 1, pos, n, s =>
    if pos = head then some s
    else
      let r := body pos s
      if r.2 then some r.1 else listForEachSafe m head body fuel n (m n).next r.1

/-- The same loop over the entries of a list. -/
def walk {α σ : Type} (body : α → σ → σ × Bool) : List α → σ → σ
  | [], s => s
  | x :: xs, s =>
    let r := body x s
    if r.2 then r.1 else walk body xs r.1

/-- The links from `a` through `xs` to `b`, and back. -/
def Seg (m : ListMem) (a : Nat) : List Nat → Nat → Prop
  | [], b => (m a).next = b ∧ (m b).prev = a
  | x :: xs, b => (m a).next = x ∧ (m x).prev = a ∧ Seg m x xs b

structure Ring (m : ListMem) (head : Nat) (xs : List Nat) : Prop where
  seg : Seg m head xs head
  nodup : (head :: xs).Nodup

section Seg

variable {m m' : ListMem} {a b : Nat} {xs : List Nat}

theorem seg_append {x : Nat} {ys : List Nat} :
    Seg m a (xs ++ x :: ys) b ↔ Seg m a xs x ∧ Seg m x ys b := by
  induction xs generalizing a with
  | nil => simp [Seg, and_assoc]
  | cons y xs ih => simp [Seg, ih, and_assoc]

theorem Seg.prev_mem (h : Seg m a xs b) : (m b).prev ∈ a :: xs := by
  induction xs generalizing a with
  | nil => simp [h.2]
  | cons x xs ih => exact List.mem_cons_of_mem a (ih h.2.2)

theorem Seg.next_eq (h : Seg m a xs b) : (m a).next = xs.headD b := by
  cases xs with
  | nil => exact h.1
  | cons x xs => exact h.1

theorem Seg.congr (h : Seg m a xs b) (hnext : ∀ c ∈ a :: xs, (m' c).next = (m c).next)
    (hprev : ∀ c ∈ xs ++ [b], (m' c).prev = (m c).prev) : Seg m' a xs b := by
  induction xs generalizing a with
  | nil =>
    obtain ⟨hab, hba⟩ := h
    exact ⟨(hnext a (by simp)).trans hab, (hprev b (by simp)).trans hba⟩
  | cons x xs ih =>
    obtain ⟨hax, hxa, hx⟩ := h
    refine ⟨(hnext a (by simp)).trans hax, (hprev x (by simp)).trans hxa, ih hx ?_ ?_⟩
    · exact fun c hc => hnext c (List.mem_cons_of_mem a hc)
    · exact fun c hc => hprev c (List.mem_cons_of_mem x hc)

theorem Seg.retarget {b' : Nat} (h : Seg m a xs b) (hnd : (a :: xs).Nodup)
    (hnext : ∀ c ∈ a :: xs, c ≠ (m b).prev → (m' c).next = (m c).next)
    (hprev : ∀ c ∈ xs, (m' c).prev = (m c).prev) (hlast : (m' (m b).prev).next = b')
    (hb : (m' b').prev = (m b).prev) : Seg m' a xs b' := by
  induction xs generalizing a with
  | nil =>
    obtain ⟨_, hba⟩ := h
    rw [hba] at hlast hb
    exact ⟨hlast, hb⟩
  | cons x xs ih =>
    obtain ⟨hax, hxa, hx⟩ := h
    obtain ⟨ha, hnd⟩ := List.nodup_cons.mp hnd
    have hne : a ≠ (m b).prev := fun he => ha (he ▸ hx.prev_mem)
    refine ⟨(hnext a (by simp) hne).trans hax, (hprev x (by simp)).trans hxa, ih hx hnd ?_ ?_⟩
    · exact fun c hc => hnext c (List.mem_cons_of_mem a hc)
    · exact fun c hc => hprev c (List.mem_cons_of_mem x hc)

end Seg

section Ring

variable {m m' : ListMem} {head : Nat} {xs : List Nat}

theorem Ring.init (head : Nat) (m : ListMem) : Ring (initListHead head m) head [] :=
  ⟨by simp [Seg, initListHead], by simp⟩

theorem Ring.congr (h : Ring m head xs) (heq : ∀ c ∈ head :: xs, m' c = m c) : Ring m' head xs := by
  refine ⟨h.seg.congr (fun c hc => by rw [heq c hc]) (fun c hc => ?_), h.nodup⟩
  rw [heq c (by simpa [or_comm] using hc)]

theorem Ring.next_head (h : Ring m head xs) : (m head).next = xs.headD head := h.seg.next_eq

theorem Ring.next_first {x : Nat} (h : Ring m head (x :: xs)) : (m x).next = xs.headD head :=
  h.seg.2.2.next_eq

theorem initListHead_other {a c : Nat} (m : ListMem) (h : c ≠ a) : initListHead a m c = m c := by
  simp [initListHead, ListMem.setNext, ListMem.setPrev, h]

theorem Ring.unique {ys : List Nat} (h : Ring m head xs) (h' : Ring m head ys) : xs = ys := by
  have hseg : ∀ (xs ys : List Nat) (a : Nat), head ∉ xs → head ∉ ys → Seg m a xs head →
      Seg m a ys head → xs = ys := by
    intro xs
    induction xs with
    | nil =>
      intro ys a _ hys h h'
      cases ys with
      | nil => rfl
      | cons y ys =>
        have hy : head = y := h.1.symm.trans h'.1
        exact absurd (by simp [hy]) hys
    | cons x xs ih =>
      intro ys a hxs hys h h'
      cases ys with
      | nil =>
        have hx : head = x := h'.1.symm.trans h.1
        exact absurd (by simp [hx]) hxs
      | cons y ys =>
        obtain rfl : x = y := h.1.symm.trans h'.1
        rw [ih ys x (fun hm => hxs (by simp [hm])) (fun hm => hys (by simp [hm])) h.2.2 h'.2.2]
  exact hseg xs ys head (List.nodup_cons.mp h.nodup).1 (List.nodup_cons.mp h'.nodup).1 h.seg h'.seg

theorem Ring.addTail {a : Nat} (h : Ring m head xs) (ha : a ∉ head :: xs) :
    Ring (listAddTail a head m) head (xs ++ [a]) := by
  have hp := h.seg.prev_mem
  have hpa : (m head).prev ≠ a := fun he => ha (he ▸ hp)
  have hah : head ≠ a := fun he => ha (by simp [he])
  obtain ⟨hhead, _⟩ := List.nodup_cons.mp h.nodup
  refine ⟨seg_append.mpr ⟨h.seg.retarget h.nodup ?_ ?_ ?_ ?_, ?_, ?_⟩, ?_⟩
  · intro c hc hcp
    have hca : c ≠ a := fun he => ha (he ▸ hc)
    simp [listAddTail, listInsert, hcp, hca]
  · intro c hc
    have hca : c ≠ a := fun he => ha (he ▸ List.mem_cons_of_mem head hc)
    have hch : c ≠ head := fun he => hhead (he ▸ hc)
    simp [listAddTail, listInsert, hca, hch]
  · simp [listAddTail, listInsert]
  · simp [listAddTail, listInsert]
  · simp [listAddTail, listInsert, hpa.symm]
  · simp [listAddTail, listInsert, hah]
  · have hnd := h.nodup.append (List.nodup_singleton a) (by simpa using ha)
    simpa using hnd

theorem listDel_next (x c : Nat) (m : ListMem) : (listDel x m c).next =
    if c = x then listPoison1 else if c = (m x).prev then (m x).next else (m c).next := by
  simp [listDel, listUnlink]

theorem listDel_prev (x c : Nat) (m : ListMem) : (listDel x m c).prev =
    if c = x then listPoison2 else if c = (m x).next then (m x).prev else (m c).prev := by
  simp [listDel, listUnlink]

theorem Ring.del {x : Nat} {ys : List Nat} (h : Ring m head (xs ++ x :: ys)) :
    Ring (listDel x m) head (xs ++ ys) := by
  obtain ⟨hleft, hright⟩ := seg_append.mp h.seg
  have hp := hleft.prev_mem
  have hn := hright.next_eq
  have hnd : (head :: xs ++ x :: ys).Nodup := h.nodup
  have hsub : (head :: (xs ++ ys)).Sublist (head :: (xs ++ x :: ys)) :=
    ((List.sublist_cons_self x ys).append_left xs).cons_cons head
  obtain ⟨hl, hr, hdis⟩ := List.nodup_append.mp hnd
  have hx : ∀ c ∈ head :: xs, c ≠ x := fun c hc => hdis c hc x (by simp)
  have hxn : (m x).next ∉ xs := by
    rw [hn]
    cases ys with
    | nil => exact (List.nodup_cons.mp hl).1
    | cons y ys => exact fun hy => hdis y (List.mem_cons_of_mem head hy) y (by simp) rfl
  have hnx : (m x).next ≠ x := by
    rw [hn]
    cases ys with
    | nil => exact hx head (by simp)
    | cons y ys => exact fun he => (List.nodup_cons.mp hr).1 (List.mem_cons.mpr (Or.inl he.symm))
  -- the predecessor now leads to the successor
  have hfirst : Seg (listDel x m) head xs (m x).next := by
    refine hleft.retarget hl ?_ ?_ ?_ ?_
    · intro c hc hcp
      rw [listDel_next, if_neg (hx c hc), if_neg hcp]
    · intro c hc
      have hcn : c ≠ (m x).next := fun he => hxn (he ▸ hc)
      rw [listDel_prev, if_neg (hx c (List.mem_cons_of_mem head hc)), if_neg hcn]
    · rw [listDel_next, if_neg (hx _ hp), if_pos rfl]
    · rw [listDel_prev, if_neg hnx, if_pos rfl]
  refine ⟨?_, h.nodup.sublist hsub⟩
  cases ys with
  | nil =>
    rw [hn] at hfirst
    rw [List.append_nil]
    exact hfirst
  | cons y ys =>
    obtain ⟨hxy, hr⟩ := List.nodup_cons.mp hr
    obtain ⟨hys, _⟩ := List.nodup_cons.mp hr
    rw [hn] at hfirst
    refine seg_append.mpr ⟨hfirst, hright.2.2.congr ?_ ?_⟩
    · intro c hc
      have hcx : c ≠ x := fun he => hxy (he ▸ hc)
      have hcp : c ≠ (m x).prev := fun he => hdis _ hp c (List.mem_cons_of_mem x hc) he.symm
      rw [listDel_next, if_neg hcx, if_neg hcp]
    · intro c hc
      have hcx : c ≠ x ∧ c ≠ y := by
        rcases List.mem_append.mp hc with hc | hc
        · exact ⟨fun he => hxy (by simp [← he, hc]), fun he => hys (he ▸ hc)⟩
        · obtain rfl : c = head := by simpa using hc
          exact ⟨hx c (by simp), fun he => hdis c (by simp) y (by simp) he⟩
      rw [listDel_prev, hn, if_neg hcx.1]
      exact if_neg hcx.2

theorem listDelInit_other {x c : Nat} (m : ListMem) (h : c ≠ x) : listDelInit x m c = listDel x m c := by
  unfold listDelInit
  rw [initListHead_other _ h]
  simp [listDel, ListMem.setNext, ListMem.setPrev, h]

theorem Ring.delInit {x : Nat} {ys : List Nat} (h : Ring m head (xs ++ x :: ys)) :
    Ring (listDelInit x m) head (xs ++ ys) := by
  have hnd : (x :: (head :: (xs ++ ys))).Nodup := by
    have hperm : (head :: (xs ++ x :: ys)).Perm (x :: head :: (xs ++ ys)) :=
      (List.perm_middle.cons head).trans (.swap x head _)
    exact hperm.nodup_iff.mp h.nodup
  refine h.del.congr (fun c hc => listDelInit_other m ?_)
  rintro rfl
  exact (List.nodup_cons.mp hnd).1 hc

/-- An entry is unlinked by writes to itself and to its two neighbours. -/
theorem Ring.delInit_frame {x c : Nat} (h : Ring m head xs) (hx : x ∈ xs) (hc : c ∉ head :: xs) :
    listDelInit x m c = m c := by
  obtain ⟨pre, post, rfl⟩ := List.append_of_mem hx
  obtain ⟨hleft, hright⟩ := seg_append.mp h.seg
  have hp : c ≠ (m x).prev := by
    rintro rfl
    have hmem := hleft.prev_mem
    exact hc (by simp only [List.mem_cons, List.mem_append] at hmem ⊢; tauto)
  have hn : c ≠ (m x).next := by
    rw [hright.next_eq]
    rintro rfl
    cases post with
    | nil => exact hc (by simp)
    | cons y post => exact hc (by simp)
  have hcx : c ≠ x := fun he => hc (by simp [he])
  rw [listDelInit_other m hcx]
  simp [listDel, listUnlink, ListMem.setNext, ListMem.setPrev, hcx, hp, hn]

theorem Ring.add {a : Nat} (h : Ring m head xs) (ha : a ∉ head :: xs) :
    Ring (listAdd a head m) head (a :: xs) := by
  have hah : head ≠ a := fun he => ha (by simp [he])
  have hnd : (head :: a :: xs).Nodup :=
    (List.Perm.swap a head xs).nodup_iff.mpr (List.nodup_cons.mpr ⟨ha, h.nodup⟩)
  have hnext := h.next_head
  refine ⟨⟨?_, ?_, ?_⟩, hnd⟩
  · simp [listAdd, listInsert]
  · simp [listAdd, listInsert]
  · cases xs with
    | nil =>
      have hself : (m head).next = head := hnext
      simp [Seg, listAdd, listInsert, hself, hah, hah.symm]
    | cons x xs =>
      obtain ⟨hhead, hx⟩ := List.nodup_cons.mp h.nodup
      have hfirst : (m head).next = x := hnext
      have hxa : x ≠ a := fun he => ha (by simp [he])
      have hxh : x ≠ head := fun he => hhead (by simp [he])
      refine ⟨?_, ?_, h.seg.2.2.congr ?_ ?_⟩
      · simp [listAdd, listInsert, hfirst, hah.symm]
      · simp [listAdd, listInsert, hfirst, hxa]
      · intro c hc
        have hca : c ≠ a := fun he => ha (he ▸ List.mem_cons_of_mem head hc)
        have hch : c ≠ head := fun he => hhead (he ▸ hc)
        simp [listAdd, listInsert, hca, hch]
      · intro c hc
        have hcx : c ≠ x := by
          rintro rfl
          rcases List.mem_append.mp hc with hc | hc
          · exact (List.nodup_cons.mp hx).1 hc
          · exact hxh (by simpa using hc)
        have hca : c ≠ a := by
          rintro rfl
          refine ha ?_
          rcases List.mem_append.mp hc with hc | hc
          · simp [hc]
          · simpa using Or.inl (List.mem_singleton.mp hc)
        simp [listAdd, listInsert, hfirst, hcx, hca]

/-- An entry is put in front by writes to itself, to the head and to the first entry. -/
theorem Ring.add_frame {a c : Nat} (h : Ring m head xs) (hca : c ≠ a) (hc : c ∉ head :: xs) :
    listAdd a head m c = m c := by
  have hch : c ≠ head := fun he => hc (by simp [he])
  have hn : c ≠ (m head).next := by
    rw [h.next_head]
    rintro rfl
    cases xs with
    | nil => exact hc (by simp)
    | cons x xs => exact hc (by simp)
  simp [listAdd, listInsert, ListMem.setNext, ListMem.setPrev, hca, hch, hn]

theorem Ring.walk_rest {σ : Type} (body : Nat → σ → σ × Bool) {post : List Nat} :
    ∀ {pre : List Nat} {fuel : Nat} {s : σ} {n : Nat}, Ring m head (pre ++ post) → post.length < fuel →
      (∀ y ys, post = y :: ys → n = ys.headD head) →
      listForEachSafe m head body fuel (post.headD head) n s = some (walk body post s) := by
  induction post with
  | nil =>
    intro pre fuel s n _ hfuel _
    cases fuel with
    | zero => exact absurd hfuel (Nat.not_lt_zero _)
    | succ fuel => simp [listForEachSafe, walk]
  | cons y ys ih =>
    intro pre fuel s n h hfuel hn
    cases fuel with
    | zero => exact absurd hfuel (Nat.not_lt_zero _)
    | succ fuel =>
      have hyh : y ≠ head := by
        rintro rfl
        exact (List.nodup_cons.mp h.nodup).1 (by simp)
      have hnext := hn y ys rfl
      rw [List.headD_cons, listForEachSafe, if_neg hyh, walk]
      dsimp only
      by_cases hbreak : (body y s).2 = true
      · rw [if_pos hbreak, if_pos hbreak]
      · rw [if_neg hbreak, if_neg hbreak, hnext]
        have hrest : Ring m head (pre ++ [y] ++ ys) := by simpa using h
        refine ih hrest (by simpa using hfuel) ?_
        rintro z zs rfl
        have hz : Ring m head ((pre ++ [y]) ++ z :: zs) := hrest
        exact (seg_append.mp hz.seg).2.next_eq

/-- A traversal of a ring ends and visits the entries in their order. -/
theorem Ring.forEachSafe {σ : Type} (h : Ring m head xs) (body : Nat → σ → σ × Bool) {fuel : Nat}
    (hfuel : xs.length < fuel) (s : σ) :
    listForEachSafe m head body fuel (m head).next (m (m head).next).next s = some (walk body xs s) := by
  rw [h.next_head]
  have hrest : Ring m head ([] ++ xs) := h
  refine hrest.walk_rest body hfuel ?_
  rintro y ys rfl
  exact h.next_first

end Ring

end AbtSt
