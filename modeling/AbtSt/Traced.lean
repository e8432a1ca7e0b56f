import Mathlib.Logic.Relation
import Mathlib.Data.List.Basic

/-! Programs over a logged state. Every visible action appends its label and
the state it leaves to a log, which survives a fault. `Follows` is a Hoare
triple that also bounds what may be appended to the log. -/

namespace AbtSt

theorem except_bind_eq_ok {ε α β : Type} {x : Except ε α} {f : α → Except ε β} {b : β} :
    x >>= f = .ok b ↔ ∃ a, x = .ok a ∧ f a = .ok b := by
  cases x with
  | error e => simp [bind, Except.bind]
  | ok a => simp [bind, Except.bind]

theorem except_bind_eq_error {ε α β : Type} {x : Except ε α} {f : α → Except ε β} {e : ε} :
    x >>= f = .error e ↔ x = .error e ∨ ∃ a, x = .ok a ∧ f a = .error e := by
  cases x with
  | error e => simp [bind, Except.bind]
  | ok a => simp [bind, Except.bind]

theorem findM?_ok {ε α : Type} {p : α → Except ε Bool} {l : List α} {x : α}
    (h : l.findM? p = .ok (some x)) : x ∈ l ∧ p x = .ok true := by
  induction l with
  | nil => cases h
  | cons y l ih =>
    rw [List.findM?] at h
    obtain ⟨b, hb, h⟩ := except_bind_eq_ok.mp h
    cases b with
    | true =>
      obtain rfl : y = x := by simpa using Except.ok.inj h
      exact ⟨by simp, hb⟩
    | false => exact ⟨List.mem_cons_of_mem _ (ih h).1, (ih h).2⟩

theorem findM?_error {ε α : Type} {p : α → Except ε Bool} {l : List α} {e : ε}
    (h : l.findM? p = .error e) : ∃ x ∈ l, p x = .error e := by
  induction l with
  | nil => cases h
  | cons y l ih =>
    rw [List.findM?] at h
    rcases except_bind_eq_error.mp h with h | ⟨b, _, h⟩
    · exact ⟨y, by simp, h⟩
    · cases b with
      | true => cases h
      | false =>
        obtain ⟨x, hx, he⟩ := ih h
        exact ⟨x, List.mem_cons_of_mem _ hx, he⟩

theorem findM?_none {ε α : Type} {p : α → Except ε Bool} {l : List α} (h : l.findM? p = .ok none) :
    ∀ x ∈ l, p x = .ok false := by
  induction l with
  | nil => simp
  | cons y l ih =>
    rw [List.findM?] at h
    obtain ⟨b, hb, h⟩ := except_bind_eq_ok.mp h
    cases b with
    | true => cases Except.ok.inj h
    | false =>
      intro x hx
      rcases List.mem_cons.mp hx with rfl | hx
      · exact hb
      · exact ih h x hx

theorem not_mem_of_split {α : Type} {l pre post : List α} {x : α} (hnd : l.Nodup)
    (hl : l = pre ++ x :: post) : x ∉ pre := by
  rw [hl] at hnd
  exact fun hmem => (List.nodup_append.mp hnd).2.2 x hmem x List.mem_cons_self rfl

theorem mapM_map_eq {ε α β : Type} {f : α → Except ε β} {k : β → α}
    (hk : ∀ a b, f a = .ok b → k b = a) {l : List α} {r : List β} (h : l.mapM f = .ok r) :
    r.map k = l := by
  induction l generalizing r with
  | nil =>
    obtain rfl : [] = r := by simpa using Except.ok.inj h
    rfl
  | cons a l ih =>
    rw [List.mapM_cons] at h
    obtain ⟨b, hb, h⟩ := except_bind_eq_ok.mp h
    obtain ⟨bs, hbs, h⟩ := except_bind_eq_ok.mp h
    obtain rfl : b :: bs = r := by simpa using Except.ok.inj h
    rw [List.map_cons, hk a b hb, ih hbs]

theorem mapM_ok {ε α β : Type} {f : α → Except ε β} {l : List α} {r : List β}
    (h : l.mapM f = .ok r) : ∀ a ∈ l, ∃ b, f a = .ok b := by
  induction l generalizing r with
  | nil => simp
  | cons a l ih =>
    rw [List.mapM_cons] at h
    obtain ⟨b, hb, h⟩ := except_bind_eq_ok.mp h
    obtain ⟨bs, hbs, -⟩ := except_bind_eq_ok.mp h
    intro x hx
    rcases List.mem_cons.mp hx with rfl | hx
    · exact ⟨b, hb⟩
    · exact ih hbs x hx

theorem mapM_error {ε α β : Type} {f : α → Except ε β} {l : List α} {e : ε}
    (h : l.mapM f = .error e) : ∃ a ∈ l, f a = .error e := by
  induction l with
  | nil => cases h
  | cons a l ih =>
    rw [List.mapM_cons] at h
    rcases except_bind_eq_error.mp h with h | ⟨b, _, h⟩
    · exact ⟨a, by simp, h⟩
    · rcases except_bind_eq_error.mp h with h | ⟨bs, _, h⟩
      · obtain ⟨x, hx, he⟩ := ih h
        exact ⟨x, List.mem_cons_of_mem _ hx, he⟩
      · cases h

structure Traced (ι σ : Type) where
  st : σ
  log : List (ι × σ)

abbrev Prog (ι ε σ : Type) := EStateM ε (Traced ι σ)

namespace Prog

variable {ι ε σ α β : Type}

def read : Prog ι ε σ σ := fun r => .ok r.st r

def act (a : ι) (f : σ → σ) : Prog ι ε σ Unit :=
  fun r => .ok () ⟨f r.st, r.log ++ [(a, f r.st)]⟩

def perform (a : ι) (f : σ → Except ε σ) : Prog ι ε σ Unit := fun r =>
  match f r.st with
  | .ok s => .ok () ⟨s, r.log ++ [(a, s)]⟩
  | .error e => .error e r

def lift : Except ε α → Prog ι ε σ α
  | .ok a => fun r => .ok a r
  | .error e => fun r => .error e r

def onlyIf (c : Prop) [Decidable c] (m : Prog ι ε σ Unit) : Prog ι ε σ Unit :=
  if c then m else pure ()

def exec (m : Prog ι ε σ α) (r : Traced ι σ) : Traced ι σ :=
  match m r with
  | .ok _ r => r
  | .error _ r => r

def run (m : Prog ι ε σ α) (s : σ) : Traced ι σ := m.exec ⟨s, []⟩

def fault (m : Prog ι ε σ α) (s : σ) : Option ε :=
  match m ⟨s, []⟩ with
  | .ok _ _ => none
  | .error e _ => some e

theorem exec_pure (a : α) (r : Traced ι σ) : exec (pure a : Prog ι ε σ α) r = r := rfl

theorem exec_read_bind (k : σ → Prog ι ε σ α) (r : Traced ι σ) :
    exec (read >>= k) r = exec (k r.st) r := rfl

theorem exec_act (a : ι) (f : σ → σ) (r : Traced ι σ) :
    exec (act a f : Prog ι ε σ Unit) r = ⟨f r.st, r.log ++ [(a, f r.st)]⟩ := rfl

theorem exec_act_bind (a : ι) (f : σ → σ) (k : Unit → Prog ι ε σ α) (r : Traced ι σ) :
    exec (act a f >>= k) r = exec (k ()) ⟨f r.st, r.log ++ [(a, f r.st)]⟩ := rfl

theorem exec_lift_ok_bind (a : α) (k : α → Prog ι ε σ β) (r : Traced ι σ) :
    exec (lift (.ok a) >>= k) r = exec (k a) r := rfl

theorem exec_lift_error_bind (e : ε) (k : α → Prog ι ε σ β) (r : Traced ι σ) :
    exec (lift (.error e) >>= k) r = r := rfl

theorem exec_perform_ok_bind {a : ι} {f : σ → Except ε σ} {r : Traced ι σ} {s : σ}
    (h : f r.st = .ok s) (k : Unit → Prog ι ε σ α) :
    exec (perform a f >>= k) r = exec (k ()) ⟨s, r.log ++ [(a, s)]⟩ := by
  change (match (EStateM.bind (perform a f) k) r with | .ok _ r => r | .error _ r => r) = _
  simp only [EStateM.bind, perform, h]
  rfl

theorem exec_perform_error_bind {a : ι} {f : σ → Except ε σ} {r : Traced ι σ} {e : ε}
    (h : f r.st = .error e) (k : Unit → Prog ι ε σ α) :
    exec (perform a f >>= k) r = r := by
  change (match (EStateM.bind (perform a f) k) r with | .ok _ r => r | .error _ r => r) = _
  simp only [EStateM.bind, perform, h]
end Prog

/-- A log is a path when each entry is a step from the entry before it. -/
inductive Path {ι σ : Type} (Step : ι → σ → σ → Prop) : σ → List (ι × σ) → σ → Prop
  | nil (s : σ) : Path Step s [] s
  | cons {a : ι} {s t u : σ} {l : List (ι × σ)} :
      Step a s t → Path Step t l u → Path Step s ((a, t) :: l) u

namespace Path

variable {ι σ : Type} {Step : ι → σ → σ → Prop}

theorem append {s t u : σ} {l l' : List (ι × σ)}
    (h : Path Step s l t) (h' : Path Step t l' u) : Path Step s (l ++ l') u := by
  induction h with
  | nil s => exact h'
  | cons hs _ ih => exact .cons hs (ih h')

theorem single {a : ι} {s t : σ} (h : Step a s t) : Path Step s [(a, t)] t :=
  .cons h (.nil t)

theorem invariant {I : σ → Prop} (hI : ∀ a s t, Step a s t → I s → I t)
    {s u : σ} {l : List (ι × σ)} (h : Path Step s l u) (hs : I s) :
    (∀ e ∈ l, I e.2) ∧ I u := by
  induction h with
  | nil s => exact ⟨by simp, hs⟩
  | cons hst _ ih =>
    have hh := ih (hI _ _ _ hst hs)
    refine ⟨?_, hh.2⟩
    intro e he
    rcases List.mem_cons.mp he with rfl | he
    · exact hI _ _ _ hst hs
    · exact hh.1 e he

theorem mono {Step' : ι → σ → σ → Prop} {s u : σ} {l : List (ι × σ)} (h : Path Step s l u)
    (hstep : ∀ a s t, a ∈ l.map Prod.fst → Step a s t → Step' a s t) : Path Step' s l u := by
  induction h with
  | nil s => exact .nil s
  | cons hst _ ih =>
    refine .cons (hstep _ _ _ (by simp) hst) (ih (fun a s t ha => hstep a s t ?_))
    exact List.mem_cons_of_mem _ ha

theorem and {Step' : ι → σ → σ → Prop} {s u : σ} {l : List (ι × σ)} (h : Path Step s l u)
    (h' : Path Step' s l u) : Path (fun a s t => Step a s t ∧ Step' a s t) s l u := by
  induction h with
  | nil s => exact .nil s
  | cons hst _ ih =>
    cases h' with
    | cons hst' hp' => exact .cons ⟨hst, hst'⟩ (ih hp')

theorem refine {Step' : ι → σ → σ → Prop} {I : σ → Prop} {s u : σ} {l : List (ι × σ)}
    (h : Path Step s l u) (hs : I s)
    (hstep : ∀ a s t, a ∈ l.map Prod.fst → Step a s t → I s → I t ∧ Step' a s t) : Path Step' s l u := by
  induction h with
  | nil s => exact .nil s
  | cons hst _ ih =>
    obtain ⟨ht, hst'⟩ := hstep _ _ _ (by simp) hst hs
    exact .cons hst' (ih ht (fun a s t ha => hstep a s t (List.mem_cons_of_mem _ ha)))

theorem exists_step {I : σ → Prop} (hI : ∀ a s t, Step a s t → I s → I t)
    {s u : σ} {l : List (ι × σ)} (h : Path Step s l u) (hs : I s) :
    ∀ e ∈ l, ∃ t, I t ∧ Step e.1 t e.2 := by
  induction h with
  | nil s => simp
  | cons hst _ ih =>
    intro e he
    rcases List.mem_cons.mp he with rfl | he
    · exact ⟨_, hs, hst⟩
    · exact ih (hI _ _ _ hst hs) e he

/-- A relation that every step keeps, matched by a step with the same label, is kept
along a path. -/
theorem simulate {τ : Type} {Step' : ι → τ → τ → Prop} {I : σ → Prop} {R : τ → σ → Prop}
    (hI : ∀ a s t, Step a s t → I s → I t)
    (hsim : ∀ a s t s', Step a s t → I s → R s' s → ∃ t', Step' a s' t' ∧ R t' t)
    {s u : σ} {l : List (ι × σ)} (h : Path Step s l u) :
    ∀ {s' : τ}, I s → R s' s → ∃ l' u', Path Step' s' l' u' ∧ R u' u ∧
      List.Forall₂ (fun e' e => e'.1 = e.1 ∧ R e'.2 e.2) l' l := by
  induction h with
  | nil s => exact fun _ hr => ⟨[], _, .nil _, hr, .nil⟩
  | @cons a s t u l hst _ ih =>
    intro s' hs hr
    obtain ⟨t', hst', hr'⟩ := hsim _ _ _ _ hst hs hr
    obtain ⟨l', u', hp, hu, hl⟩ := ih (hI _ _ _ hst hs) hr'
    exact ⟨(a, t') :: l', u', .cons hst' hp, hu, .cons ⟨rfl, hr'⟩ hl⟩

/-- Along a path a measure that no step raises bounds the steps that lower it. -/
theorem countP_le {lowers : ι × σ → Bool} {φ : σ → Nat} {I : σ → Prop}
    (hI : ∀ a s t, Step a s t → I s → I t)
    (hφ : ∀ a s t, Step a s t → I s → φ t + (if lowers (a, t) then 1 else 0) ≤ φ s)
    {s u : σ} {l : List (ι × σ)} (h : Path Step s l u) (hs : I s) : l.countP lowers + φ u ≤ φ s := by
  induction h with
  | nil s => simp
  | cons hst _ ih =>
    have hone := hφ _ _ _ hst hs
    have hrest := ih (hI _ _ _ hst hs)
    rw [List.countP_cons]
    omega

end Path

/-- The state that a step function reaches on a sequence of labels. -/
def replay {ι σ : Type} (step : ι → σ → Option σ) : List ι → σ → Option σ
  | [], s => some s
  | a :: as, s => (step a s).bind (replay step as)

theorem replay_path {ι σ : Type} {step : ι → σ → Option σ} {as : List ι} {s t : σ}
    (h : replay step as s = some t) :
    ∃ log, log.map Prod.fst = as ∧ Path (fun a s t => step a s = some t) s log t := by
  induction as generalizing s with
  | nil =>
    obtain rfl : s = t := Option.some.inj h
    exact ⟨[], rfl, .nil s⟩
  | cons a as ih =>
    obtain ⟨u, hu, hrest⟩ := Option.bind_eq_some_iff.mp h
    obtain ⟨log, hlog, hp⟩ := ih hrest
    exact ⟨(a, u) :: log, by rw [List.map_cons, hlog], .cons hu hp⟩

variable {ι ε σ α β : Type}

/-- From a state in `P` the program extends the log by a path of `Step`; it
ends in `Q`, or faults in `E`. -/
def Follows (Step : ι → σ → σ → Prop) (P : σ → Prop) (m : Prog ι ε σ α)
    (Q : α → σ → Prop) (E : ε → σ → Prop) : Prop :=
  ∀ r : Traced ι σ, P r.st →
    match m r with
    | .ok a r' => (∃ l, r'.log = r.log ++ l ∧ Path Step r.st l r'.st) ∧ Q a r'.st
    | .error e r' => (∃ l, r'.log = r.log ++ l ∧ Path Step r.st l r'.st) ∧ E e r'.st

namespace Follows

variable {Step : ι → σ → σ → Prop} {P P' : σ → Prop} {Q Q' : α → σ → Prop}
  {R : β → σ → Prop} {E : ε → σ → Prop}

theorem pure {a : α} (h : ∀ s, P s → Q a s) : Follows Step P (pure a : Prog ι ε σ α) Q E :=
  fun r hr => ⟨⟨[], by simp, .nil _⟩, h r.st hr⟩

theorem act {a : ι} {f : σ → σ} {Q : Unit → σ → Prop}
    (h : ∀ s, P s → Step a s (f s) ∧ Q () (f s)) :
    Follows Step P (Prog.act a f : Prog ι ε σ Unit) Q E :=
  fun r hr => ⟨⟨[(a, f r.st)], rfl, .single (h r.st hr).1⟩, (h r.st hr).2⟩

theorem perform {a : ι} {f : σ → Except ε σ} {Q : Unit → σ → Prop}
    (hok : ∀ s t, P s → f s = .ok t → Step a s t ∧ Q () t)
    (herr : ∀ s e, P s → f s = .error e → E e s) :
    Follows Step P (Prog.perform a f) Q E := by
  intro r hr
  unfold Prog.perform
  cases hf : f r.st with
  | ok t => exact ⟨⟨[(a, t)], rfl, .single (hok _ _ hr hf).1⟩, (hok _ _ hr hf).2⟩
  | error e => exact ⟨⟨[], by simp, .nil _⟩, herr _ _ hr hf⟩

theorem bind {m : Prog ι ε σ α} {f : α → Prog ι ε σ β}
    (hm : Follows Step P m Q E) (hf : ∀ a, Follows Step (Q a) (f a) R E) :
    Follows Step P (m >>= f) R E := by
  intro r hr
  have h := hm r hr
  change match (EStateM.bind m f) r with
    | .ok a r' => _
    | .error e r' => _
  unfold EStateM.bind
  cases he : m r with
  | error e r' => simpa only [he] using h
  | ok a r' =>
    simp only [he] at h
    obtain ⟨⟨l, hl, hp⟩, hq⟩ := h
    have h' := hf a r' hq
    cases hf' : f a r' with
    | error e r'' =>
      simp only [hf'] at h' ⊢
      obtain ⟨⟨l', hl', hp'⟩, he'⟩ := h'
      exact ⟨⟨l ++ l', by rw [hl', hl, List.append_assoc], hp.append hp'⟩, he'⟩
    | ok b r'' =>
      simp only [hf'] at h' ⊢
      obtain ⟨⟨l', hl', hp'⟩, hq'⟩ := h'
      exact ⟨⟨l ++ l', by rw [hl', hl, List.append_assoc], hp.append hp'⟩, hq'⟩

theorem read_bind {f : σ → Prog ι ε σ β}
    (h : ∀ s, P s → Follows Step (fun t => t = s) (f s) R E) :
    Follows Step P (Prog.read >>= f) R E :=
  fun r hr => h r.st hr r rfl

theorem lift_bind {e : Except ε α} {f : α → Prog ι ε σ β}
    (herr : ∀ x, e = .error x → ∀ s, P s → E x s)
    (hok : ∀ a, e = .ok a → Follows Step P (f a) R E) :
    Follows Step P (Prog.lift e >>= f) R E := by
  cases e with
  | ok a => exact hok a rfl
  | error x => exact fun r hr => ⟨⟨[], by simp, .nil _⟩, herr x rfl r.st hr⟩

theorem lift {e : Except ε α} (herr : ∀ x, e = .error x → ∀ s, P s → E x s)
    (hok : ∀ a, e = .ok a → ∀ s, P s → Q a s) : Follows Step P (Prog.lift e) Q E := by
  cases e with
  | ok a => exact fun r hr => ⟨⟨[], by simp, .nil _⟩, hok a rfl r.st hr⟩
  | error x => exact fun r hr => ⟨⟨[], by simp, .nil _⟩, herr x rfl r.st hr⟩

theorem mono {m : Prog ι ε σ α} (h : Follows Step P m Q E)
    (hP : ∀ s, P' s → P s) (hQ : ∀ a s, Q a s → Q' a s) : Follows Step P' m Q' E := by
  intro r hr
  have h' := h r (hP _ hr)
  cases hm : m r with
  | ok a r' =>
    simp only [hm] at h' ⊢
    exact ⟨h'.1, hQ a _ h'.2⟩
  | error e r' => simpa only [hm] using h'

theorem post {m : Prog ι ε σ α} (h : Follows Step P m Q E)
    (hQ : ∀ a s, Q a s → Q' a s) : Follows Step P m Q' E :=
  h.mono (fun _ hs => hs) hQ

theorem pre {m : Prog ι ε σ α} (h : Follows Step P m Q E)
    (hP : ∀ s, P' s → P s) : Follows Step P' m Q E :=
  h.mono hP (fun _ _ hs => hs)

theorem onlyIf {c : Prop} [Decidable c] {m : Prog ι ε σ Unit} {R : Unit → σ → Prop}
    (h : c → Follows Step P m R E) (h' : ¬ c → ∀ s, P s → R () s) :
    Follows Step P (Prog.onlyIf c m) R E := by
  unfold Prog.onlyIf
  by_cases hc : c
  · rw [if_pos hc]
    exact h hc
  · rw [if_neg hc]
    exact pure (h' hc)

theorem faults {E' : ε → σ → Prop} {m : Prog ι ε σ α} (h : Follows Step P m Q E)
    (hE : ∀ e s, E e s → E' e s) : Follows Step P m Q E' := by
  intro r hr
  have h' := h r hr
  cases hm : m r with
  | ok a r' => simpa only [hm] using h'
  | error e r' =>
    simp only [hm] at h' ⊢
    exact ⟨h'.1, hE e _ h'.2⟩

theorem relax {Step' : ι → σ → σ → Prop} {m : Prog ι ε σ α} (h : Follows Step P m Q E)
    (hstep : ∀ a s t, Step a s t → Step' a s t) : Follows Step' P m Q E := by
  intro r hr
  have h' := h r hr
  cases hm : m r with
  | ok a r' =>
    simp only [hm] at h' ⊢
    obtain ⟨⟨l, hl, hp⟩, hq⟩ := h'
    exact ⟨⟨l, hl, hp.mono (fun a s t _ => hstep a s t)⟩, hq⟩
  | error e r' =>
    simp only [hm] at h' ⊢
    obtain ⟨⟨l, hl, hp⟩, he⟩ := h'
    exact ⟨⟨l, hl, hp.mono (fun a s t _ => hstep a s t)⟩, he⟩

theorem keep {I : σ → Prop} (hI : ∀ a s t, Step a s t → I s → I t)
    {m : Prog ι ε σ α} (h : Follows Step P m Q E) :
    Follows Step (fun s => P s ∧ I s) m (fun a s => Q a s ∧ I s) (fun e s => E e s ∧ I s) := by
  intro r hr
  have h' := h r hr.1
  cases hm : m r with
  | ok a r' =>
    simp only [hm] at h' ⊢
    obtain ⟨⟨l, hl, hp⟩, hq⟩ := h'
    exact ⟨⟨l, hl, hp⟩, hq, (hp.invariant hI hr.2).2⟩
  | error e r' =>
    simp only [hm] at h' ⊢
    obtain ⟨⟨l, hl, hp⟩, he⟩ := h'
    exact ⟨⟨l, hl, hp⟩, he, (hp.invariant hI hr.2).2⟩

theorem and_invariant {I : σ → Prop} (hI : ∀ a s t, Step a s t → I s → I t)
    {m : Prog ι ε σ α} (h : Follows Step P m Q E) :
    Follows Step (fun s => P s ∧ I s) m (fun a s => Q a s ∧ I s) E :=
  (h.keep hI).faults (fun _ _ he => he.1)

theorem and {Step' : ι → σ → σ → Prop} {m : Prog ι ε σ α} {E' : ε → σ → Prop}
    (h : Follows Step P m Q E) (h' : Follows Step' P m Q' E') :
    Follows (fun a s t => Step a s t ∧ Step' a s t) P m (fun a s => Q a s ∧ Q' a s)
      (fun e s => E e s ∧ E' e s) := by
  intro r hr
  have h₁ := h r hr
  have h₂ := h' r hr
  cases hm : m r with
  | ok a r' =>
    simp only [hm] at h₁ h₂ ⊢
    obtain ⟨⟨l, hl, hp⟩, hq⟩ := h₁
    obtain ⟨⟨l', hl', hp'⟩, hq'⟩ := h₂
    obtain rfl := List.append_cancel_left (hl.symm.trans hl')
    exact ⟨⟨l, hl, hp.and hp'⟩, hq, hq'⟩
  | error e r' =>
    simp only [hm] at h₁ h₂ ⊢
    obtain ⟨⟨l, hl, hp⟩, he⟩ := h₁
    obtain ⟨⟨l', hl', hp'⟩, he'⟩ := h₂
    obtain rfl := List.append_cancel_left (hl.symm.trans hl')
    exact ⟨⟨l, hl, hp.and hp'⟩, he, he'⟩

theorem forM {I : σ → Prop} {f : α → Prog ι ε σ PUnit} (l : List α)
    (h : ∀ x ∈ l, Follows Step I (f x) (fun _ => I) E) :
    Follows Step I (l.forM f) (fun _ => I) E := by
  induction l with
  | nil => exact pure (fun _ hs => hs)
  | cons x xs ih =>
    exact bind (h x (by simp)) (fun _ => ih (fun y hy => h y (by simp [hy])))

/-- Running a list of programs with an invariant that tells which of them ran. -/
theorem forM_prefix {J : List α → σ → Prop} {f : α → Prog ι ε σ PUnit} (l : List α)
    (h : ∀ pre x post, l = pre ++ x :: post →
      Follows Step (J pre) (f x) (fun _ => J (pre ++ [x])) E) :
    Follows Step (J []) (l.forM f) (fun _ => J l) E := by
  have hh : ∀ (post pre : List α), l = pre ++ post →
      Follows Step (J pre) (post.forM f) (fun _ => J l) E := by
    intro post
    induction post with
    | nil =>
      intro pre hl
      rw [List.append_nil] at hl
      subst hl
      exact pure (fun _ hs => hs)
    | cons x post ih =>
      intro pre hl
      exact bind (h pre x post hl) (fun _ => ih (pre ++ [x]) (by simpa using hl))
  exact hh l [] rfl

theorem path {m : Prog ι ε σ α} (h : Follows Step P m Q E) {s : σ} (hs : P s) :
    Path Step s (m.run s).log (m.run s).st := by
  have h' := h ⟨s, []⟩ hs
  unfold Prog.run Prog.exec
  cases hm : m ⟨s, []⟩ with
  | ok a r =>
    simp only [hm, List.nil_append] at h' ⊢
    obtain ⟨⟨l, rfl, hp⟩, _⟩ := h'
    exact hp
  | error e r =>
    simp only [hm, List.nil_append] at h' ⊢
    obtain ⟨⟨l, rfl, hp⟩, _⟩ := h'
    exact hp

theorem act_path {a : ι} {f : σ → σ} {k : Unit → Prog ι ε σ α} (h : Follows Step P (k ()) Q E)
    {s : σ} (hs : P (f s)) : ∃ l, ((Prog.act a f >>= k).run s).log = (a, f s) :: l ∧
      Path Step (f s) l ((Prog.act a f >>= k).run s).st := by
  have h' := h ⟨f s, [(a, f s)]⟩ hs
  have hrun : (Prog.act a f >>= k) ⟨s, []⟩ = k () ⟨f s, [(a, f s)]⟩ := rfl
  unfold Prog.run Prog.exec
  rw [hrun]
  cases hk : k () ⟨f s, [(a, f s)]⟩ with
  | ok b r =>
    simp only [hk] at h' ⊢
    obtain ⟨⟨l, hl, hp⟩, _⟩ := h'
    exact ⟨l, hl, hp⟩
  | error e r =>
    simp only [hk] at h' ⊢
    obtain ⟨⟨l, hl, hp⟩, _⟩ := h'
    exact ⟨l, hl, hp⟩

theorem of_ok {m : Prog ι ε σ α} (h : Follows Step P m Q E) {s : σ} (hs : P s)
    (hf : m.fault s = none) : ∃ a, Q a (m.run s).st := by
  have h' := h ⟨s, []⟩ hs
  unfold Prog.fault at hf
  unfold Prog.run Prog.exec
  cases hm : m ⟨s, []⟩ with
  | ok a r =>
    simp only [hm] at h' ⊢
    exact ⟨a, h'.2⟩
  | error e r => simp [hm] at hf

theorem of_fault {m : Prog ι ε σ α} (h : Follows Step P m Q E) {s : σ} (hs : P s) {e : ε}
    (hf : m.fault s = some e) : E e (m.run s).st := by
  have h' := h ⟨s, []⟩ hs
  unfold Prog.fault at hf
  unfold Prog.run Prog.exec
  cases hm : m ⟨s, []⟩ with
  | ok a r => simp [hm] at hf
  | error e' r =>
    simp only [hm, Option.some.injEq] at h' hf ⊢
    subst hf
    exact h'.2

end Follows

end AbtSt
