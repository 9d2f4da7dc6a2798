import Mathlib.Data.List.Basic

/-!
# Traces

Two systems are compared by what their steps show. A system takes one step at a time; a step shows
a list of observations and goes on, ends, faults or fails.

- `System.trace`, `System.after`: what the first steps show, and where they lead.
- `System.after_eq_of_ended`: a run ends in one way only.
- `System.simulates`: when every step of one system is matched by steps of another, so is every run.
- `System.Answers.isPrefix`: what the other shows in as many steps is the start of it.
-/

set_option autoImplicit false

namespace StackLang

/-- How a step ends. -/
inductive Outcome (σ : Type) where
  | running (s : σ)
  | ended
  /-- A division has no result. -/
  | faulted
  /-- There is no meaning to what comes next. -/
  | failed

/-- Two runs end alike; nothing is said where the first one has failed. -/
def Outcome.Agrees {σ τ : Type} : Outcome σ → Outcome τ → Prop
  | .running _, .running _ | .ended, .ended | .faulted, .faulted | .failed, _ => True
  | _, _ => False

theorem Outcome.Agrees.eq_ended {σ τ : Type} {o : Outcome τ} (h : (.ended : Outcome σ).Agrees o) :
    o = .ended := by
  cases o <;> first | rfl | exact h.elim

theorem Outcome.Agrees.eq_faulted {σ τ : Type} {o : Outcome τ} (h : (.faulted : Outcome σ).Agrees o) :
    o = .faulted := by
  cases o <;> first | rfl | exact h.elim

/-- A system: what the step from a state shows, and how it ends. -/
abbrev System (σ β : Type) := σ → List β × Outcome σ

namespace System

variable {σ τ β : Type}

/-- What the first `n` steps show. -/
def trace (f : System σ β) : Nat → σ → List β
  | 0, _ => []
  | n + 1, s =>
    (f s).1 ++ match (f s).2 with
      | .running s' => f.trace n s'
      | .ended | .faulted | .failed => []

/-- Where the first `n` steps lead. -/
def after (f : System σ β) : Nat → σ → Outcome σ
  | 0, s => .running s
  | n + 1, s =>
    match (f s).2 with
    | .running s' => f.after n s'
    | .ended => .ended
    | .faulted => .faulted
    | .failed => .failed

section
variable {f : System σ β} {s s' : σ} {vs us : List β} {o : Outcome σ}

theorem trace_succ_running {n : Nat} (h : f s = (vs, .running s')) :
    f.trace (n + 1) s = vs ++ f.trace n s' := by simp [trace, h]

theorem after_succ_running {n : Nat} (h : f s = (vs, .running s')) :
    f.after (n + 1) s = f.after n s' := by simp [after, h]

/-- A longer run shows what a shorter one shows, and goes on. -/
theorem trace_isPrefix {m n : Nat} (h : m ≤ n) : f.trace m s <+: f.trace n s := by
  induction m generalizing n s with
  | zero => exact List.nil_prefix
  | succ m ih =>
    obtain ⟨n, rfl⟩ : ∃ k, n = k + 1 := ⟨n - 1, by omega⟩
    simp only [trace, List.prefix_append_right_inj]
    split
    · exact ih (by omega)
    all_goals exact List.prefix_rfl

/-- **A run that has come to an end** shows no more, and stays as it is. -/
theorem stays_ended {m n : Nat} (h : m ≤ n) (he : ∀ s', f.after m s ≠ .running s') :
    f.trace n s = f.trace m s ∧ f.after n s = f.after m s := by
  induction m generalizing n s with
  | zero => exact absurd rfl (he s)
  | succ m ih =>
    obtain ⟨n, rfl⟩ : ∃ k, n = k + 1 := ⟨n - 1, by omega⟩
    simp only [after] at he
    simp only [trace, after, List.append_cancel_left_eq]
    split
    · rename_i s' hs
      rw [hs] at he
      exact ih (by omega) he
    all_goals exact ⟨rfl, rfl⟩

/-- A run ends in one way only. -/
theorem after_eq_of_ended {m n : Nat} (hm : ∀ s', f.after m s ≠ .running s')
    (hn : ∀ s', f.after n s ≠ .running s') : f.after m s = f.after n s := by
  rcases Nat.le_total m n with hle | hle
  · exact (stays_ended hle hm).2.symm
  · exact (stays_ended hle hn).2

/-- Some `n` or more steps show `vs` and lead to `o`. -/
def Reaches (f : System σ β) (n : Nat) (s : σ) (vs : List β) (o : Outcome σ) : Prop :=
  ∃ k, n ≤ k ∧ f.trace k s = vs ∧ f.after k s = o

theorem Reaches.refl (f : System σ β) (s : σ) : f.Reaches 0 s [] (.running s) := ⟨0, by simp, rfl, rfl⟩

theorem Reaches.mono {m n : Nat} (h : f.Reaches n s vs o) (hm : m ≤ n) : f.Reaches m s vs o := by
  obtain ⟨k, hk, ht, ha⟩ := h
  exact ⟨k, by omega, ht, ha⟩

theorem Reaches.step (h : f s = (vs, o)) : f.Reaches 1 s vs o := by
  refine ⟨1, by omega, ?_, ?_⟩
  · cases o <;> simp [trace, h]
  · cases o <;> simp [after, h]

theorem Reaches.trans {m n : Nat} (h : f.Reaches m s vs (.running s')) (h' : f.Reaches n s' us o) :
    f.Reaches (m + n) s (vs ++ us) o := by
  obtain ⟨k, hk, rfl, ha⟩ := h
  obtain ⟨j, hj, rfl, rfl⟩ := h'
  refine ⟨k + j, by omega, ?_⟩
  clear hk hj
  induction k generalizing s with
  | zero =>
    cases ha
    simp [trace]
  | succ k ih =>
    rw [Nat.succ_add]
    simp only [trace, after] at ha ⊢
    split
    · rename_i s1 hs
      rw [hs] at ha
      obtain ⟨ht, ho⟩ := ih ha
      exact ⟨by rw [ht, List.append_assoc], ho⟩
    all_goals
      rename_i hs
      rw [hs] at ha
      cases ha

/-- The first step and what follows it. -/
theorem Reaches.head {n : Nat} (h : f s = (vs, .running s')) (h' : f.Reaches n s' us o) :
    f.Reaches (n + 1) s (vs ++ us) o := by
  rw [Nat.add_comm]
  exact (Reaches.step h).trans h'

end

/-! ## Simulation -/

/-- How a run of one system answers the outcome of another's: it goes on in a related state, ends or
faults too, or has only shown the same so far when the other fails. -/
def Answers (g : System τ β) (R : σ → τ → Prop) (n : Nat) (s : τ) (vs : List β) :
    Outcome σ → Prop
  | .running c => ∃ s', g.Reaches n s vs (.running s') ∧ R c s'
  | .ended => g.Reaches 0 s vs .ended
  | .faulted => g.Reaches 0 s vs .faulted
  | .failed => ∃ o, g.Reaches 0 s vs o

section
variable {f : System σ β} {g : System τ β} {R : σ → τ → Prop} {P : β → Prop}

theorem Answers.trans {m n : Nat} {s s' : τ} {vs us : List β} {o : Outcome σ}
    (h : g.Reaches m s vs (.running s')) (h' : Answers g R n s' us o) :
    Answers g R (m + n) s (vs ++ us) o := by
  cases o with
  | running c =>
    obtain ⟨t, ht, hr⟩ := h'
    exact ⟨t, h.trans ht, hr⟩
  | ended =>
    have := h.trans (h' : g.Reaches 0 s' us .ended)
    exact this.mono (by omega)
  | faulted =>
    have := h.trans (h' : g.Reaches 0 s' us .faulted)
    exact this.mono (by omega)
  | failed =>
    obtain ⟨o, ho⟩ := h'
    exact ⟨o, (h.trans ho).mono (by omega)⟩

theorem Answers.mono {m n : Nat} {s : τ} {vs : List β} {o : Outcome σ} (h : Answers g R n s vs o)
    (hm : m ≤ n) : Answers g R m s vs o := by
  cases o with
  | running c =>
    obtain ⟨t, ht, hr⟩ := h
    exact ⟨t, ht.mono hm, hr⟩
  | ended | faulted | failed => exact h

/-- **Simulation.** If every step is answered whose observations satisfy `P`, then every run is. -/
theorem simulates
    (hstep : ∀ c s, R c s → (∀ v ∈ (f c).1, P v) → Answers g R 1 s (f c).1 (f c).2)
    (n : Nat) {c : σ} {s : τ} (hr : R c s) (hP : ∀ v ∈ f.trace n c, P v) :
    Answers g R n s (f.trace n c) (f.after n c) := by
  induction n generalizing c s with
  | zero => exact ⟨s, .refl g s, hr⟩
  | succ n ih =>
    obtain ⟨hhead, hrest⟩ := List.forall_mem_append.1 hP
    have h1 := hstep c s hr hhead
    rw [trace, after]
    rcases hf : (f c).2 with c' | _ | _ | _
    · rw [hf] at h1 hrest
      obtain ⟨s', hs, hr'⟩ := h1
      rw [Nat.add_comm]
      exact Answers.trans hs (ih hr' hrest)
    all_goals
      rw [hf] at h1
      rw [List.append_nil]
      exact h1

theorem Answers.agrees {n : Nat} {s : τ} {vs : List β} {o : Outcome σ} (h : Answers g R n s vs o) :
    ∃ k, g.trace k s = vs ∧ o.Agrees (g.after k s) := by
  cases o with
  | running c =>
    obtain ⟨s', ⟨k, -, ht, ha⟩, -⟩ := h
    exact ⟨k, ht, ha ▸ trivial⟩
  | ended | faulted =>
    obtain ⟨k, -, ht, ha⟩ := h
    exact ⟨k, ht, ha ▸ trivial⟩
  | failed =>
    obtain ⟨-, k, -, ht, -⟩ := h
    exact ⟨k, ht, trivial⟩

/-- What the answering system shows in at most as many steps starts what is answered. -/
theorem Answers.isPrefix {n t : Nat} {s : τ} {vs : List β} {o : Outcome σ}
    (h : Answers g R n s vs o) (ht : t ≤ n) (ho : o ≠ .failed) : g.trace t s <+: vs := by
  cases o with
  | running c =>
    obtain ⟨s', ⟨k, hk, rfl, -⟩, -⟩ := h
    exact trace_isPrefix (by omega)
  | ended | faulted =>
    obtain ⟨k, -, rfl, he⟩ := h
    rcases Nat.le_total t k with hle | hle
    · exact trace_isPrefix hle
    · exact ⟨[], by rw [List.append_nil, (stays_ended hle (by rw [he]; nofun)).1]⟩
  | failed => exact absurd rfl ho

end

end System

end StackLang
