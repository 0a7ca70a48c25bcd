import Mathlib.Tactic.Basic

/-!
# Partial correctness of stateful code that may fail

What a computation over a state returns, provided that it returns. Nothing here depends on what
the state is.
-/

namespace Hoare

variable {σ ε α β : Type} {P P' I : σ → Prop} {Q Q' : α → σ → Prop} {R : β → σ → Prop}

/-- Whatever `m` returns from a state of `P` lies in `Q`. -/
def Post (P : σ → Prop) (m : StateT σ (Except ε) α) (Q : α → σ → Prop) : Prop :=
  ∀ s, P s → ∀ a s', m.run s = .ok (a, s') → Q a s'

/-- `m` keeps the invariant `I`. -/
def Keeps (I : σ → Prop) (m : StateT σ (Except ε) α) : Prop := Post I m fun _ => I

theorem Post.mono {m : StateT σ (Except ε) α} (post : Post P m Q) (before : ∀ s, P' s → P s)
    (after : ∀ a s, Q a s → Q' a s) : Post P' m Q' :=
  fun s pre a s' run => after a s' (post s (before s pre) a s' run)

/-- A triple holds from each state on its own. -/
theorem post_from {m : StateT σ (Except ε) α} (each : ∀ s₀, P s₀ → Post (· = s₀) m Q) : Post P m Q :=
  fun s pre => each s pre s rfl

/-- Code that leaves a given state returns what its run from there does. -/
theorem post_run {m : StateT σ (Except ε) α} (s : σ) (keeps : Keeps (· = s) m) :
    Post (· = s) m fun a s' => m.run s = .ok (a, s) ∧ s' = s := by
  intro s₁ same a s' run
  rw [same] at run
  have kept := keeps s rfl a s' run
  rw [kept] at run
  exact ⟨run, kept⟩

/-- Code that is not reached. -/
theorem post_of_false {m : StateT σ (Except ε) α} (never : ∀ s, ¬ P s) : Post P m Q :=
  fun s pre => absurd pre (never s)

theorem Post.pre {m : StateT σ (Except ε) α} (post : Post P m Q) (before : ∀ s, P' s → P s) : Post P' m Q :=
  post.mono before fun _ _ => id

/-- A sequence that returns returns from its parts. -/
theorem bind_eq_ok {x : Except ε α} {f : α → Except ε β} {b : β} :
    (x >>= f) = .ok b ↔ ∃ a, x = .ok a ∧ f a = .ok b := by
  cases x with
  | error e =>
    constructor
    · intro failed
      cases failed
    · rintro ⟨a, returned, -⟩
      cases returned
  | ok a =>
    constructor
    · exact fun run => ⟨a, rfl, run⟩
    · rintro ⟨a', returned, run⟩
      cases returned
      exact run

/-- A run of a sequence is a run of its parts. -/
theorem run_bind_eq_ok {m : StateT σ (Except ε) β} {f : β → StateT σ (Except ε) α} {s s' : σ} {a : α} :
    (m >>= f).run s = .ok (a, s') ↔ ∃ b s₁, m.run s = .ok (b, s₁) ∧ (f b).run s₁ = .ok (a, s') := by
  rw [StateT.run_bind, bind_eq_ok]
  constructor
  · rintro ⟨⟨b, s₁⟩, first, next⟩
    exact ⟨b, s₁, first, next⟩
  · rintro ⟨b, s₁, first, next⟩
    exact ⟨(b, s₁), first, next⟩

theorem post_bind {m : StateT σ (Except ε) β} {f : β → StateT σ (Except ε) α} (first : Post P m R)
    (next : ∀ b, Post (R b) (f b) Q) : Post P (m >>= f) Q := by
  intro s pre a s' run
  obtain ⟨b, s₁, left, right⟩ := run_bind_eq_ok.mp run
  exact next b s₁ (first s pre b s₁ left) a s' right

theorem post_pure {a : α} (holds : ∀ s, P s → Q a s) : Post P (pure a : StateT σ (Except ε) α) Q := by
  intro s pre b s' run
  cases run
  exact holds s pre

theorem post_throw (e : ε) : Post P (throw e : StateT σ (Except ε) α) Q := by
  intro s pre a s' run
  cases run

theorem post_modify {f : σ → σ} {Q : PUnit → σ → Prop} (holds : ∀ s, P s → Q ⟨⟩ (f s)) :
    Post P (modify f : StateT σ (Except ε) PUnit) Q := by
  intro s pre a s' run
  cases run
  exact holds s pre

/-- `m` returns `f` of the state, which it leaves as it is. -/
def Reads (m : StateT σ (Except ε) α) (f : σ → α) : Prop := ∀ s, m.run s = .ok (f s, s)

/-- After a read the rest is run with its value, in the same state. -/
theorem post_reads {m : StateT σ (Except ε) β} {g : σ → β} {f : β → StateT σ (Except ε) α} (reads : Reads m g)
    (next : ∀ b, Post (fun s => P s ∧ g s = b) (f b) Q) : Post P (m >>= f) Q := by
  intro s pre a s' run
  obtain ⟨b, s₁, left, right⟩ := run_bind_eq_ok.mp run
  rw [reads s] at left
  cases left
  exact next _ s ⟨pre, rfl⟩ a s' right

/-- A read from a given state. -/
theorem post_reads_at {m : StateT σ (Except ε) β} {g : σ → β} {f : β → StateT σ (Except ε) α} {s : σ}
    (reads : Reads m g) (next : Post (· = s) (f (g s)) Q) : Post (· = s) (m >>= f) Q := by
  refine post_reads reads fun b => post_from ?_
  rintro s₀ ⟨rfl, rfl⟩
  exact next

/-- A result that does not depend on what the first part does. -/
theorem post_forget {m : StateT σ (Except ε) β} {f : β → StateT σ (Except ε) α}
    (next : ∀ b, Post (fun _ => True) (f b) Q) : Post P (m >>= f) Q :=
  post_bind (fun _ _ _ _ _ => trivial) next

theorem post_of_keeps {m : StateT σ (Except ε) α} (keeps : Keeps I m) : Post I m fun _ => I := keeps

/-- A first part that keeps the precondition. -/
theorem post_keeps {m : StateT σ (Except ε) β} {f : β → StateT σ (Except ε) α} (first : Keeps P m)
    (next : ∀ b, Post P (f b) Q) : Post P (m >>= f) Q :=
  post_bind first next

theorem keeps_bind {m : StateT σ (Except ε) β} {f : β → StateT σ (Except ε) α} (first : Keeps I m)
    (next : ∀ b, Keeps I (f b)) : Keeps I (m >>= f) :=
  post_bind first next

theorem keeps_pure (a : α) : Keeps I (pure a : StateT σ (Except ε) α) := post_pure fun _ inv => inv

theorem keeps_throw (e : ε) : Keeps I (throw e : StateT σ (Except ε) α) := post_throw e

theorem keeps_get : Keeps I (get : StateT σ (Except ε) σ) := by
  intro s inv a s' run
  cases run
  exact inv

theorem keeps_modify {f : σ → σ} (holds : ∀ s, I s → I (f s)) :
    Keeps I (modify f : StateT σ (Except ε) PUnit) :=
  post_modify holds

/-- A loop over a list keeps what its body keeps. -/
theorem keeps_forIn {ι : Type} {l : List ι} {b : β} {f : ι → β → StateT σ (Except ε) (ForInStep β)}
    (body : ∀ i b, Keeps I (f i b)) : Keeps I (forIn l b f) := by
  induction l generalizing b with
  | nil => exact keeps_pure b
  | cons i l ih =>
    rw [List.forIn_cons]
    refine keeps_bind (body i b) fun step => ?_
    cases step with
    | done b => exact keeps_pure b
    | yield b => exact ih

end Hoare
