import Mathlib.Tactic.Basic

/-!
# Two machines in lockstep

Computations that may fail, run side by side: either both fail in the same way, or both return. Machines
whose calls keep a relation between their states give the same answers to the same calls, and a client that
asks one of them learns nothing else from the other.
-/

namespace Lockstep

variable {ε α α' β β' σ τ ι ω : Type}

/-- Both results are the same error, or values that `rel` relates. -/
inductive Results (rel : α → β → Prop) : Except ε α → Except ε β → Prop
  | ok {a : α} {b : β} (related : rel a b) : Results rel (.ok a) (.ok b)
  | error (e : ε) : Results rel (.error e) (.error e)

theorem Results.mono {rel rel' : α → β → Prop} {x : Except ε α} {y : Except ε β} (results : Results rel x y)
    (weaker : ∀ a b, rel a b → rel' a b) : Results rel' x y := by
  cases results with
  | ok related => exact .ok (weaker _ _ related)
  | error e => exact .error e

/-- A sequence is in lockstep when its parts are. -/
theorem Results.bind {rel : α → β → Prop} {rel' : α' → β' → Prop} {x : Except ε α} {y : Except ε β}
    {f : α → Except ε α'} {g : β → Except ε β'} (first : Results rel x y)
    (next : ∀ a b, rel a b → Results rel' (f a) (g b)) : Results rel' (x >>= f) (y >>= g) := by
  cases first with
  | ok related => exact next _ _ related
  | error e => exact .error e

/-- What a machine answers to the calls of a list. After an error of `goesOn` it is in the state from before
the call; any other error is the end of the run. -/
def answers (step : σ → ι → Except ε (ω × σ)) (goesOn : ε → Bool) : σ → List ι → List (Except ε ω)
  | _, [] => []
  | s, call :: calls =>
    match step s call with
    | .ok (answer, s') => .ok answer :: answers step goesOn s' calls
    | .error e => .error e :: if goesOn e then answers step goesOn s calls else []

/-- Calls that answer alike and keep the relation make runs that answer alike. -/
theorem answers_eq {step : σ → ι → Except ε (ω × σ)} {step' : τ → ι → Except ε (ω × τ)} {goesOn : ε → Bool}
    {rel : σ → τ → Prop} (keeps : ∀ s t call, rel s t →
      Results (fun x y => x.1 = y.1 ∧ rel x.2 y.2) (step s call) (step' t call))
    {s : σ} {t : τ} (related : rel s t) (calls : List ι) :
    answers step goesOn s calls = answers step' goesOn t calls := by
  induction calls generalizing s t with
  | nil => rfl
  | cons call calls ih =>
    have results := keeps s t call related
    simp only [answers]
    generalize step s call = x, step' t call = y at results
    cases results with
    | @ok a b alike =>
      obtain ⟨answer, s'⟩ := a
      obtain ⟨answer', t'⟩ := b
      obtain ⟨same, related'⟩ := alike
      dsimp only at same related' ⊢
      rw [same, ih related']
    | error e => simp only [ih related]

/-- A client of a machine. What it asks next may depend on the answers it has got. -/
inductive Client (ι ω α : Type)
  | done (a : α)
  | ask (call : ι) (next : ω → Client ι ω α)

namespace Client

/-- One call. -/
def one (call : ι) : Client ι ω ω := .ask call .done

def bind : Client ι ω α → (α → Client ι ω β) → Client ι ω β
  | .done a, f => f a
  | .ask call next, f => .ask call fun answer => (next answer).bind f

instance instMonadClient : Monad (Client ι ω) where
  pure := .done
  bind := bind

/-- The client of another machine that makes the calls there. -/
def mapCalls {κ : Type} (f : ι → κ) : Client ι ω α → Client κ ω α
  | .done a => .done a
  | .ask call next => .ask (f call) fun answer => (next answer).mapCalls f

/-- The result of a client, when each of its calls has one, and the state after it. -/
def run (step : σ → ι → Option (ω × σ)) : Client ι ω α → σ → Option (α × σ)
  | .done a, s => some (a, s)
  | .ask call next, s => (step s call).bind fun r => (next r.1).run step r.2

variable {step : σ → ι → Option (ω × σ)} {step' : τ → ι → Option (ω × τ)}

@[simp] theorem run_pure (a : α) (s : σ) : (pure a : Client ι ω α).run step s = some (a, s) := rfl

@[simp] theorem run_one (call : ι) (s : σ) : (one call : Client ι ω ω).run step s = step s call := by
  change ((step s call).bind fun r => some (r.1, r.2)) = _
  cases step s call <;> rfl

theorem run_bind (client : Client ι ω α) (f : α → Client ι ω β) (s : σ) :
    (client >>= f).run step s = (client.run step s).bind fun r => (f r.1).run step r.2 := by
  induction client generalizing s with
  | done a => rfl
  | ask call next ih =>
    change ((step s call).bind fun r => ((next r.1) >>= f).run step r.2) = _
    rw [run, Option.bind_assoc]
    exact congrArg _ (funext fun r => ih r.1 r.2)

/-- Every client is served by a machine that serves each call as the other does. -/
theorem run_serves {rel : σ → τ → Prop} (serves : ∀ s t call answer s', rel s t → step s call = some (answer, s') →
      ∃ t', step' t call = some (answer, t') ∧ rel s' t')
    {client : Client ι ω α} {s s' : σ} {t : τ} {a : α} (related : rel s t) (run : client.run step s = some (a, s')) :
    ∃ t', client.run step' t = some (a, t') ∧ rel s' t' := by
  induction client generalizing s t with
  | done a =>
    cases run
    exact ⟨t, rfl, related⟩
  | ask call next ih =>
    obtain ⟨⟨answer, s₁⟩, first, rest⟩ := Option.bind_eq_some_iff.mp run
    obtain ⟨t₁, served, related₁⟩ := serves s t call answer s₁ related first
    obtain ⟨t', later, related'⟩ := ih answer related₁ rest
    exact ⟨t', by rw [Client.run, served, Option.bind_some, later], related'⟩

end Client

end Lockstep
