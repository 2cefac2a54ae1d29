/-
# Actions that agree

An action agrees on a relation between states if from any two related states it has the same result and
leaves states that are related again.  What such an action answers does not depend on that in which
related states may differ.

The main facts:

* `Agrees.bind` : one action after another;
* `Steady.fetch` : a value from a content cache that is the same in related states.
-/
import Provenance.Proofs.Session.Meets

namespace Provenance.Session

variable {σ τ ε ε' α β : Type}

/-- An action on a part of a state leaves the rest as it is. -/
theorem outcome_run (part : Part τ σ) (m : EStateM ε σ α) (s : τ) :
    outcome (part.run m) s =
      ((outcome m (part.get s)).1, part.set (outcome m (part.get s)).2 s) := by
  unfold outcome Part.run
  cases m (part.get s) <;> rfl

/-- From related states an action has the same result, and leaves states related as is guaranteed for the
result. -/
def Agrees (I : σ → σ → Prop) (m : EStateM ε σ α) (J : Except ε α → σ → σ → Prop) : Prop :=
  ∀ s t, I s t →
    (outcome m s).1 = (outcome m t).1 ∧ J (outcome m s).1 (outcome m s).2 (outcome m t).2

/-- From related states an action has the same result, and leaves states that are so related again. -/
def Steady (I : σ → σ → Prop) (m : EStateM ε σ α) : Prop := Agrees I m fun _ => I

/-- From related stores a reader reads the same, and leaves stores that are so related again. -/
def ReadsSame (I : Store → Store → Prop) (r : Reader α) : Prop :=
  ∀ s t, I s t → (r s).1 = (r t).1 ∧ I (r s).2 (r t).2

namespace Agrees

variable {I I' : σ → σ → Prop} {J J' : Except ε α → σ → σ → Prop} {m : EStateM ε σ α}

theorem imp (h : Agrees I m J) (hI : ∀ s t, I' s t → I s t) (hJ : ∀ r s t, J r s t → J' r s t) :
    Agrees I' m J' := by
  intro s t hst
  obtain ⟨hresult, hstates⟩ := h s t (hI s t hst)
  exact ⟨hresult, hJ _ _ _ hstates⟩

protected theorem pure {v : α} (h : ∀ s t, I s t → J (.ok v) s t) : Agrees I (pure v) J :=
  fun s t hst => ⟨rfl, h s t hst⟩

protected theorem throw {e : ε} (h : ∀ s t, I s t → J (.error e) s t) : Agrees I (throw e) J :=
  fun s t hst => ⟨rfl, h s t hst⟩

/-- An action that looks at what related states have in common. -/
theorem get_bind {f : σ → EStateM ε σ α} (h : ∀ s t, I s t → f t = f s ∧ Agrees I (f s) J) :
    Agrees I (get >>= f) J := by
  intro s t hst
  obtain ⟨hsame, hagrees⟩ := h s t hst
  have hright : outcome (get >>= f) t = outcome (f s) t := by rw [← hsame]; rfl
  rw [hright]
  exact hagrees s t hst

/-- One action after another. -/
protected theorem bind {f : α → EStateM ε σ β} {K : Except ε β → σ → σ → Prop} (hm : Agrees I m J)
    (hf : ∀ v, Agrees (J (.ok v)) (f v) K) (he : ∀ e s t, J (.error e) s t → K (.error e) s t) :
    Agrees I (m >>= f) K := by
  intro s t hst
  obtain ⟨hresult, hstates⟩ := hm s t hst
  rw [Meets.outcome_bind, Meets.outcome_bind]
  generalize outcome m s = out at hresult hstates
  generalize outcome m t = out' at hresult hstates
  obtain ⟨r, u⟩ := out
  obtain ⟨r', u'⟩ := out'
  obtain rfl : r = r' := hresult
  cases r with
  | ok v => exact hf v u u' hstates
  | error e => exact ⟨rfl, he e u u' hstates⟩

end Agrees

namespace Steady

variable {I : σ → σ → Prop} {m : EStateM ε σ α}

protected theorem pure (v : α) : Steady I (pure v : EStateM ε σ α) := Agrees.pure fun _ _ h => h

protected theorem throw (e : ε) : Steady I (throw e : EStateM ε σ α) := Agrees.throw fun _ _ h => h

protected theorem settle (fault : ε' → ε) (x : Except ε' α) : Steady I (settle fault x) := by
  cases x with
  | ok v => exact Steady.pure v
  | error e => exact Steady.throw (fault e)

protected theorem bind {f : α → EStateM ε σ β} (hm : Steady I m) (hf : ∀ v, Steady I (f v)) :
    Steady I (m >>= f) := Agrees.bind hm hf fun _ _ _ h => h

protected theorem modify {f : σ → σ} (h : ∀ s t, I s t → I (f s) (f t)) :
    Steady I (modify f : EStateM ε σ PUnit) := fun s t hst => ⟨rfl, h s t hst⟩

/-- An action that looks at what related states have in common. -/
theorem get_bind {f : σ → EStateM ε σ α} (h : ∀ s t, I s t → f t = f s ∧ Steady I (f s)) :
    Steady I (get >>= f) := Agrees.get_bind h

protected theorem adaptExcept (h : Steady I m) (fault : ε → ε') : Steady I (m.adaptExcept fault) := by
  have houtcome : ∀ s, outcome (m.adaptExcept fault) s =
      ((outcome m s).1.mapError fault, (outcome m s).2) := by
    intro s
    unfold outcome EStateM.adaptExcept
    cases m s <;> rfl
  intro s t hst
  obtain ⟨hresult, hstates⟩ := h s t hst
  rw [houtcome, houtcome, hresult]
  exact ⟨rfl, hstates⟩

/-- An action on a part of a state. -/
protected theorem run {part : Part τ σ} (h : Steady I m) {I' : τ → τ → Prop}
    (hget : ∀ s t, I' s t → I (part.get s) (part.get t))
    (hset : ∀ s t u v, I' s t → I u v → I' (part.set u s) (part.set v t)) :
    Steady I' (part.run m) := by
  intro s t hst
  obtain ⟨hresult, hstates⟩ := h _ _ (hget s t hst)
  rw [outcome_run, outcome_run]
  exact ⟨hresult, hset s t _ _ hst hstates⟩

/-- One action for each element of a list. -/
protected theorem mapM {f : α → EStateM ε σ β} {xs : List α} (h : ∀ a ∈ xs, Steady I (f a)) :
    Steady I (xs.mapM f) := by
  induction xs with
  | nil => exact Steady.pure []
  | cons a rest ih =>
    obtain ⟨ha, hrest⟩ := List.forall_mem_cons.mp h
    rw [List.mapM_cons]
    exact Steady.bind ha fun b => Steady.bind (ih hrest) fun others => Steady.pure (b :: others)

/-- **A value from a content cache** that is the same in related states. -/
protected theorem fetch {V : Type} {part : Part σ (Cache V)} {key : ContentHash}
    {compute : EStateM ε σ V} (hsame : ∀ s t, I s t → part.get t = part.get s)
    (hset : ∀ s t c, I s t → I (part.set c s) (part.set c t)) (hcompute : Steady I compute) :
    Steady I (Cache.fetch part key compute) := by
  intro s t hst
  unfold outcome Cache.fetch
  rw [hsame s t hst]
  cases (part.get s).get? key with
  | some v => exact ⟨rfl, hset s t _ hst⟩
  | none =>
    obtain ⟨hresult, hstates⟩ := hcompute _ _ (hset s t (part.get s).countMiss hst)
    unfold outcome at hresult hstates
    dsimp only
    cases hs : compute (part.set (part.get s).countMiss s) with
    | ok v u =>
      cases ht : compute (part.set (part.get s).countMiss t) with
      | ok v' u' =>
        rw [hs, ht] at hresult hstates
        obtain rfl := Except.ok.inj hresult
        dsimp only
        rw [hsame u u' hstates]
        exact ⟨rfl, hset u u' _ hstates⟩
      | error e' u' =>
        rw [hs, ht] at hresult
        cases hresult
    | error e u =>
      cases ht : compute (part.set (part.get s).countMiss t) with
      | ok v' u' =>
        rw [hs, ht] at hresult
        cases hresult
      | error e' u' =>
        rw [hs, ht] at hresult hstates
        exact ⟨hresult, hstates⟩

end Steady

namespace ReadsSame

variable {I : Store → Store → Prop} {r : Reader α}

protected theorem pure (v : α) : ReadsSame I (pure v) := fun _ _ hst => ⟨rfl, hst⟩

protected theorem bind {f : α → Reader β} (hr : ReadsSame I r) (hf : ∀ v, ReadsSame I (f v)) :
    ReadsSame I (r >>= f) := by
  intro s t hst
  obtain ⟨hvalue, hstores⟩ := hr s t hst
  have hnext := hf (r s).1 _ _ hstores
  show (f (r s).1 (r s).2).1 = (f (r t).1 (r t).2).1 ∧ I (f (r s).1 (r s).2).2 (f (r t).1 (r t).2).2
  rwa [← hvalue]

/-- A reader as an action. -/
theorem act (h : ReadsSame I r) : Steady I (r.act : EStateM ε Store α) := by
  intro s t hst
  obtain ⟨hvalue, hstores⟩ := h s t hst
  exact ⟨congrArg Except.ok hvalue, hstores⟩

end ReadsSame

end Provenance.Session
