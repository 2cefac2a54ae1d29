/-
# What actions guarantee

An action on a state with a store in it meets a guarantee if from every state with a property it gives
a result and a state that are as guaranteed, and forgets nothing that has been hashed.  Guarantees are
put together along the steps of an action.

Some guarantees hold only as long as all that is hashed is known beforehand to be free of collisions.
Because no action forgets what has been hashed, such a guarantee for a state stands for all states
before it.

The main facts:

* `Meets.bind` : one action after another;
* `Gives.bind`, `Yields.bind`, `Attains.bind` : the same for actions that keep an invariant;
* `Gives.fetch` : a value from a content cache;
* `Reads.bind` : one reader after another.
-/
import Provenance.Proofs.Except
import Provenance.Session.Store

namespace Provenance.Session

/-! ## Guarantees -/

/-- A state in which the store of a session stands. -/
class HasStore (σ : Type) where
  store : σ → Store

instance : HasStore Store := ⟨fun s => s⟩

/-- The result of an action from a state, and the state after it. -/
def outcome {σ ε α : Type} (m : EStateM ε σ α) (s : σ) : Except ε α × σ :=
  match m s with
  | .ok v t => (.ok v, t)
  | .error e t => (.error e, t)

variable {σ ε ε' α β : Type} [HasStore σ]

/-- The fields that have been hashed up to a state. -/
def log (s : σ) : List (List Text) := (HasStore.store s).hashed

/-- From every state with `P` an action gives a result and a state with `Q`, and forgets nothing that
has been hashed. -/
def Meets (P : σ → Prop) (m : EStateM ε σ α) (Q : Except ε α → σ → Prop) : Prop :=
  ∀ s, P s → log s ⊆ log (outcome m s).2 ∧ Q (outcome m s).1 (outcome m s).2

namespace Meets

variable {P P' : σ → Prop} {Q Q' : Except ε α → σ → Prop} {m : EStateM ε σ α}

theorem imp (h : Meets P m Q) (hP : ∀ s, P' s → P s) (hQ : ∀ r s, Q r s → Q' r s) :
    Meets P' m Q' := by
  intro s hs
  obtain ⟨hlog, hq⟩ := h s (hP s hs)
  exact ⟨hlog, hQ _ _ hq⟩

protected theorem pure {v : α} (h : ∀ s, P s → Q (.ok v) s) : Meets P (pure v) Q :=
  fun s hs => ⟨fun _ hf => hf, h s hs⟩

protected theorem throw {e : ε} (h : ∀ s, P s → Q (.error e) s) : Meets P (throw e) Q :=
  fun s hs => ⟨fun _ hf => hf, h s hs⟩

/-- A result that has been worked out. -/
protected theorem settle {x : Except ε' α} {fault : ε' → ε}
    (h : ∀ s, P s → Q (x.mapError fault) s) : Meets P (settle fault x) Q := by
  cases x with
  | error e => exact .throw h
  | ok v => exact .pure h

theorem outcome_bind {σ : Type} (m : EStateM ε σ α) (f : α → EStateM ε σ β) (s : σ) :
    outcome (m >>= f) s =
      match outcome m s with
      | (.ok v, t) => outcome (f v) t
      | (.error e, t) => (.error e, t) := by
  simp only [outcome, bind, EStateM.bind]
  cases m s <;> rfl

/-- One action after another. -/
protected theorem bind {f : α → EStateM ε σ β} {R : Except ε β → σ → Prop} (hm : Meets P m Q)
    (hf : ∀ v, Meets (Q (.ok v)) (f v) R) (he : ∀ e s, Q (.error e) s → R (.error e) s) :
    Meets P (m >>= f) R := by
  intro s hs
  obtain ⟨hlog, hq⟩ := hm s hs
  rw [outcome_bind]
  generalize outcome m s = out at hlog hq
  obtain ⟨r, t⟩ := out
  cases r with
  | error e => exact ⟨hlog, he e t hq⟩
  | ok v =>
    obtain ⟨hlog', hr⟩ := hf v t hq
    exact ⟨fun _ h => hlog' (hlog h), hr⟩

/-- A guarantee about the error of an action, in other words. -/
protected theorem adaptExcept {fault : ε → ε'} {Q : Except ε' α → σ → Prop}
    (h : Meets P m fun r s => Q (r.mapError fault) s) : Meets P (m.adaptExcept fault) Q := by
  intro s hs
  have hm := h s hs
  unfold outcome at hm ⊢
  unfold EStateM.adaptExcept
  cases hr : m s with
  | ok v t =>
    rw [hr] at hm
    exact hm
  | error e t =>
    rw [hr] at hm
    exact hm

/-- An action on a part of a state. -/
protected theorem run {τ : Type} [HasStore τ] {part : Part τ σ} (h : Meets P m Q) {P' : τ → Prop}
    {R : Except ε α → τ → Prop} (hget : ∀ s, log (part.get s) = log s)
    (hset : ∀ s t, log (part.set t s) = log t) (hP : ∀ s, P' s → P (part.get s))
    (hR : ∀ s r t, P' s → log s ⊆ log t → Q r t → R r (part.set t s)) :
    Meets P' (part.run m) R := by
  intro s hs
  have hm := h (part.get s) (hP s hs)
  unfold outcome at hm ⊢
  unfold Part.run
  rw [hget] at hm
  cases hr : m (part.get s) with
  | ok v t =>
    rw [hr] at hm
    dsimp only
    rw [hset]
    exact ⟨hm.1, hR s _ t hs hm.1 hm.2⟩
  | error e t =>
    rw [hr] at hm
    dsimp only
    rw [hset]
    exact ⟨hm.1, hR s _ t hs hm.1 hm.2⟩

/-- What is known under the assumption that all hashes are among some stays known. -/
theorem keep {hashed : List (List Text)} (h : Meets P m Q) (F : Prop) :
    Meets (fun s => P s ∧ (log s ⊆ hashed → F)) m fun r s => Q r s ∧ (log s ⊆ hashed → F) := by
  rintro s ⟨hs, hF⟩
  obtain ⟨hlog, hq⟩ := h s hs
  exact ⟨hlog, hq, fun h => hF fun _ hf => h (hlog hf)⟩

end Meets

/-! ## Invariants -/

/-- An action keeps an invariant, and its result has `Q` if all hashes up to its end are among
`hashed`. -/
def Gives (hashed : List (List Text)) (I : σ → Prop) (m : EStateM ε σ α) (Q : Except ε α → Prop) :
    Prop :=
  Meets I m fun r s => I s ∧ (log s ⊆ hashed → Q r)

/-- An action keeps an invariant, and has a given result if all hashes up to its end are among
`hashed`. -/
def Yields (hashed : List (List Text)) (I : σ → Prop) (m : EStateM ε σ α) (x : Except ε α) : Prop :=
  Gives hashed I m fun r => r = x

variable {hashed : List (List Text)} {I : σ → Prop} {m : EStateM ε σ α}

namespace Gives

variable {Q Q' : Except ε α → Prop}

theorem imp (h : Gives hashed I m Q) (hQ : ∀ r, Q r → Q' r) : Gives hashed I m Q' :=
  Meets.imp h (fun _ hs => hs) fun r _ hr => ⟨hr.1, fun hlog => hQ r (hr.2 hlog)⟩

protected theorem pure {v : α} (h : Q (.ok v)) : Gives hashed I (pure v : EStateM ε σ α) Q :=
  fun _ hs => ⟨fun _ hf => hf, hs, fun _ => h⟩

/-- An action that looks at the state first. -/
theorem get_bind {f : σ → EStateM ε σ α}
    (h : ∀ s, I s → Gives hashed I (f s) fun r => log s ⊆ hashed → Q r) :
    Gives hashed I (get >>= f) Q := by
  intro s hs
  obtain ⟨hlog, ht, hr⟩ := h s hs s hs
  exact ⟨hlog, ht, fun hsub => hr hsub fun _ hf => hsub (hlog hf)⟩

/-- What is known of a result only under more assumptions, where these are known. -/
theorem assuming {F : Prop} (h : Gives hashed I m fun r => F → Q r) :
    Gives hashed (fun s => I s ∧ (log s ⊆ hashed → F)) m Q :=
  Meets.imp (Meets.keep h F) (fun _ hs => hs) fun _ _ hr =>
    ⟨⟨hr.1.1, hr.2⟩, fun hlog => hr.1.2 hlog (hr.2 hlog)⟩

/-- One action after another: what is known of the first result is known during the second. -/
protected theorem bind {f : α → EStateM ε σ β} {R : Except ε β → Prop} (hm : Gives hashed I m Q)
    (hf : ∀ v, Gives hashed (fun s => I s ∧ (log s ⊆ hashed → Q (.ok v))) (f v) R)
    (he : ∀ e, Q (.error e) → R (.error e)) : Gives hashed I (m >>= f) R := by
  refine Meets.bind hm (fun v => ?_) fun e s hq => ⟨hq.1, fun hlog => he e (hq.2 hlog)⟩
  exact Meets.imp (hf v) (fun s hs => hs) fun r s hr => ⟨hr.1.1, hr.2⟩

/-- The same where the first action does not fail. -/
theorem bind_ok {A : α → Prop} {f : α → EStateM ε σ β} {R : Except ε β → Prop}
    (hm : Gives hashed I m fun x => ∃ v, x = .ok v ∧ A v)
    (hf : ∀ v, Gives hashed (fun s => I s ∧ (log s ⊆ hashed → A v)) (f v) R) :
    Gives hashed I (m >>= f) R := by
  refine Gives.bind hm (fun v => Meets.imp (hf v) ?_ ?_) ?_
  · rintro s ⟨hs, hv⟩
    refine ⟨hs, fun hsub => ?_⟩
    obtain ⟨w, hw, hA⟩ := hv hsub
    obtain rfl := Except.ok.inj hw
    exact hA
  · rintro x s ⟨⟨hs, hv⟩, hx⟩
    exact ⟨⟨hs, fun hsub => ⟨v, rfl, hv hsub⟩⟩, hx⟩
  · rintro e ⟨_, h, -⟩
    cases h

/-- One action after another, where no result matters. -/
theorem follow {f : α → EStateM ε σ β} (hm : Gives hashed I m Q)
    (hf : ∀ v, Gives hashed I (f v) fun _ => True) : Gives hashed I (m >>= f) fun _ => True :=
  Gives.bind hm (fun v => assuming (Gives.imp (hf v) fun _ _ _ => trivial)) fun _ _ => trivial

end Gives

namespace Yields

variable {x : Except ε α}

protected theorem pure (v : α) : Yields hashed I (pure v : EStateM ε σ α) (.ok v) := by
  unfold Yields Gives
  exact Meets.pure fun _ hs => ⟨hs, fun _ => rfl⟩

protected theorem throw (e : ε) : Yields hashed I (throw e : EStateM ε σ α) (.error e) := by
  unfold Yields Gives
  exact Meets.throw fun _ hs => ⟨hs, fun _ => rfl⟩

protected theorem settle (fault : ε' → ε) (x : Except ε' α) :
    Yields hashed I (settle fault x) (x.mapError fault) := by
  unfold Yields Gives
  exact Meets.settle fun _ hs => ⟨hs, fun _ => rfl⟩

/-- One action after another has the one result after the other. -/
protected theorem bind {f : α → EStateM ε σ β} {g : α → Except ε β} (hm : Yields hashed I m x)
    (hf : ∀ v, Yields hashed I (f v) (g v)) : Yields hashed I (m >>= f) (x >>= g) := by
  refine Gives.bind hm (fun v => Gives.assuming (Gives.imp (hf v) ?_)) ?_
  · rintro r rfl rfl
    rfl
  · rintro e rfl
    rfl

protected theorem adaptExcept (h : Yields hashed I m x) (fault : ε → ε') :
    Yields hashed I (m.adaptExcept fault) (x.mapError fault) := by
  unfold Yields Gives at h ⊢
  refine Meets.adaptExcept (Meets.imp h (fun _ hs => hs) ?_)
  rintro r s ⟨hs, hr⟩
  exact ⟨hs, fun hlog => by rw [hr hlog]⟩

/-- An action after one whose result does not matter. -/
protected theorem after {v : α} {f : α → EStateM ε σ β} {y : Except ε β}
    (hm : Yields hashed I m (.ok v)) (hf : ∀ v, Yields hashed I (f v) y) :
    Yields hashed I (m >>= f) y := Yields.bind (g := fun _ => y) hm hf

/-- One action for each element of a list. -/
protected theorem mapM {f : α → EStateM ε σ β} {g : α → Except ε β} {xs : List α}
    (h : ∀ a ∈ xs, Yields hashed I (f a) (g a)) : Yields hashed I (xs.mapM f) (xs.mapM g) := by
  induction xs with
  | nil => exact Yields.pure []
  | cons a rest ih =>
    obtain ⟨ha, hrest⟩ := List.forall_mem_cons.mp h
    rw [List.mapM_cons, List.mapM_cons]
    exact Yields.bind ha fun b => Yields.bind (ih hrest) fun others => Yields.pure (b :: others)

end Yields

/-! ## Results on a condition -/

/-- An action keeps an invariant.  If all hashes up to its end are among `hashed`, its value has a
property, and on a condition it has a given result. -/
def Attains (hashed : List (List Text)) (I : σ → Prop) (m : EStateM ε σ α) (p : Prop) (A : α → Prop)
    (x : Except ε α) : Prop :=
  Gives hashed I m fun r => (∀ v, r = .ok v → A v) ∧ (p → r = x)

namespace Attains

variable {p : Prop} {A A' : α → Prop} {x : Except ε α}

/-- A given result that has the property. -/
theorem of_yields (h : Yields hashed I m x) (hA : ∀ v, x = .ok v → A v) : Attains hashed I m p A x := by
  refine Gives.imp h ?_
  rintro r rfl
  exact ⟨hA, fun _ => rfl⟩

theorem imp (h : Attains hashed I m p A x) (hA : ∀ v, A v → A' v) : Attains hashed I m p A' x :=
  Gives.imp h fun _ hr => ⟨fun v hv => hA v (hr.1 v hv), hr.2⟩

protected theorem pure {v : α} (h : A v) : Attains hashed I (pure v : EStateM ε σ α) p A (.ok v) :=
  of_yields (Yields.pure v) fun w hw => by
    rw [← Except.ok.inj hw]
    exact h

protected theorem throw (e : ε) : Attains hashed I (throw e : EStateM ε σ α) p A (.error e) :=
  of_yields (Yields.throw e) fun v hv => by cases hv

/-- One action after another. -/
protected theorem bind {B : β → Prop} {f : α → EStateM ε σ β} {g : α → Except ε β}
    (hm : Attains hashed I m p A x)
    (hf : ∀ v, Attains hashed I (f v) p (fun b => A v → B b) (g v)) :
    Attains hashed I (m >>= f) p B (x >>= g) := by
  refine Gives.bind hm (fun v => Gives.assuming (Gives.imp (hf v) ?_)) ?_
  · rintro r ⟨hr, hresult⟩ ⟨hv, hvalue⟩
    refine ⟨fun b hb => hr b hb (hv v rfl), fun hp => ?_⟩
    rw [← hvalue hp]
    exact hresult hp
  · rintro e ⟨-, he⟩
    refine ⟨fun b hb => (by cases hb), fun hp => ?_⟩
    rw [← he hp]
    rfl

/-- An action after one whose result does not matter. -/
protected theorem after {v : α} {B : β → Prop} {f : α → EStateM ε σ β} {y : Except ε β}
    (hm : Yields hashed I m (.ok v)) (hf : ∀ v, Attains hashed I (f v) p B y) :
    Attains hashed I (m >>= f) p B y :=
  Attains.bind (A := fun _ => True) (g := fun _ => y) (of_yields hm fun _ _ => trivial) fun v =>
    (hf v).imp fun _ hb _ => hb

protected theorem adaptExcept (h : Attains hashed I m p A x) (fault : ε → ε') :
    Attains hashed I (m.adaptExcept fault) p A (x.mapError fault) := by
  unfold Attains Gives at h ⊢
  refine Meets.adaptExcept (Meets.imp h (fun _ hs => hs) ?_)
  rintro r s ⟨hs, hr⟩
  refine ⟨hs, fun hlog => ⟨fun v hv => (hr hlog).1 v (mapError_eq_ok_iff.mp hv), fun hp => ?_⟩⟩
  rw [(hr hlog).2 hp]

/-- One action for each element of a list. -/
protected theorem mapM {f : α → EStateM ε σ β} {g : α → Except ε β} {xs : List α}
    (h : ∀ a ∈ xs, Attains hashed I (f a) p (fun _ => True) (g a)) :
    Attains hashed I (xs.mapM f) p (fun _ => True) (xs.mapM g) := by
  induction xs with
  | nil => exact Attains.pure trivial
  | cons a rest ih =>
    obtain ⟨ha, hrest⟩ := List.forall_mem_cons.mp h
    rw [List.mapM_cons, List.mapM_cons]
    exact Attains.bind ha fun b => Attains.bind (ih hrest) fun others =>
      Attains.pure fun _ _ => trivial

end Attains

/-! ## Caches -/

/-- **A value from a content cache** is as guaranteed if those that are computed for the key are, and
those that the cache may have under the key. -/
protected theorem Gives.fetch {V : Type} {part : Part σ (Cache V)} {key : ContentHash}
    {compute : EStateM ε σ V} {Q : Except ε V → Prop} (hlog : ∀ s c, log (part.set c s) = log s)
    (hcount : ∀ s, I s → I (part.set (part.get s).countHit s) ∧ I (part.set (part.get s).countMiss s))
    (hread : ∀ s v, I s → log s ⊆ hashed → (part.get s).get? key = some v → Q (.ok v))
    (hinsert : ∀ s v, I s → (log s ⊆ hashed → Q (.ok v)) →
      I (part.set ((part.get s).insertNew key v).2 s))
    (hcompute : Gives hashed I compute Q) : Gives hashed I (Cache.fetch part key compute) Q := by
  intro s hs
  unfold outcome Cache.fetch
  cases hfound : (part.get s).get? key with
  | some v =>
    dsimp only
    rw [hlog]
    exact ⟨fun _ hf => hf, (hcount s hs).1, fun h => hread s v hs h hfound⟩
  | none =>
    have hrun := hcompute _ (hcount s hs).2
    rw [hlog] at hrun
    unfold outcome at hrun
    dsimp only
    cases hresult : compute (part.set (part.get s).countMiss s) with
    | error e t => simpa [hresult] using hrun
    | ok v t =>
      rw [hresult] at hrun
      obtain ⟨hsub, ht, hv⟩ := hrun
      dsimp only
      rw [hlog]
      refine ⟨hsub, hinsert t v ht hv, fun h => ?_⟩
      -- the computation may itself have stored a value under the key
      rw [Cache.insertNew_fst]
      cases hstored : (part.get t).get? key with
      | some stored => exact hread t stored ht h hstored
      | none => exact hv h

/-! ## Readers -/

/-- A reader keeps an invariant, and its value has `A` if all hashes up to its end are among
`hashed`. -/
def Reads (hashed : List (List Text)) (I : Store → Prop) (r : Reader α) (A : α → Prop) : Prop :=
  ∀ s, I s → s.hashed ⊆ (r s).2.hashed ∧ I (r s).2 ∧ ((r s).2.hashed ⊆ hashed → A (r s).1)

namespace Reads

variable {J : Store → Prop} {r : Reader α} {A A' : α → Prop}

theorem imp (h : Reads hashed J r A) (hA : ∀ v, A v → A' v) : Reads hashed J r A' := by
  intro s hs
  obtain ⟨hlog, ht, hv⟩ := h s hs
  exact ⟨hlog, ht, fun hsub => hA _ (hv hsub)⟩

protected theorem pure {v : α} (h : A v) : Reads hashed J (pure v) A :=
  fun _ hs => ⟨fun _ hf => hf, hs, fun _ => h⟩

/-- One reader after another. -/
protected theorem bind {f : α → Reader β} {B : β → Prop} (hr : Reads hashed J r A)
    (hf : ∀ v, Reads hashed J (f v) fun w => A v → B w) : Reads hashed J (r >>= f) B := by
  intro s hs
  obtain ⟨hlog, ht, hv⟩ := hr s hs
  obtain ⟨hlog', ht', hw⟩ := hf (r s).1 (r s).2 ht
  refine ⟨fun _ h => hlog' (hlog h), ht', fun hsub => ?_⟩
  exact hw hsub (hv fun _ h => hsub (hlog' h))

/-- One reader after another, where the values are known. -/
theorem bind_eq {f : α → Reader β} {v : α} {g : α → β} (hr : Reads hashed J r fun w => w = v)
    (hf : ∀ v, Reads hashed J (f v) fun w => w = g v) :
    Reads hashed J (r >>= f) fun w => w = g v := by
  refine Reads.bind hr fun v => Reads.imp (hf v) ?_
  rintro w rfl rfl
  rfl

/-- A reader as an action. -/
theorem act (h : Reads hashed J r A) :
    Gives hashed J (r.act : EStateM ε Store α) fun x => ∃ v, x = .ok v ∧ A v := by
  intro s hs
  obtain ⟨hlog, ht, hv⟩ := h s hs
  exact ⟨hlog, ht, fun hsub => ⟨_, rfl, hv hsub⟩⟩

/-- A reader of a known value as an action. -/
theorem act_eq {v : α} (h : Reads hashed J r fun w => w = v) :
    Yields hashed J (r.act : EStateM ε Store α) (.ok v) := by
  apply Gives.imp h.act
  rintro x ⟨w, rfl, rfl⟩
  rfl

end Reads

end Provenance.Session
