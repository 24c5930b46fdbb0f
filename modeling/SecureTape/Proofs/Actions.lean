import Mathlib.Order.Defs.Unbundled
import Mathlib.Tactic.Common
import SecureTape.Error

/-!
# Runs of actions

An action changes a state and may fail; what it did before it failed stays done. Main statements:
1. `of_run_bind_ok`: a sequence succeeds only if both of its parts do.
2. `Meets.bind`: a transitive relation between the states before and after that holds for the parts
   of an action holds for the whole, whether it fails or not.
3. `Maintains.bind`: so does an invariant.
-/

namespace SecureTape

theorem of_bind_ok {ε α β : Type} {x : Except ε α} {k : α → Except ε β} {b : β}
    (h : x >>= k = .ok b) : ∃ a, x = .ok a ∧ k a = .ok b := by
  cases x with
  | error e => cases h
  | ok a => exact ⟨a, rfl, h⟩

variable {e : CompileError}

/-- An action on a state that may fail. -/
abbrev Action (σ : Type) := ExceptT CompileError (StateM σ)

namespace Action

/-! The errors are any; the actions of a program and of its parts differ in them. -/

variable {ε σ α β : Type} {s s' : σ}

@[simp] theorem run_pure (a : α) (s : σ) :
    (pure a : ExceptT ε (StateM σ) α).run s = (.ok a, s) := rfl

@[simp] theorem run_throw (e : ε) (s : σ) :
    (throw e : ExceptT ε (StateM σ) α).run s = (.error e, s) := rfl

@[simp] theorem run_get (s : σ) : (get : ExceptT ε (StateM σ) σ).run s = (.ok s, s) := rfl

@[simp] theorem run_set (t s : σ) :
    (set t : ExceptT ε (StateM σ) PUnit).run s = (.ok ⟨⟩, t) := rfl

@[simp] theorem run_modify (f : σ → σ) (s : σ) :
    (modify f : ExceptT ε (StateM σ) PUnit).run s = (.ok ⟨⟩, f s) := rfl

@[simp] theorem run_liftM (x : Except ε α) (s : σ) :
    (liftM x : ExceptT ε (StateM σ) α).run s = (x, s) := rfl

theorem run_bind (act : ExceptT ε (StateM σ) α) (k : α → ExceptT ε (StateM σ) β) (s : σ) :
    (act >>= k).run s = match act.run s with
      | (.ok a, t) => (k a).run t
      | (.error e, t) => (.error e, t) := by
  show (match act.run s with | (a, t) => ExceptT.bindCont k a t) = _
  rcases act.run s with ⟨_ | _, _⟩ <;> rfl

theorem run_bind_ok {act : ExceptT ε (StateM σ) α} {a : α} (h : act.run s = (.ok a, s'))
    (k : α → ExceptT ε (StateM σ) β) : (act >>= k).run s = (k a).run s' := by
  rw [run_bind, h]

theorem run_bind_error {act : ExceptT ε (StateM σ) α} {e : ε} (h : act.run s = (.error e, s'))
    (k : α → ExceptT ε (StateM σ) β) : (act >>= k).run s = (.error e, s') := by
  rw [run_bind, h]

theorem run_get_bind (k : σ → ExceptT ε (StateM σ) β) (s : σ) :
    (get >>= k).run s = (k s).run s := rfl

theorem run_eq_of_fst {act : ExceptT ε (StateM σ) α} {a : α} (h : (act.run s).1 = .ok a) :
    act.run s = (.ok a, (act.run s).2) := by
  rw [← h]
  rfl

theorem of_run_bind_ok {act : ExceptT ε (StateM σ) α} {k : α → ExceptT ε (StateM σ) β}
    {b : β} (h : (act >>= k).run s = (.ok b, s')) :
    ∃ a t, act.run s = (.ok a, t) ∧ (k a).run t = (.ok b, s') := by
  rw [run_bind] at h
  split at h
  · exact ⟨_, _, ‹_›, h⟩
  · cases h

theorem run_map (f : α → β) (act : ExceptT ε (StateM σ) α) (s : σ) :
    (f <$> act).run s = ((act.run s).1.map f, (act.run s).2) := by
  rw [map_eq_pure_bind, run_bind]
  rcases act.run s with ⟨_ | _, _⟩ <;> rfl

theorem run_discard_ok {act : ExceptT ε (StateM σ) α} {a : α} (h : act.run s = (.ok a, s')) :
    (discard act : ExceptT ε (StateM σ) PUnit).run s = (.ok ⟨⟩, s') := by
  show ((fun _ => PUnit.unit) <$> act).run s = _
  rw [run_map, h]
  rfl

/-! ## Relations along runs -/

/-- From the state `s` the action ends in a state related to `s` by `R`, and if it succeeds its
answer and that state satisfy `Q`. -/
structure Meets (R : σ → σ → Prop) (act : Action σ α) (s : σ) (Q : α → σ → Prop) : Prop where
  ends : R s (act.run s).2
  result : ∀ a t, act.run s = (.ok a, t) → Q a t

namespace Meets

variable {R : σ → σ → Prop} {act : Action σ α} {k : α → Action σ β} {Q Q' : α → σ → Prop}
  {P : β → σ → Prop}

theorem pure {a : α} (hs : R s s) (h : Q a s) : Meets R (pure a) s Q := by
  refine ⟨hs, ?_⟩
  intro b t hb
  cases hb
  exact h

theorem throw (hs : R s s) : Meets R (throw e : Action σ α) s Q :=
  ⟨hs, nofun⟩

theorem of_run {result : Except CompileError α} (hrun : act.run s = (result, s')) (hs : R s s')
    (h : ∀ a, result = .ok a → Q a s') : Meets R act s Q := by
  refine ⟨by rw [hrun]; exact hs, ?_⟩
  intro a t ha
  rw [hrun] at ha
  cases ha
  exact h a rfl

theorem of_run_ok {a : α} (hrun : act.run s = (.ok a, s')) (hs : R s s') (h : Q a s') :
    Meets R act s Q := by
  refine of_run hrun hs ?_
  intro b hb
  cases hb
  exact h

theorem mono (h : Meets R act s Q) (himp : ∀ a t, R s t → Q a t → Q' a t) : Meets R act s Q' := by
  refine ⟨h.ends, ?_⟩
  intro a t ha
  have hR := h.ends
  rw [ha] at hR
  exact himp a t hR (h.result a t ha)

theorem ite {c : Prop} [Decidable c] {act' : Action σ α} (h : c → Meets R act s Q)
    (h' : ¬c → Meets R act' s Q) : Meets R (if c then act else act') s Q := by
  split
  · exact h ‹c›
  · exact h' ‹¬c›

theorem forget (h : Meets R act s Q) : Meets R act s fun _ _ => True :=
  ⟨h.ends, fun _ _ _ => trivial⟩

theorem weaken {R' : σ → σ → Prop} (h : Meets R act s Q) (himp : ∀ t, R s t → R' s t) :
    Meets R' act s fun a t => R s t ∧ Q a t := by
  refine ⟨himp _ h.ends, ?_⟩
  intro a t ha
  have hR := h.ends
  rw [ha] at hR
  exact ⟨hR, h.result a t ha⟩

theorem bind [IsTrans σ R] (h : Meets R act s Q) (hk : ∀ a t, R s t → Q a t → Meets R (k a) t P) :
    Meets R (act >>= k) s P := by
  have hends := h.ends
  have hresult := h.result
  rcases hrun : act.run s with ⟨_ | a, t⟩
  · rw [hrun] at hends
    refine ⟨by rwa [run_bind_error hrun], ?_⟩
    intro b u hb
    rw [run_bind_error hrun] at hb
    cases hb
  · rw [hrun] at hends
    have hnext := hk a t hends (hresult a t hrun)
    refine ⟨?_, ?_⟩
    · rw [run_bind_ok hrun]
      exact trans_of R hends hnext.ends
    · intro b u hb
      rw [run_bind_ok hrun] at hb
      exact hnext.result b u hb

/-! The first step of a sequence, if it is a basic one. -/

theorem get_bind {k : σ → Action σ β} (h : Meets R (k s) s P) : Meets R (get >>= k) s P :=
  ⟨h.ends, h.result⟩

theorem pure_bind {a : α} (h : Meets R (k a) s P) : Meets R (Pure.pure a >>= k) s P :=
  ⟨h.ends, h.result⟩

theorem set_bind [IsTrans σ R] {t : σ} {k : PUnit → Action σ β} (hs : R s t)
    (h : Meets R (k ⟨⟩) t P) : Meets R (set t >>= k) s P :=
  ⟨trans_of R hs h.ends, h.result⟩

theorem modify_bind [IsTrans σ R] {f : σ → σ} {k : PUnit → Action σ β} (hs : R s (f s))
    (h : Meets R (k ⟨⟩) (f s) P) : Meets R (modify f >>= k) s P :=
  ⟨trans_of R hs h.ends, h.result⟩

theorem throw_bind (hs : R s s) : Meets R (MonadExcept.throw e >>= k) s P :=
  ⟨hs, nofun⟩

theorem liftM_bind {x : Except CompileError α} (hs : R s s) (h : ∀ a, x = .ok a → Meets R (k a) s P) :
    Meets R (MonadLiftT.monadLift x >>= k) s P := by
  cases x with
  | error e => exact ⟨hs, nofun⟩
  | ok a => exact ⟨(h a rfl).ends, (h a rfl).result⟩

/-! A basic step by itself. -/

theorem modify {f : σ → σ} {Q : PUnit → σ → Prop} (hs : R s (f s)) (h : Q ⟨⟩ (f s)) :
    Meets R (modify f) s Q := by
  refine ⟨hs, ?_⟩
  intro a t ha
  cases ha
  exact h

theorem liftM {x : Except CompileError α} (hs : R s s) (h : ∀ a, x = .ok a → Q a s) :
    Meets R (MonadLiftT.monadLift x) s Q := by
  refine ⟨hs, ?_⟩
  intro a t ha
  cases ha
  exact h a rfl

end Meets

/-! ## Invariants along runs -/

/-- The action leaves the state as it is, whatever it answers. -/
def Reads (act : Action σ α) : Prop := ∀ s, (act.run s).2 = s

/-- Whether it fails or not, the action leads from a state with the property to another one. -/
def Maintains (I : σ → Prop) (act : Action σ α) : Prop := ∀ s, I s → I (act.run s).2

section Invariants

variable {I : σ → Prop} {act act' : Action σ α} {k : α → Action σ β}

theorem run_bind_cases (P : σ → Prop) (herror : ∀ e t, act.run s = (.error e, t) → P t)
    (hok : ∀ a t, act.run s = (.ok a, t) → P ((k a).run t).2) : P ((act >>= k).run s).2 := by
  rcases hrun : act.run s with ⟨e | a, t⟩
  · rw [run_bind_error hrun]
    exact herror e t hrun
  · rw [run_bind_ok hrun]
    exact hok a t hrun

/-- A run whose answer passes a check is one that succeeds. -/
theorem exists_run_ok (act : Action σ α) (s : σ) (P : α → Prop) [DecidablePred P]
    (h : (act.run s).1.toOption.any (fun a => decide (P a)) = true) :
    ∃ a t, act.run s = (.ok a, t) ∧ P a := by
  rcases hrun : act.run s with ⟨_ | a, t⟩
  · rw [hrun] at h
    cases h
  · rw [hrun] at h
    exact ⟨a, t, rfl, of_decide_eq_true h⟩

namespace Reads

theorem pure (a : α) : Reads (Pure.pure a : Action σ α) := fun _ => rfl

theorem throw (e : CompileError) : Reads (MonadExcept.throw e : Action σ α) := fun _ => rfl

theorem get : Reads (MonadState.get : Action σ σ) := fun _ => rfl

theorem liftM (x : Except CompileError α) : Reads (MonadLiftT.monadLift x : Action σ α) :=
  fun _ => rfl

theorem ite (c : Prop) [Decidable c] (h : Reads act) (h' : Reads act') :
    Reads (if c then act else act') := by
  split
  · exact h
  · exact h'

theorem bind (h : Reads act) (hk : ∀ a, Reads (k a)) : Reads (act >>= k) := by
  intro s
  refine run_bind_cases (· = s) ?_ ?_
  · intro e t hrun
    exact (congrArg Prod.snd hrun).symm.trans (h s)
  · intro a t hrun
    exact (hk a t).trans ((congrArg Prod.snd hrun).symm.trans (h s))

theorem throw_bind : Reads (MonadExcept.throw e >>= k : Action σ β) :=
  fun _ => rfl

theorem map (f : α → β) (h : Reads act) : Reads (f <$> act) := by
  rw [map_eq_pure_bind]
  exact h.bind fun a => pure (f a)

theorem mapM {act : α → Action σ β} (h : ∀ a, Reads (act a)) (xs : List α) :
    Reads (xs.mapM act) := by
  induction xs with
  | nil => exact pure []
  | cons x xs ih =>
    rw [List.mapM_cons]
    exact (h x).bind fun _ => ih.bind fun _ => pure _

theorem run_eq (h : Reads act) {result : Except CompileError α} (hrun : act.run s = (result, s')) :
    s' = s :=
  (congrArg Prod.snd hrun).symm.trans (h s)

theorem maintains (h : Reads act) : Maintains I act := by
  intro s hs
  rw [h s]
  exact hs

theorem bind_cases (h : Reads act) (P : σ → Prop) (hs : P s)
    (hk : ∀ a, act.run s = (.ok a, s) → P ((k a).run s).2) : P ((act >>= k).run s).2 := by
  refine run_bind_cases P ?_ ?_
  · intro e t hrun
    rw [h.run_eq hrun]
    exact hs
  · intro a t hrun
    have ht := h.run_eq hrun
    subst ht
    exact hk a hrun

theorem maintains_bind (h : Reads act)
    (hk : ∀ s a, act.run s = (.ok a, s) → I s → I ((k a).run s).2) : Maintains I (act >>= k) :=
  fun s hs => h.bind_cases I hs fun a hrun => hk s a hrun hs

end Reads

namespace Maintains

theorem pure (a : α) : Maintains I (Pure.pure a : Action σ α) := (Reads.pure a).maintains

theorem throw (e : CompileError) : Maintains I (MonadExcept.throw e : Action σ α) :=
  (Reads.throw e).maintains

theorem throw_bind {e : CompileError} {k : α → Action σ β} :
    Maintains I (MonadExcept.throw e >>= k : Action σ β) :=
  Reads.throw_bind.maintains

theorem bind (h : Maintains I act) (hk : ∀ a, Maintains I (k a)) : Maintains I (act >>= k) := by
  intro s hs
  have hact := h s hs
  refine run_bind_cases I ?_ ?_
  · intro e t hrun
    rwa [hrun] at hact
  · intro a t hrun
    rw [hrun] at hact
    exact hk a t hact

theorem get_bind {k : σ → Action σ β} (hk : ∀ s, Maintains I (k s)) : Maintains I (get >>= k) :=
  Reads.get.maintains.bind hk

theorem ite (c : Prop) [Decidable c] (h : Maintains I act) (h' : Maintains I act') :
    Maintains I (if c then act else act') := by
  split
  · exact h
  · exact h'

theorem modify {f : σ → σ} (h : ∀ s, I s → I (f s)) :
    Maintains I (modify f : Action σ PUnit) := h

theorem map (f : α → β) (h : Maintains I act) : Maintains I (f <$> act) := by
  rw [map_eq_pure_bind]
  exact h.bind fun a => pure (f a)

theorem discard (h : Maintains I act) : Maintains I (Functor.discard act) := h.map _

theorem forM {act : α → Action σ PUnit} (h : ∀ a, Maintains I (act a)) (xs : List α) :
    Maintains I (xs.forM act) := by
  induction xs with
  | nil => exact pure _
  | cons x xs ih => exact (h x).bind fun _ => ih

end Maintains

end Invariants

end Action

end SecureTape
