import Mathlib

namespace JavaLift

/-- What holds of the result of an action and of the state after it. -/
def Ends {σ α : Type} (m : StateM σ α) (s : σ) (Q : α → σ → Prop) : Prop := Q (m s).1 (m s).2

namespace Ends

variable {σ α β : Type} {s : σ}

theorem pure {x : α} {Q : α → σ → Prop} (h : Q x s) : Ends (Pure.pure x) s Q := h

theorem bind {m : StateM σ α} {f : α → StateM σ β} {Q : β → σ → Prop} (h : Ends m s fun a t => Ends (f a) t Q) :
    Ends (m >>= f) s Q := h

theorem get {f : σ → StateM σ β} {Q : β → σ → Prop} (h : Ends (f s) s Q) : Ends (MonadState.get >>= f) s Q := h

theorem set {t : σ} {m : StateM σ β} {Q : β → σ → Prop} (h : Ends m t Q) :
    Ends (MonadStateOf.set t >>= fun _ => m) s Q := h

theorem modify {f : σ → σ} {m : StateM σ β} {Q : β → σ → Prop} (h : Ends m (f s) Q) :
    Ends (MonadStateOf.modifyGet (fun s => ((), f s)) >>= fun _ => m) s Q := h

theorem any {m : StateM σ α} {Q : α → σ → Prop} (h : ∀ a t, Q a t) : Ends m s Q := h _ _

theorem mono {m : StateM σ α} {Q Q' : α → σ → Prop} (h : Ends m s Q) (hQ : ∀ a t, Q a t → Q' a t) : Ends m s Q' :=
  hQ _ _ h

theorem and {m : StateM σ α} {Q Q' : α → σ → Prop} (h : Ends m s Q) (h' : Ends m s Q') :
    Ends m s fun a t => Q a t ∧ Q' a t := ⟨h, h'⟩

theorem ite {c : Prop} [Decidable c] {m m' : StateM σ α} {Q : α → σ → Prop} (h : c → Ends m s Q)
    (h' : ¬ c → Ends m' s Q) : Ends (if c then m else m') s Q := by
  split
  · exact h ‹_›
  · exact h' ‹_›

end Ends

/-- Two actions with the same outcome from a state, and what holds of it. -/
def Alike {σ α : Type} (m m' : StateM σ α) (s : σ) (Q : α → σ → Prop) : Prop := m s = m' s ∧ Ends m s Q

namespace Alike

variable {σ α β : Type} {s : σ}

theorem refl {m : StateM σ α} {Q : α → σ → Prop} (h : Ends m s Q) : Alike m m s Q := ⟨rfl, h⟩

theorem pure {x : α} {Q : α → σ → Prop} (h : Q x s) : Alike (Pure.pure x) (Pure.pure x) s Q := ⟨rfl, h⟩

theorem bind {m m' : StateM σ α} {f f' : α → StateM σ β} {Q : β → σ → Prop}
    (h : Alike m m' s fun a t => Alike (f a) (f' a) t Q) : Alike (m >>= f) (m' >>= f') s Q := by
  obtain ⟨hm, hf, hQ⟩ := h
  refine ⟨?_, hQ⟩
  change f (m s).1 (m s).2 = f' (m' s).1 (m' s).2
  rw [← hm]
  exact hf

theorem get {f f' : σ → StateM σ β} {Q : β → σ → Prop} (h : Alike (f s) (f' s) s Q) :
    Alike (MonadState.get >>= f) (MonadState.get >>= f') s Q := h

theorem modify {f : σ → σ} {m m' : StateM σ β} {Q : β → σ → Prop} (h : Alike m m' (f s) Q) :
    Alike (MonadStateOf.modifyGet (fun s => ((), f s)) >>= fun _ => m)
      (MonadStateOf.modifyGet (fun s => ((), f s)) >>= fun _ => m') s Q := h

theorem and {m m' : StateM σ α} {Q Q' : α → σ → Prop} (h : Alike m m' s Q) (h' : Ends m s Q') :
    Alike m m' s fun a t => Q a t ∧ Q' a t := ⟨h.1, h.2, h'⟩

theorem mono {m m' : StateM σ α} {Q Q' : α → σ → Prop} (h : Alike m m' s Q) (hQ : ∀ a t, Q a t → Q' a t) :
    Alike m m' s Q' := ⟨h.1, h.2.mono hQ⟩

theorem ite {c : Prop} [Decidable c] {m₁ m₁' m₂ m₂' : StateM σ α} {Q : α → σ → Prop} (h : c → Alike m₁ m₁' s Q)
    (h' : ¬ c → Alike m₂ m₂' s Q) : Alike (if c then m₁ else m₂) (if c then m₁' else m₂') s Q := by
  by_cases hc : c
  · rw [if_pos hc, if_pos hc]
    exact h hc
  · rw [if_neg hc, if_neg hc]
    exact h' hc

end Alike

end JavaLift
