import Mathlib.Tactic

/-!
# Calls with panics, error returns and state

A call of an imperative program, as a function of the state. It panics with a `P`, or it returns
a value or an error `E`; in both of the last cases the state it leaves is kept: an error return
undoes nothing.

`Sat x s Q R` says of the call `x` in the state `s`: if it returns a value then `Q` holds of the
value and the new state, and if it returns an error then `R` holds of the error and the new state.
A panic satisfies everything. The rules are equivalences, so that rewriting with them computes the
weakest precondition of a whole body.
-/

/-- A call that may panic with a `P`, or return an `α` or an error `E`. -/
def Act (P E S α : Type) : Type := S → Except P (Except E α × S)

namespace Act

variable {P E S α β : Type}

/-! ## Building calls -/

/-- The rest of a body: after a panic or an error return it does not run. -/
def bind (x : Act P E S α) (f : α → Act P E S β) : Act P E S β := fun s =>
  match x s with
  | .error p => .error p
  | .ok (.error e, s') => .ok (.error e, s')
  | .ok (.ok a, s') => f a s'

instance : Monad (Act P E S) where
  pure a := fun s => .ok (.ok a, s)
  bind := bind

/-- Return an error. -/
def fail (e : E) : Act P E S α := fun s => .ok (.error e, s)

/-- Panic. -/
def panic (p : P) : Act P E S α := fun _ => .error p

/-- The current state. -/
def get : Act P E S S := fun s => .ok (.ok s, s)

/-- Change the state. -/
def modify (f : S → S) : Act P E S Unit := fun s => .ok (.ok (), f s)

/-- Go on with `h` where `x` returns an error. -/
def orElse (x : Act P E S α) (h : E → Act P E S α) : Act P E S α := fun s =>
  match x s with
  | .error p => .error p
  | .ok (.error e, s') => h e s'
  | .ok (.ok a, s') => .ok (.ok a, s')

/-- Run a body for every entry of a list, in order. -/
def each (f : α → Act P E S Unit) : List α → Act P E S Unit
  | [] => pure ()
  | a :: l => do
      f a
      each f l

/-! ## What a call satisfies -/

/-- The call satisfies `Q` if it returns and `R` if it returns an error. -/
def Sat (x : Act P E S α) (s : S) (Q : α → S → Prop) (R : E → S → Prop) : Prop :=
  match x s with
  | .error _ => True
  | .ok (.ok a, s') => Q a s'
  | .ok (.error e, s') => R e s'

variable {x : Act P E S α} {f : α → Act P E S β} {s s' : S} {Q : α → S → Prop} {R : E → S → Prop}

theorem Sat.ok (h : Sat x s Q R) {a : α} (hx : x s = .ok (.ok a, s')) : Q a s' := by
  rw [Sat, hx] at h
  exact h

theorem Sat.error (h : Sat x s Q R) {e : E} (hx : x s = .ok (.error e, s')) : R e s' := by
  rw [Sat, hx] at h
  exact h

/-- Weaker postconditions. -/
theorem Sat.mono {Q' : α → S → Prop} {R' : E → S → Prop} (h : Sat x s Q R)
    (hQ : ∀ a s', Q a s' → Q' a s') (hR : ∀ e s', R e s' → R' e s') : Sat x s Q' R' := by
  unfold Sat at *
  rcases hx : x s with p | ⟨e | a, s'⟩
  · trivial
  · rw [hx] at h
    exact hR e s' h
  · rw [hx] at h
    exact hQ a s' h

theorem sat_congr {Q' : α → S → Prop} (hQ : ∀ a s', Q a s' ↔ Q' a s') :
    Sat x s Q R ↔ Sat x s Q' R :=
  ⟨fun h => h.mono (fun a s' => (hQ a s').mp) (fun _ _ h => h),
    fun h => h.mono (fun a s' => (hQ a s').mpr) (fun _ _ h => h)⟩

/-- A call satisfies what it does. -/
theorem sat_self (x : Act P E S α) (s : S) :
    Sat x s (fun a s' => x s = .ok (.ok a, s')) (fun e s' => x s = .ok (.error e, s')) := by
  unfold Sat
  rcases x s with p | ⟨e | a, s'⟩
  · trivial
  · rfl
  · rfl

theorem Sat.and {Q' : α → S → Prop} {R' : E → S → Prop} (h : Sat x s Q R) (h' : Sat x s Q' R') :
    Sat x s (fun a s' => Q a s' ∧ Q' a s') (fun e s' => R e s' ∧ R' e s') := by
  unfold Sat at *
  rcases hx : x s with p | ⟨e | a, s'⟩
  · trivial
  · rw [hx] at h h'
    exact ⟨h, h'⟩
  · rw [hx] at h h'
    exact ⟨h, h'⟩

theorem bind_ok {a : α} (h : x s = .ok (.ok a, s')) : (x >>= f) s = f a s' := by
  change bind x f s = _
  rw [bind, h]

theorem bind_error {e : E} (h : x s = .ok (.error e, s')) :
    (x >>= f) s = .ok (.error e, s') := by
  change bind x f s = _
  rw [bind, h]

@[simp] theorem sat_pure (a : α) : Sat (pure a : Act P E S α) s Q R ↔ Q a s := Iff.rfl

@[simp] theorem sat_bind {Q : β → S → Prop} :
    Sat (x >>= f) s Q R ↔ Sat x s (fun a s' => Sat (f a) s' Q R) R := by
  change Sat (bind x f) s Q R ↔ _
  unfold Sat bind
  rcases x s with p | ⟨e | a, s'⟩
  · exact Iff.rfl
  · exact Iff.rfl
  · exact Iff.rfl

@[simp] theorem sat_fail (e : E) : Sat (fail e : Act P E S α) s Q R ↔ R e s := Iff.rfl

@[simp] theorem sat_panic (p : P) : Sat (panic p : Act P E S α) s Q R ↔ True := Iff.rfl

@[simp] theorem sat_get {Q : S → S → Prop} : Sat (get : Act P E S S) s Q R ↔ Q s s := Iff.rfl

@[simp] theorem sat_modify {Q : Unit → S → Prop} (g : S → S) :
    Sat (modify g : Act P E S Unit) s Q R ↔ Q () (g s) := Iff.rfl

@[simp] theorem sat_orElse {h : E → Act P E S α} :
    Sat (orElse x h) s Q R ↔ Sat x s Q (fun e s' => Sat (h e) s' Q R) := by
  unfold Sat orElse
  rcases x s with p | ⟨e | a, s'⟩
  · exact Iff.rfl
  · exact Iff.rfl
  · exact Iff.rfl

/-! ## Calls that return -/

/-- The call returns a value, and `Q` holds of it and of the new state. -/
def Gives (x : Act P E S α) (s : S) (Q : α → S → Prop) : Prop :=
  match x s with
  | .ok (.ok a, s') => Q a s'
  | _ => False

theorem Gives.exists (h : Gives x s Q) : ∃ a s', x s = .ok (.ok a, s') ∧ Q a s' := by
  unfold Gives at h
  rcases hx : x s with p | ⟨e | a, s'⟩
  · rw [hx] at h
    exact h.elim
  · rw [hx] at h
    exact h.elim
  · rw [hx] at h
    exact ⟨a, s', rfl, h⟩

theorem Gives.orElse {h : E → Act P E S α} (hx : Gives x s Q) : Gives (orElse x h) s Q := by
  obtain ⟨a, s', hx, hQ⟩ := hx.exists
  rwa [Gives, Act.orElse, hx]

end Act
