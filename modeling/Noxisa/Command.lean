import Mathlib

/-!
# Commands that can fail and can panic

A command takes a state and ends in one of three ways: it returns a value, it
returns an error that its caller handles, or it panics.  In each case the state
it leaves behind is kept, so that what a failed command has already done can be
talked about.

`Spec P c Q` is the Hoare triple: from a state with `P`, whatever way `c` ends,
`Q` holds of the end and the state.  `Keeps I c` is the triple of an invariant,
and `Agree R c` compares two runs.
-/

/-- How a command ends. -/
inductive Outcome (ε α : Type) where
  | ok (a : α)
  | err (e : ε)
  | panic (message : String)
deriving DecidableEq

/-- A command over states `σ` with errors `ε`. -/
def Command (σ ε α : Type) : Type := σ → Outcome ε α × σ

namespace Command

variable {σ τ ε ε' α β : Type}

/-- A result without a change of the state. -/
def pure (a : α) : Command σ ε α := fun s => (.ok a, s)

/-- Run `x`, then `f` on its value; an error or a panic of `x` ends both. -/
def bind (x : Command σ ε α) (f : α → Command σ ε β) : Command σ ε β := fun s =>
  match x s with
  | (.ok a, t) => f a t
  | (.err e, t) => (.err e, t)
  | (.panic m, t) => (.panic m, t)

instance : Monad (Command σ ε) where
  pure := Command.pure
  bind := Command.bind

/-- End with an error. -/
def fail (e : ε) : Command σ ε α := fun s => (.err e, s)

/-- End with a panic. -/
def panic (message : String) : Command σ ε α := fun s => (.panic message, s)

/-- Change the state. -/
def modify (f : σ → σ) : Command σ ε Unit := fun s => (.ok (), f s)

/-- Look at the state. -/
def gets (f : σ → α) : Command σ ε α := fun s => (.ok (f s), s)

/-- Run a command on a part of the state. -/
def zoom (get : σ → τ) (set : τ → σ → σ) (x : Command τ ε α) : Command σ ε α := fun s =>
  ((x (get s)).1, set (x (get s)).2 s)

/-- Replace every error. -/
def mapErr (f : ε → ε') (x : Command σ ε α) : Command σ ε' α := fun s =>
  match x s with
  | (.ok a, t) => (.ok a, t)
  | (.err e, t) => (.err (f e), t)
  | (.panic m, t) => (.panic m, t)

/-- `for i in lo..lo + n` -/
def forRange (body : Nat → Command σ ε Unit) : Nat → Nat → Command σ ε Unit
  | _, 0 => Command.pure ()
  | lo, n + 1 => Command.bind (body lo) (fun _ => forRange body (lo + 1) n)

/-- Nothing after a panic or an error runs. -/
theorem bind_apply (x : Command σ ε α) (f : α → Command σ ε β) (s : σ) :
    (x >>= f) s =
      match x s with
      | (.ok a, t) => f a t
      | (.err e, t) => (.err e, t)
      | (.panic m, t) => (.panic m, t) := rfl

/-- What the ways to end a command and the two that look at the state compute. -/
@[simp] theorem pure_apply (a : α) (s : σ) : (Pure.pure a : Command σ ε α) s = (.ok a, s) := rfl

@[simp] theorem fail_apply (e : ε) (s : σ) : (fail e : Command σ ε α) s = (.err e, s) := rfl

@[simp] theorem panic_apply (m : String) (s : σ) :
    (panic m : Command σ ε α) s = (.panic m, s) := rfl

@[simp] theorem modify_apply (f : σ → σ) (s : σ) :
    (modify f : Command σ ε Unit) s = (.ok (), f s) := rfl

@[simp] theorem gets_apply (f : σ → α) (s : σ) :
    (gets f : Command σ ε α) s = (.ok (f s), s) := rfl

@[simp] theorem gets_bind (f : σ → α) (g : α → Command σ ε β) (s : σ) :
    (gets f >>= g) s = g (f s) s := rfl

@[simp] theorem modify_bind (f : σ → σ) (g : Unit → Command σ ε β) (s : σ) :
    (modify f >>= g) s = g () (f s) := rfl

/-- A sequence returns exactly when both halves do. -/
theorem bind_eq_ok {x : Command σ ε α} {f : α → Command σ ε β} {s u : σ} {b : β} :
    (x >>= f) s = (.ok b, u) ↔ ∃ a t, x s = (.ok a, t) ∧ f a t = (.ok b, u) := by
  rw [bind_apply]
  constructor
  · intro h
    split at h
    next a t heq => exact ⟨a, t, heq, h⟩
    next => simp at h
    next => simp at h
  · rintro ⟨a, t, heq, h⟩
    simp [heq, h]

/-- A run, from how it ends. -/
theorem eq_of_fst {c : Command σ ε α} {s : σ} {o : Outcome ε α} (h : (c s).1 = o) :
    c s = (o, (c s).2) :=
  Prod.ext h rfl

/-- A command whose outcome is known ends in some state. -/
theorem exists_of_fst {c : Command σ ε α} {s : σ} {o : Outcome ε α} (h : (c s).1 = o) :
    ∃ t, c s = (o, t) :=
  ⟨(c s).2, eq_of_fst h⟩

/-- Errors that are replaced do not touch a result. -/
theorem mapErr_eq_ok {f : ε → ε'} {x : Command σ ε α} {s t : σ} {a : α} :
    mapErr f x s = (.ok a, t) ↔ x s = (.ok a, t) := by
  unfold mapErr
  constructor
  · intro h
    split at h
    next b u heq =>
      obtain ⟨rfl, rfl⟩ : b = a ∧ u = t := by simpa using h
      exact heq
    next => simp at h
    next => simp at h
  · intro h
    simp [h]

/-- Nor the state. -/
theorem mapErr_snd (f : ε → ε') (x : Command σ ε α) (s : σ) : (mapErr f x s).2 = (x s).2 := by
  unfold mapErr
  split <;> simp [*]

/-- A command on a part of the state, seen from the whole. -/
theorem zoom_eq_ok {get : σ → τ} {set : τ → σ → σ} {x : Command τ ε α} {s t : σ} {a : α} :
    zoom get set x s = (.ok a, t) ↔ ∃ u, x (get s) = (.ok a, u) ∧ t = set u s := by
  unfold zoom
  constructor
  · intro h
    obtain ⟨h1, h2⟩ := Prod.mk.inj h
    exact ⟨_, Prod.ext h1 rfl, h2.symm⟩
  · rintro ⟨u, h, rfl⟩
    simp [h]

/-- The triple: from `P`, however `c` ends, `Q` holds. -/
def Spec (P : σ → Prop) (c : Command σ ε α) (Q : Outcome ε α → σ → Prop) : Prop :=
  ∀ s, P s → Q (c s).1 (c s).2

/-- `c` keeps `I`, however it ends. -/
def Keeps (I : σ → Prop) (c : Command σ ε α) : Prop := Spec I c (fun _ => I)

section

variable {P : σ → Prop} {I : σ → Prop} {Q : Outcome ε β → σ → Prop}

/-- The sequence rule: after `x`, a value goes on and a failure is the end. -/
theorem Spec.seq {R : Outcome ε α → σ → Prop} {x : Command σ ε α} {f : α → Command σ ε β}
    (hx : Spec P x R) (hf : ∀ a, Spec (R (.ok a)) (f a) Q)
    (herr : ∀ e s, R (.err e) s → Q (.err e) s)
    (hpanic : ∀ m s, R (.panic m) s → Q (.panic m) s) : Spec P (x >>= f) Q := by
  intro s hs
  have h := hx s hs
  rw [bind_apply]
  split
  next a t heq => rw [heq] at h; exact hf a t h
  next e t heq => rw [heq] at h; exact herr e t h
  next m t heq => rw [heq] at h; exact hpanic m t h

/-- The sequence rule with the failures of `x` in place. -/
theorem Spec.bind {R : α → σ → Prop} {x : Command σ ε α} {f : α → Command σ ε β}
    (hx : Spec P x (fun o s => match o with
      | .ok a => R a s
      | .err e => Q (.err e) s
      | .panic m => Q (.panic m) s))
    (hf : ∀ a, Spec (R a) (f a) Q) : Spec P (x >>= f) Q :=
  hx.seq hf (fun _ _ h => h) (fun _ _ h => h)

/-- The consequence rule. -/
theorem Spec.conseq {P' : σ → Prop} {Q' : Outcome ε β → σ → Prop} {c : Command σ ε β}
    (h : Spec P c Q) (hpre : ∀ s, P' s → P s) (hpost : ∀ o s, Q o s → Q' o s) :
    Spec P' c Q' :=
  fun s hs => hpost _ _ (h s (hpre s hs))

/-- A fact about the values, out of the precondition. -/
theorem Spec.pull {p : Prop} {c : Command σ ε β} (h : p → Spec P c Q) :
    Spec (fun s => p ∧ P s) c Q :=
  fun s hs => h hs.1 s hs.2

/-- A look at the state first, whatever it sees. -/
theorem Spec.gets {f : σ → α} {g : α → Command σ ε β} (hg : ∀ a, Spec P (g a) Q) :
    Spec P (Command.gets f >>= g) Q :=
  fun s hs => hg (f s) s hs

/-- A change of the state first. -/
theorem Spec.modify {P' : σ → Prop} {f : σ → σ} {g : Unit → Command σ ε β}
    (hg : Spec P' (g ()) Q) (hf : ∀ s, P s → P' (f s)) : Spec P (Command.modify f >>= g) Q :=
  fun s hs => hg (f s) (hf s hs)

/-- The triple with the errors replaced. -/
theorem Spec.mapErr {R : Outcome ε' β → σ → Prop} {c : Command σ ε β} {f : ε → ε'} (h : Spec P c Q)
    (hok : ∀ b s, Q (.ok b) s → R (.ok b) s) (herr : ∀ e s, Q (.err e) s → R (.err (f e)) s)
    (hpanic : ∀ m s, Q (.panic m) s → R (.panic m) s) : Spec P (Command.mapErr f c) R := by
  intro s hs
  have hend := h s hs
  unfold Command.mapErr
  split
  next a t heq => rw [heq] at hend; exact hok a t hend
  next e t heq => rw [heq] at hend; exact herr e t hend
  next m t heq => rw [heq] at hend; exact hpanic m t hend

/-- One command after the other. -/
theorem Keeps.bind {x : Command σ ε α} {f : α → Command σ ε β} (hx : Keeps I x)
    (hf : ∀ a, Keeps I (f a)) : Keeps I (x >>= f) := by
  refine Spec.bind (R := fun _ => I) (fun s hs => ?_) hf
  have h := hx s hs
  dsimp only
  cases (x s).1 <;> exact h

/-- A result keeps everything. -/
theorem Keeps.pure (a : α) : Keeps I (Pure.pure a : Command σ ε α) := fun _ hs => hs

/-- So does an error. -/
theorem Keeps.fail (e : ε) : Keeps I (Command.fail e : Command σ ε α) := fun _ hs => hs

/-- So does a panic. -/
theorem Keeps.panic (m : String) : Keeps I (Command.panic m : Command σ ε α) := fun _ hs => hs

/-- A change keeps what it keeps. -/
theorem Keeps.modify {f : σ → σ} (h : ∀ s, I s → I (f s)) :
    Keeps I (Command.modify f : Command σ ε Unit) := h

/-- Replacing the errors keeps what the command keeps. -/
theorem Keeps.mapErr {x : Command σ ε α} (hx : Keeps I x) (f : ε → ε') : Keeps I (mapErr f x) := by
  intro s hs
  rw [mapErr_snd]
  exact hx s hs

/-- A look at the state keeps everything. -/
theorem Keeps.gets (f : σ → α) : Keeps I (Command.gets f : Command σ ε α) := fun _ hs => hs

/-- What a kept invariant says of a run that returns. -/
theorem Keeps.of_ok {c : Command σ ε α} (h : Keeps I c) {s t : σ} {o : Outcome ε α}
    (hs : I s) (hrun : c s = (o, t)) : I t := by
  have := h s hs
  rwa [hrun] at this

/-- **The loop rule**: an invariant that knows how far the loop has come, and
what holds where the body fails. -/
theorem Spec.forRange {I : Nat → σ → Prop} {F : Outcome ε Unit → σ → Prop}
    {body : Nat → Command σ ε Unit} {lo n : Nat}
    (hbody : ∀ i, lo ≤ i → i < lo + n → Spec (I i) (body i) (fun o s =>
      match o with
      | .ok _ => I (i + 1) s
      | .err e => F (.err e) s
      | .panic m => F (.panic m) s)) :
    Spec (I lo) (Command.forRange body lo n) (fun o s =>
      match o with
      | .ok _ => I (lo + n) s
      | .err e => F (.err e) s
      | .panic m => F (.panic m) s) := by
  induction n generalizing lo with
  | zero => exact fun s hs => hs
  | succ n ih =>
      refine Spec.seq (hbody lo (Nat.le_refl lo) (by omega)) (fun _ => ?_)
        (fun _ _ h => h) (fun _ _ h => h)
      have hrest := @ih (lo + 1) (fun i hlo hhi => hbody i (by omega) (by omega))
      rwa [Nat.add_right_comm, Nat.add_assoc] at hrest

/-- Two loops are one if their bodies agree wherever the loop gets to. -/
theorem forRange_congr {I : Nat → σ → Prop} {body body' : Nat → Command σ ε Unit} {lo n : Nat}
    (hbody : ∀ i, lo ≤ i → i < lo + n → ∀ s, I i s →
      body i s = body' i s ∧ ∀ t, body i s = (.ok (), t) → I (i + 1) t)
    {s : σ} (hs : I lo s) : forRange body lo n s = forRange body' lo n s := by
  induction n generalizing lo s with
  | zero => rfl
  | succ n ih =>
      obtain ⟨hsame, hnext⟩ := hbody lo (Nat.le_refl lo) (by omega) s hs
      simp only [forRange, Command.bind, ← hsame]
      cases hrun : body lo s with
      | mk o t =>
          cases o with
          | ok _ =>
              exact ih (fun i hlo hhi => hbody i (by omega) (by omega)) (hnext t hrun)
          | err e => rfl
          | panic m => rfl

end

/-- From related states, `c` ends in the same way and in related states. -/
def Agree (R : σ → σ → Prop) (c : Command σ ε α) : Prop :=
  ∀ s t, R s t → (c s).1 = (c t).1 ∧ R (c s).2 (c t).2

section

variable {R : σ → σ → Prop}

/-- Two commands that agree, and what follows them. -/
theorem Agree.bind {x : Command σ ε α} {f : α → Command σ ε β} (hx : Agree R x)
    (hf : ∀ a, Agree R (f a)) : Agree R (x >>= f) := by
  intro s t h
  obtain ⟨hout, hrel⟩ := hx s t h
  rw [bind_apply, bind_apply]
  cases hs : x s with
  | mk o s' =>
      cases ht : x t with
      | mk o' t' =>
          rw [hs, ht] at hout hrel
          obtain rfl : o = o' := hout
          cases o with
          | ok a => exact hf a s' t' hrel
          | err e => exact ⟨rfl, hrel⟩
          | panic m => exact ⟨rfl, hrel⟩

/-- A result agrees with itself. -/
theorem Agree.pure (a : α) : Agree R (Pure.pure a : Command σ ε α) := fun _ _ h => ⟨rfl, h⟩

/-- A change that keeps the relation. -/
theorem Agree.modify {f : σ → σ} (h : ∀ s t, R s t → R (f s) (f t)) :
    Agree R (Command.modify f : Command σ ε Unit) :=
  fun s t hst => ⟨rfl, h s t hst⟩

/-- A look at the state that sees the same in related states. -/
theorem Agree.gets {f : σ → α} {g : α → Command σ ε β} (hf : ∀ s t, R s t → f t = f s)
    (hg : ∀ a, Agree R (g a)) : Agree R (Command.gets f >>= g) := by
  intro s t h
  rw [gets_bind, gets_bind, hf s t h]
  exact hg (f s) s t h

end

end Command
