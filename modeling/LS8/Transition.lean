import LS8.Event

/-!
# Operations on a state

A `Transition σ ε α` is an operation on a state of type `σ` that gives an `α` or fails with an `ε`.
Either way it leaves a state behind and has reported some events, so an `Outcome` holds all three.
That a failure keeps the state reached so far is the point of the definition: an instruction that
fails half-way is not undone.

An outcome's log holds the operation's own events only.  Sequencing joins the logs, and nothing can
read or remove what has been reported.

## Main definitions

* `Outcome`, `Transition`, and the monad on the latter;
* `Transition.report`, `Transition.ofExcept`: reporting an event, failing with a given error;
* `Transition.mapError`: the same operation under another type of errors;
* `Transition.on`: an operation on a part, as an operation on the whole.
-/

namespace LS8

/-- What an operation leaves behind. -/
structure Outcome (σ ε α : Type) where
  /-- What the operation gives, or why it failed. -/
  result : Except ε α
  /-- The state left behind, after a failure too. -/
  state : σ
  /-- The events reported, in order. -/
  log : List Event

/-- An operation on a state, which may fail and which reports events. -/
def Transition (σ ε α : Type) : Type := σ → Outcome σ ε α

namespace Transition

variable {σ τ ε δ α β : Type}

/-- Gives a value and does nothing. -/
protected def pure (a : α) : Transition σ ε α := fun s => ⟨.ok a, s, []⟩

/-- Goes on with `f` from the state that `t` leaves behind, unless `t` fails. -/
protected def bind (t : Transition σ ε α) (f : α → Transition σ ε β) : Transition σ ε β :=
  fun s =>
    match t s with
    | ⟨.ok a, s', log⟩ =>
      let next := f a s'
      ⟨next.result, next.state, log ++ next.log⟩
    | ⟨.error e, s', log⟩ => ⟨.error e, s', log⟩

instance : Monad (Transition σ ε) where
  pure := Transition.pure
  bind := Transition.bind

instance : MonadStateOf σ (Transition σ ε) where
  get := fun s => ⟨.ok s, s, []⟩
  set s := fun _ => ⟨.ok (), s, []⟩
  modifyGet f := fun s => ⟨.ok (f s).1, (f s).2, []⟩

/-- Fails, and leaves the state as it is. -/
def fail (e : ε) : Transition σ ε α := fun s => ⟨.error e, s, []⟩

/-- Reports one event. -/
def report (e : Event) : Transition σ ε Unit := fun s => ⟨.ok (), s, [e]⟩

/-- Reports several events. -/
def reportAll (log : List Event) : Transition σ ε Unit := fun s => ⟨.ok (), s, log⟩

/-- Gives the value, or fails with the error. -/
def ofExcept (r : Except ε α) : Transition σ ε α := fun s => ⟨r, s, []⟩

/-- The same operation, with every error passed through `f`. -/
def mapError (f : ε → δ) (t : Transition σ ε α) : Transition σ δ α := fun s =>
  match t s with
  | ⟨.ok a, s', log⟩ => ⟨.ok a, s', log⟩
  | ⟨.error e, s', log⟩ => ⟨.error (f e), s', log⟩

/-- The operation `t` on the part of a whole that `part` reads and `put` replaces. -/
def on (part : τ → σ) (put : τ → σ → τ) (t : Transition σ ε α) : Transition τ ε α := fun s =>
  let o := t (part s)
  ⟨o.result, put s o.state, o.log⟩

/-! ## What the operations do to a state -/

@[simp] theorem pure_apply (a : α) (s : σ) : (pure a : Transition σ ε α) s = ⟨.ok a, s, []⟩ := rfl

theorem bind_apply (t : Transition σ ε α) (f : α → Transition σ ε β) (s : σ) :
    (t >>= f) s =
      match t s with
      | ⟨.ok a, s', log⟩ => ⟨(f a s').result, (f a s').state, log ++ (f a s').log⟩
      | ⟨.error e, s', log⟩ => ⟨.error e, s', log⟩ := rfl

@[simp] theorem map_apply (f : α → β) (t : Transition σ ε α) (s : σ) :
    (f <$> t) s = ⟨(t s).result.map f, (t s).state, (t s).log⟩ := by
  show Transition.bind t (fun a => Transition.pure (f a)) s = _
  rcases h : t s with ⟨r | r, s', log⟩ <;> simp [Transition.bind, Transition.pure, Except.map, h]

@[simp] theorem get_apply (s : σ) : (get : Transition σ ε σ) s = ⟨.ok s, s, []⟩ := rfl

@[simp] theorem set_apply (s s' : σ) : (set s' : Transition σ ε PUnit) s = ⟨.ok (), s', []⟩ := rfl

@[simp] theorem modify_apply (f : σ → σ) (s : σ) :
    (modify f : Transition σ ε PUnit) s = ⟨.ok (), f s, []⟩ := rfl

@[simp] theorem fail_apply (e : ε) (s : σ) : (fail e : Transition σ ε α) s = ⟨.error e, s, []⟩ :=
  rfl

@[simp] theorem report_apply (e : Event) (s : σ) :
    (report e : Transition σ ε Unit) s = ⟨.ok (), s, [e]⟩ := rfl

@[simp] theorem ofExcept_apply (r : Except ε α) (s : σ) :
    (ofExcept r : Transition σ ε α) s = ⟨r, s, []⟩ := rfl

protected theorem id_map (t : Transition σ ε α) : id <$> t = t := by
  funext s
  show Transition.bind t (fun a => Transition.pure (id a)) s = t s
  rcases h : t s with ⟨r | r, s', log⟩ <;> simp [Transition.bind, Transition.pure, h]

protected theorem bind_assoc {γ : Type} (t : Transition σ ε α) (f : α → Transition σ ε β)
    (g : β → Transition σ ε γ) : (t >>= f) >>= g = t >>= fun a => f a >>= g := by
  funext s
  show Transition.bind (Transition.bind t f) g s
    = Transition.bind t (fun a => Transition.bind (f a) g) s
  rcases h : t s with ⟨r | r, s', log⟩
  · simp [Transition.bind, h]
  · rcases h' : f r s' with ⟨r' | r', s'', log'⟩ <;> simp [Transition.bind, h, h']

instance : LawfulMonad (Transition σ ε) :=
  LawfulMonad.mk' _ Transition.id_map (fun _ _ => rfl) Transition.bind_assoc

end Transition

end LS8
