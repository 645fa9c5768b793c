import LS8.Processor.Run

/-!
# Histories of a processor

An `Action` is something that can be done to a processor from outside: load a program, take a step,
run, or switch the tracing.  `perform` carries one out.  A failed action does not end a history; the
next one goes on from the state that it left behind.

A processor is *reachable* when some history leads to it from a new processor.  A run that never
ends leads nowhere.
-/

namespace LS8.Processor

/-- Something to be done to a processor. -/
inductive Action
  | load (program : List UInt8)
  | step
  | run (limit : Option UInt64)
  | setTracing (on : Bool)
  deriving DecidableEq, Repr

/-- Why an action failed. -/
inductive ActionError
  | load (e : MemoryError)
  | fault (e : Fault)
  deriving DecidableEq, Repr

def ActionError.message : ActionError → String
  | .load e => e.message
  | .fault e => e.message

/-- The outcome of an action, from the outcome of the operation that it consists of. -/
def ActionError.wrap {ε α β : Type} (cause : ε → ActionError) (value : α → β)
    (o : Outcome Processor ε α) : Outcome Processor ActionError β :=
  ⟨(o.result.mapError cause).map value, o.state, o.log⟩

/-- Carries an action out; `none` if it never ends.  A step gives the status after it, the other
actions give nothing. -/
def perform (p : Processor) : Action → Option (Outcome Processor ActionError (Option Status))
  | .load program => some (ActionError.wrap .load (fun _ => none) (load program p))
  | .step => some (ActionError.wrap .fault some (step p))
  | .run limit => (p.run limit).map (ActionError.wrap .fault fun _ => none)
  | .setTracing on => some ⟨.ok none, { p with tracing := on }, []⟩

/-- The relation between a processor and what a history makes of it. -/
inductive Reaches (p : Processor) : List Action → Processor → Prop
  | nil : Reaches p [] p
  | snoc {history : List Action} {q : Processor} {a : Action}
      {o : Outcome Processor ActionError (Option Status)} :
      Reaches p history q → q.perform a = some o → Reaches p (history ++ [a]) o.state

/-- Some history leads from a new processor to this one. -/
def Reachable (p : Processor) : Prop :=
  ∃ sink history, (initial sink).Reaches history p

/-! ## Longer histories -/

variable {p q : Processor}

theorem Reaches.trans {r : Processor} {first rest : List Action} (h : p.Reaches first q)
    (h' : q.Reaches rest r) : p.Reaches (first ++ rest) r := by
  induction h' with
  | nil =>
    rw [List.append_nil]
    exact h
  | snoc _ hlast ih =>
    rw [← List.append_assoc]
    exact .snoc ih hlast

section
variable {history : List Action} (h : p.Reaches history q)
include h

theorem Reaches.load (program : List UInt8) :
    p.Reaches (history ++ [.load program]) (Processor.load program q).state :=
  .snoc (o := ActionError.wrap .load (fun _ => none) (Processor.load program q)) h rfl

theorem Reaches.step : p.Reaches (history ++ [.step]) (Processor.step q).state :=
  .snoc (o := ActionError.wrap .fault some (Processor.step q)) h rfl

theorem Reaches.run {limit : Option UInt64} {o : Outcome Processor Fault Unit}
    (ho : q.run limit = some o) : p.Reaches (history ++ [.run limit]) o.state := by
  have hperform : q.perform (.run limit) =
      some (ActionError.wrap .fault (fun _ => none) o) := by
    rw [perform, ho]
    rfl
  exact .snoc h hperform

theorem Reaches.setTracing (on : Bool) :
    p.Reaches (history ++ [.setTracing on]) { q with tracing := on } :=
  .snoc (o := ⟨.ok none, { q with tracing := on }, []⟩) h rfl

end

end LS8.Processor
