import LS8.Proofs.Alike
import LS8.Proofs.Steps

/-!
# How far ahead a run has to look

A run without a limit is computed by looking `horizon` steps ahead.  That is enough: a processor that
stops at all stops within that many steps (`StopsAt.le_horizon`).

The argument counts states.  A running processor whose next step succeeds has its program counter
inside memory, so up to alikeness it is given by its `Key`, a member of a finite type with
`configurations * (room + 1)` elements; a sink never gets more room.  The horizon is larger, so two of
the states before it are alike.  From there on both take the same steps, and the first stop after the
later of the two would have a match after the earlier one.
-/

namespace LS8.Processor

variable {p q : Processor} {k n : Nat}

/-! ## What bounds the states of a run -/

theorem counter_lt_of_step_ok {status : Status} (hrun : p.status = .running)
    (h : (step p).result = .ok status) : p.counter < 256 := by
  by_contra hge
  have hread : p.memory.read p.counter = .error (.outOfBounds p.counter 256) := by
    simp [Memory.read, hge]
  rw [step_of_running hrun] at h
  simp [Decoding.instruction, hread] at h

theorem sink_execute (i : Instruction) (p : Processor) :
    (execute i p).state.sink.capacity = p.sink.capacity ∧
      (execute i p).state.room ≤ p.room := by
  by_cases hprint : ∃ reg, i = .print reg
  · obtain ⟨reg, rfl⟩ := hprint
    rw [execute_print]
    split_ifs
    · exact ⟨rfl, room_printed p _ ▸ Nat.sub_le ..⟩
    · exact ⟨rfl, room_printed p _ ▸ Nat.sub_le ..⟩
    · exact ⟨rfl, le_refl _⟩
  · push Not at hprint
    have hsink := (surroundings_execute hprint p).2.2
    exact ⟨congrArg Sink.capacity hsink, by simp [room, hsink]⟩

theorem sink_step (p : Processor) :
    (step p).state.sink.capacity = p.sink.capacity ∧ (step p).state.room ≤ p.room := by
  cases hrun : p.status with
  | halted => simp [step_of_halted hrun]
  | running =>
    rw [step_of_running hrun]
    cases (Decoding.instruction p.memory.read p.counter).result with
    | error e => exact ⟨rfl, le_refl _⟩
    | ok i =>
      have hsink := sink_execute i p
      rcases hx : execute i p with ⟨e | c, p', log⟩
      · simpa [hx] using hsink
      · simpa [hx, room] using hsink

theorem sink_after (p : Processor) (n : Nat) :
    (p.after n).sink.capacity = p.sink.capacity ∧ (p.after n).room ≤ p.room := by
  induction n with
  | zero => exact ⟨rfl, le_refl _⟩
  | succ n ih =>
    obtain ⟨hcapacity, hroom⟩ := sink_step (p.after n)
    rw [after_succ']
    exact ⟨hcapacity.trans ih.1, hroom.trans ih.2⟩

theorem Alike.after (h : Alike p q) (n : Nat) : Alike (p.after n) (q.after n) := by
  induction n with
  | zero => exact h
  | succ n ih =>
    rw [after_succ', after_succ']
    exact ih.step.2

/-! ## Keys -/

/-- What determines, up to alikeness, a running processor whose sink has at most `bound` characters
of room. -/
abbrev Key (bound : Nat) : Type :=
  (Fin 256 → Fin UInt8.size) × (Fin 8 → Fin UInt8.size) × Option Ordering × Fin 256 ×
    Fin (bound + 1)

theorem card_key (bound : Nat) : Fintype.card (Key bound) = configurations * (bound + 1) := by
  have hmemory : Fintype.card (Fin 256 → Fin UInt8.size) = Nat.pow 256 256 := by
    rw [Fintype.card_fun, Fintype.card_fin]
    rfl
  have hregisters : Fintype.card (Fin 8 → Fin UInt8.size) = Nat.pow 256 8 := by
    rw [Fintype.card_fun, Fintype.card_fin, Fintype.card_fin]
    rfl
  have hflags : Fintype.card (Option Ordering) = 4 := rfl
  rw [Fintype.card_prod, Fintype.card_prod, Fintype.card_prod, Fintype.card_prod, hmemory,
    hregisters, hflags, Fintype.card_fin, Fintype.card_fin, configurations]
  ring

/-- The key of a processor. -/
def key (bound : Nat) (p : Processor) : Key bound :=
  (fun a => p.memory.cells[a].toFin, fun r => p.registers.values[r].toFin, p.flags.last,
    Fin.ofNat 256 p.counter, Fin.ofNat (bound + 1) p.room)

theorem alike_of_key {bound : Nat} (hkey : key bound p = key bound q)
    (hstatus : p.status = q.status) (hp : p.counter < 256) (hq : q.counter < 256)
    (hcapacity : p.sink.capacity = q.sink.capacity) (hproom : p.room ≤ bound)
    (hqroom : q.room ≤ bound) : Alike p q := by
  simp only [key, Prod.mk.injEq] at hkey
  obtain ⟨hmemory, hregisters, hflags, hcounter, hroom⟩ := hkey
  have hmemory' : p.memory.cells = q.memory.cells := by
    ext a ha
    exact congrArg UInt8.toNat (UInt8.toFin_inj.mp (congrFun hmemory ⟨a, ha⟩))
  have hregisters' : p.registers.values = q.registers.values := by
    ext r hr
    exact congrArg UInt8.toNat (UInt8.toFin_inj.mp (congrFun hregisters ⟨r, hr⟩))
  have hcounter' : p.counter = q.counter := by
    have := congrArg Fin.val hcounter
    simpa [Fin.ofNat, Nat.mod_eq_of_lt hp, Nat.mod_eq_of_lt hq] using this
  have hroom' : p.room = q.room := by
    have := congrArg Fin.val hroom
    simpa [Fin.ofNat, Nat.mod_eq_of_lt (Nat.lt_succ_of_le hproom),
      Nat.mod_eq_of_lt (Nat.lt_succ_of_le hqroom)] using this
  refine ⟨?_, hcapacity.symm, hroom'.symm⟩
  obtain ⟨⟨_⟩, ⟨_⟩, ⟨_⟩, _, _, _, _, _⟩ := p
  obtain ⟨⟨_⟩, ⟨_⟩, ⟨_⟩, _, _, _, _, _⟩ := q
  subst hmemory' hregisters' hflags hcounter' hstatus
  rfl

/-! ## Looking ahead -/

/-- If two states are alike, the processor does not stop after the later one: the same stop would
have come after the earlier one already. -/
theorem StopsAt.le_of_alike {a b : Nat} (h : p.StopsAt k) (halike : Alike (p.after a) (p.after b))
    (hab : a < b) : k ≤ b := by
  cases k with
  | zero => exact h.elim
  | succ m =>
    obtain ⟨hlasts, hstop⟩ := h
    by_contra hlt
    obtain ⟨n, rfl⟩ : ∃ n, m = b + n := Nat.exists_eq_add_of_le (by omega)
    have hresult := (halike.after n).step.1
    rw [← after_add, ← after_add] at hresult
    exact hstop (hresult.trans (hlasts (a + n) (by omega)))

/-- A processor that stops does so within the horizon. -/
theorem StopsAt.le_horizon (hrun : p.status = .running) (h : p.StopsAt k) : k ≤ p.horizon := by
  by_contra hlt
  have hlasts : p.Lasts p.horizon := by
    cases k with
    | zero => exact h.elim
    | succ m => exact h.1.mono (by omega)
  have hstate : ∀ j < p.horizon, (p.after j).status = .running ∧ (p.after j).counter < 256 := by
    intro j hj
    have hbefore := ((hlasts.mono hj.le).after hrun).1
    exact ⟨hbefore, counter_lt_of_step_ok hbefore (hlasts j hj)⟩
  have hcard : Fintype.card (Key p.room) < Fintype.card (Fin p.horizon) := by
    rw [card_key, Fintype.card_fin, horizon]
    exact Nat.mul_lt_mul_of_pos_right (Nat.lt_succ_self _) (Nat.succ_pos _)
  obtain ⟨a, b, hab, hkey⟩ : ∃ a b : Fin p.horizon, a < b ∧
      key p.room (p.after a) = key p.room (p.after b) := by
    obtain ⟨a, b, hne, hkey⟩ := Fintype.exists_ne_map_eq_of_card_lt
      (fun j : Fin p.horizon => key p.room (p.after j)) hcard
    rcases lt_or_gt_of_ne hne with hlt | hgt
    · exact ⟨a, b, hlt, hkey⟩
    · exact ⟨b, a, hgt, hkey.symm⟩
  obtain ⟨hacapacity, haroom⟩ := p.sink_after a
  obtain ⟨hbcapacity, hbroom⟩ := p.sink_after b
  obtain ⟨hastatus, hacounter⟩ := hstate a a.isLt
  obtain ⟨hbstatus, hbcounter⟩ := hstate b b.isLt
  have halike : Alike (p.after a) (p.after b) :=
    alike_of_key hkey (hastatus.trans hbstatus.symm) hacounter hbcounter
      (hacapacity.trans hbcapacity.symm) haroom hbroom
  have := h.le_of_alike halike hab
  omega

end LS8.Processor
