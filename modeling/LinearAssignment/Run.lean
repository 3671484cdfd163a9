/-!
A computation that reports events on its way and may fail. The events that came before a
failure are kept.
-/
namespace LinearAssignment

/-- What comes after a step that may fail is computed only if it does not. -/
theorem exists_of_bind_eq_ok {ε α β : Type} {x : Except ε α} {next : α → Except ε β} {r : β}
    (h : x >>= next = .ok r) : ∃ a, x = .ok a ∧ next a = .ok r := by
  cases x with
  | error e => exact nomatch h
  | ok a => exact ⟨a, rfl, h⟩

theorem eq_ok_of_toOption {ε α : Type} {x : Except ε α} {a : α} (h : x.toOption = some a) :
    x = .ok a := by
  cases x with
  | error e => exact nomatch h
  | ok b => rw [Option.some.inj h]

/-- The events of a computation, in order, and its outcome. -/
structure Run (event error result : Type) where
  events : List event
  outcome : Except error result

namespace Run

variable {event error result other : Type}

def ofExcept (r : Except error result) : Run event error result := ⟨[], r⟩

def emit (e : event) : Run event error Unit := ⟨[e], .ok ()⟩

def bind (r : Run event error result) (next : result → Run event error other) :
    Run event error other :=
  match r.outcome with
  | .error e => ⟨r.events, .error e⟩
  | .ok x => ⟨r.events ++ (next x).events, (next x).outcome⟩

instance : Monad (Run event error) where
  pure x := ⟨[], .ok x⟩
  bind := bind

@[simp] theorem outcome_pure (x : result) : (pure x : Run event error result).outcome = .ok x := rfl

theorem outcome_emit_bind (e : event) (next : Unit → Run event error other) :
    (emit e >>= next).outcome = (next ()).outcome := rfl

theorem emit_bind (e : event) (next : Unit → Run event error other) :
    emit e >>= next = ⟨e :: (next ()).events, (next ()).outcome⟩ := rfl

theorem ofExcept_bind (x : result) (next : result → Run event error other) :
    ofExcept (.ok x) >>= next = next x := rfl

theorem outcome_bind {r : Run event error result} {x : result} (h : r.outcome = .ok x)
    (next : result → Run event error other) : (r >>= next).outcome = (next x).outcome := by
  change (r.bind next).outcome = _
  rw [bind, h]

theorem events_bind {r : Run event error result} {x : result} (h : r.outcome = .ok x)
    (next : result → Run event error other) :
    (r >>= next).events = r.events ++ (next x).events := by
  change (r.bind next).events = _
  rw [bind, h]

theorem outcome_bind_error {r : Run event error result} {e : error} (h : r.outcome = .error e)
    (next : result → Run event error other) : (r >>= next).outcome = .error e := by
  change (r.bind next).outcome = _
  rw [bind, h]

theorem exists_of_outcome_bind {r : Run event error result} {next : result → Run event error other}
    {y : other} (h : (r >>= next).outcome = .ok y) :
    ∃ x, r.outcome = .ok x ∧ (next x).outcome = .ok y := by
  cases hr : r.outcome with
  | error e =>
    rw [outcome_bind_error hr] at h
    exact nomatch h
  | ok x => exact ⟨x, rfl, outcome_bind hr next ▸ h⟩

theorem events_emit_bind (e : event) (next : Unit → Run event error other) :
    (emit e >>= next).events = e :: (next ()).events := rfl

theorem outcome_ofExcept_bind {r : Except error result} {x : result} (h : r = .ok x)
    (next : result → Run event error other) : (ofExcept r >>= next).outcome = (next x).outcome :=
  outcome_bind h next

def mapError (g : error → other) (r : Run event error result) : Run event other result :=
  ⟨r.events, r.outcome.mapError g⟩

theorem outcome_mapError {r : Run event error result} {x : result} (h : r.outcome = .ok x)
    (g : error → other) : (r.mapError g).outcome = .ok x := by
  rw [mapError, h]
  rfl

theorem outcome_of_mapError {r : Run event error result} {x : result} {g : error → other}
    (h : (r.mapError g).outcome = .ok x) : r.outcome = .ok x := by
  cases hr : r.outcome with
  | error e =>
    rw [mapError, hr] at h
    exact nomatch h
  | ok y =>
    rw [outcome_mapError hr] at h
    injection h with h
    rw [h]

end Run

end LinearAssignment
