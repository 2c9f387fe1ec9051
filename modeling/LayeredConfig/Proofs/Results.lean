import LayeredConfig.Error

/-! # Results of steps that may fail

A sequence of steps succeeds when each step does, and a label changes failures only. Steps that also
change a state are performed on it: the outcome is a result together with the state that is left, after
a failure too.
-/
namespace LayeredConfig
variable {ε σ α β : Type} {label : String}

theorem bind_eq_ok_iff {x : Except ε α} {f : α → Except ε β} {b : β} :
    x >>= f = .ok b ↔ ∃ a, x = .ok a ∧ f a = .ok b := by
  cases x <;> simp [bind, Except.bind]

theorem map_eq_ok_iff {x : Except ε α} {f : α → β} {b : β} :
    f <$> x = .ok b ↔ ∃ a, x = .ok a ∧ f a = b := by
  cases x <;> simp [Functor.map, Except.map]

@[simp] theorem labelled_eq_ok_iff {x : Except Error α} {a : α} :
    labelled label x = .ok a ↔ x = .ok a := by
  cases x <;> simp [labelled]

theorem bind_eq_error_iff {x : Except ε α} {f : α → Except ε β} {e : ε} :
    x >>= f = .error e ↔ x = .error e ∨ ∃ a, x = .ok a ∧ f a = .error e := by
  cases x <;> simp [bind, Except.bind]

theorem map_eq_error_iff {x : Except ε α} {f : α → β} {e : ε} : f <$> x = .error e ↔ x = .error e := by
  cases x <;> simp [Functor.map, Except.map]

theorem labelled_eq_error_iff {x : Except Error α} {e : Error} :
    labelled label x = .error e ↔ ∃ cause, x = .error cause ∧ e = .context label cause := by
  cases x <;> simp [labelled, eq_comm]

/-- Steps taken for one element after another fail at the first element whose step fails. -/
theorem forM_eq_error {xs : List α} {f : α → Except ε Unit} {e : ε} (h : xs.forM f = .error e) :
    ∃ before x after, xs = before ++ x :: after ∧ (∀ y ∈ before, f y = .ok ()) ∧ f x = .error e := by
  induction xs with
  | nil => cases h
  | cons x rest ih =>
    rcases bind_eq_error_iff.mp h with hx | ⟨_,hx,hrest⟩
    · exact ⟨[], x, rest, rfl, nofun, hx⟩
    · obtain ⟨before,y,after,rfl,hbefore,hy⟩ := ih hrest
      exact ⟨x :: before, y, after, rfl, List.forall_mem_cons.mpr ⟨hx, hbefore⟩, hy⟩

/-- The result of a step on a state, and the state it leaves. -/
def perform (x : ExceptT Error (StateM σ) α) (s : σ) : Except Error α × σ := x.run.run s

@[simp] theorem perform_pure (a : α) (s : σ) :
    perform (pure a : ExceptT Error (StateM σ) α) s = (.ok a, s) := rfl

@[simp] theorem perform_set (s t : σ) :
    perform (set t : ExceptT Error (StateM σ) PUnit) s = (.ok ⟨⟩, t) := rfl

@[simp] theorem perform_throw (e : Error) (s : σ) :
    perform (throw e : ExceptT Error (StateM σ) α) s = (.error e, s) := rfl

@[simp] theorem perform_mk_pure (x : Except Error α) (s : σ) :
    perform (ExceptT.mk (pure x) : ExceptT Error (StateM σ) α) s = (x, s) := rfl

@[simp] theorem perform_get (s : σ) :
    perform (getThe σ : ExceptT Error (StateM σ) σ) s = (.ok s, s) := rfl

theorem run_bind (x : ExceptT ε (StateM σ) α) (f : α → ExceptT ε (StateM σ) β) (s : σ) :
    (x >>= f).run.run s = match x.run.run s with
      | (.ok a, t) => (f a).run.run t
      | (.error e, t) => (.error e, t) := by
  simp only [ExceptT.run_bind, StateT.run_bind]
  cases x.run.run s with
  | mk r t => cases r <;> rfl

theorem perform_bind (x : ExceptT Error (StateM σ) α) (f : α → ExceptT Error (StateM σ) β) (s : σ) :
    perform (x >>= f) s = match perform x s with
      | (.ok a, t) => perform (f a) t
      | (.error e, t) => (.error e, t) := by
  simp only [perform, run_bind]
  cases x.run.run s with
  | mk r t => cases r <;> rfl

end LayeredConfig
