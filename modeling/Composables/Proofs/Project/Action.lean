import Composables.Project.Compile

/-
  What actions on files come to, whatever the files are: the results they may have, and the errors
  they may fail with.
-/

namespace Composables.Project

variable {α β : Type} {fails : Error → Prop} {gives : α → Prop} {gives' : β → Prop}

/-- An action that succeeds gives a result of one kind, and one that fails gives an error of
another. -/
def Yields (fails : Error → Prop) (gives : α → Prop) (x : Action α) : Prop :=
  ∀ fs, match x fs with
    | .ok a _ => gives a
    | .error e _ => fails e

namespace Yields

theorem pure {a : α} (h : gives a) : Yields fails gives (Pure.pure a) := fun _ => h

theorem mono {fails' : Error → Prop} {x : Action α} (hx : Yields fails gives x)
    (h : ∀ e, fails e → fails' e) :
    Yields fails' gives x := by
  intro fs
  have hx := hx fs
  split at hx
  · exact hx
  · exact h _ hx

theorem bind {x : Action α} {f : α → Action β} (hx : Yields fails gives x)
    (hf : ∀ a, gives a → Yields fails gives' (f a)) : Yields fails gives' (x >>= f) := by
  intro fs
  have h := hx fs
  show match EStateM.bind x f fs with
    | .ok a _ => gives' a
    | .error e _ => fails e
  unfold EStateM.bind
  split at h
  · rename_i a fs' hrun
    rw [hrun]
    exact hf a h fs'
  · rename_i e fs' hrun
    rw [hrun]
    exact h

theorem ofExcept {x : Except Error α} (hok : ∀ a, x = .ok a → gives a)
    (herror : ∀ e, x = .error e → fails e) :
    Yields fails gives (MonadExcept.ofExcept x) := by
  intro fs
  cases x with
  | ok a => exact hok a rfl
  | error e => exact herror e rfl

/-- A run over a list fails only where one of its steps does. -/
theorem mapM {f : β → Action α} {xs : List β} (h : ∀ x ∈ xs, Yields fails (fun _ => True) (f x)) :
    Yields fails (fun _ => True) (xs.mapM f) := by
  induction xs with
  | nil => exact pure trivial
  | cons x xs ih =>
      rw [List.mapM_cons]
      refine bind (h x List.mem_cons_self) fun _ _ => ?_
      exact bind (ih fun y hy => h y (List.mem_cons_of_mem x hy)) fun _ _ => pure trivial

end Yields

/-- Writing a module fails only to write its file. -/
theorem yields_writeModule (p : Path) (m : Module) :
    Yields (fun e => ∃ fault, e = .unwritable p fault) (fun _ => True) (writeModule p m) := by
  intro fs
  unfold writeModule
  cases fs.writeWithParents p (.text m.render) with
  | ok => trivial
  | error fault _ => exact ⟨fault, rfl⟩

end Composables.Project
