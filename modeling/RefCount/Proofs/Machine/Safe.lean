/-
How operations end. `Ends E x w Q` says of an operation in a world that it ends
in a result and a world with `Q`, or in an error with `E`. Without errors to
allow, it says that there is a result.

`Safe` allows the errors that are not the heap's: no object was used after it
was freed, and no address without an object was used at all. An error is judged
by its cause, behind all contexts.

# The rules

There is one rule for each way operations are put together, and one for each
primitive; a proof about an operation follows its text from the first step to
the last. `Ends.mono` weakens what is known at the end.
-/
import Mathlib
import RefCount.Machine.Step

namespace RefCount.Machine

open Ir

variable {α β : Type}

/-- The second of two operations goes on where the first has a result. -/
theorem run_bind (x : Run α) (f : α → Run β) (w : World) :
    (x >>= f).run.run w = match x.run.run w with
      | (.ok a, w') => (f a).run.run w'
      | (.error e, w') => (.error e, w') := by
  unfold ExceptT.run StateT.run
  simp only [Bind.bind, ExceptT.bind, ExceptT.mk, StateT.bind]
  rcases x w with ⟨_ | _, _⟩ <;> rfl

/-- A context is put around an error and changes nothing else. -/
theorem run_inContext (context : RunError → RunError) (x : Run α) (w : World) :
    (inContext context x).run.run w = match x.run.run w with
      | (.ok a, w') => (.ok a, w')
      | (.error e, w') => (.error (context e), w') := by
  unfold inContext ExceptT.run StateT.run
  simp only [tryCatch, tryCatchThe, MonadExceptOf.tryCatch, ExceptT.tryCatch,
    ExceptT.mk, Bind.bind, StateT.bind]
  rcases x w with ⟨_ | _, _⟩ <;> rfl

/-- An operation ends in a result and a world of which something holds, or in
an error of which something holds. -/
def Ends (E : RunError → Prop) (x : Run α) (w : World) (Q : α → World → Prop) : Prop :=
  match x.run.run w with
  | (.ok a, w') => Q a w'
  | (.error e, _) => E e

namespace Ends

variable {E E' : RunError → Prop} {x : Run α} {w : World} {Q Q' : α → World → Prop}
variable {a : α} {w' : World} {e : RunError} {P : Unit → World → Prop} {p : Address} {c : Cell}

/-- What is known at the end may be weakened, given that the operation ends
so. -/
theorem mono_ok (h : Ends E x w Q)
    (hQ : ∀ a w', x.run.run w = (.ok a, w') → Q a w' → Q' a w') : Ends E x w Q' := by
  unfold Ends at h ⊢
  rcases hx : x.run.run w with ⟨e | a, w'⟩
  · rw [hx] at h
    exact h
  · rw [hx] at h
    exact hQ a w' hx h

/-- What is known at the end may be weakened. -/
theorem mono (h : Ends E x w Q) (hQ : ∀ a w', Q a w' → Q' a w') : Ends E x w Q' :=
  h.mono_ok fun a w' _ => hQ a w'

/-- What a result says. -/
theorem of_ok (h : Ends E x w Q) (hx : x.run.run w = (.ok a, w')) : Q a w' := by
  unfold Ends at h
  rw [hx] at h
  exact h

theorem of_error (h : Ends E x w Q) (hx : x.run.run w = (.error e, w')) : E e := by
  unfold Ends at h
  rw [hx] at h
  exact h

/-- Without errors to allow there is a result. -/
theorem exists_ok (h : Ends (fun _ => False) x w Q) :
    ∃ a w', x.run.run w = (.ok a, w') ∧ Q a w' := by
  unfold Ends at h
  rcases hx : x.run.run w with ⟨e | a, w'⟩
  · rw [hx] at h
    exact h.elim
  · rw [hx] at h
    exact ⟨a, w', rfl, h⟩

theorem ended_error (hx : x.run.run w = (.error e, w')) (he : E e) : Ends E x w Q := by
  unfold Ends
  rw [hx]
  exact he

/-- An operation that is known to go on like another. -/
theorem goes_on {y : Run α} (hx : x.run.run w = y.run.run w') (hy : Ends E y w' Q) :
    Ends E x w Q := by
  unfold Ends at hy ⊢
  rwa [hx]

theorem pure (h : Q a w) : Ends E (Pure.pure a) w Q := h

theorem throw (h : E e) : Ends E (MonadExcept.throw e) w Q := h

/-- One operation after another. -/
theorem bind {f : α → Run β} {P : β → World → Prop}
    (h : Ends E x w fun a w' => Ends E (f a) w' P) : Ends E (x >>= f) w P := by
  unfold Ends at h ⊢
  rw [run_bind]
  rcases hx : x.run.run w with ⟨e | a, w'⟩
  · rw [hx] at h
    exact h
  · rw [hx] at h
    exact h

/-- An operation for each element of a list. -/
theorem forM_cons {g : β → Run PUnit} {b : β} {bs : List β} {P : PUnit → World → Prop}
    (h : Ends E (g b) w fun _ w' => Ends E (bs.forM g) w' P) :
    Ends E ((b :: bs).forM g) w P := bind h

/-- A context that keeps errors allowed does no harm. -/
theorem inContext {context : RunError → RunError} (hc : ∀ e, E e → E' (context e))
    (h : Ends E x w Q) : Ends E' (inContext context x) w Q := by
  unfold Ends at h ⊢
  rw [run_inContext]
  rcases hx : x.run.run w with ⟨e | a, w'⟩
  · rw [hx] at h
    exact hc e h
  · rw [hx] at h
    exact h

-- ======== primitives

theorem getHeap {P : Heap → World → Prop} (h : P w.heap w) :
    Ends E getHeap w P := h

theorem modifyHeap {g : Heap → Heap} (h : P () { w with heap := g w.heap }) :
    Ends E (modifyHeap g) w P := h

theorem tally {g : Stats → Stats} (h : P () { w with stats := g w.stats }) :
    Ends E (tally g) w P := h

theorem cellAt {P : Cell → World → Prop} (hc : w.heap.find p = .ok c) (h : P c w) :
    Ends E (cellAt p) w P := by
  unfold Machine.cellAt
  refine bind (getHeap ?_)
  rw [hc]
  exact h

theorem objectAt {P : Object → World → Prop} (hc : w.heap.find p = .ok c) (h : P c.object w) :
    Ends E (objectAt p) w P :=
  bind (cellAt hc h)

/-- A new object. -/
theorem allocate {size align : Int64} {o : Object} {P : Value → World → Prop}
    (h : P (.ref (w.heap.allocate size align o).1)
      { w with heap := (w.heap.allocate size align o).2 }) :
    Ends E (allocate size align o) w P := h

theorem printLine {env : Env} {line : Bytes} (h : ∀ w', w'.heap = w.heap → P () w') :
    Ends E (printLine env line) w P := by
  unfold Machine.printLine
  split
  · exact h { w with lines := line :: w.lines } rfl
  · exact pure (h w rfl)

end Ends

-- ======== frames

section Frames

variable {fr : Frame} {dst : Var} {v : Value}

/-- A frame with a variable assigned. -/
def assigned (fr : Frame) (dst : Var) (v : Value) : Frame :=
  { fr with vars := fr.vars.setIfInBounds dst (some v) }

theorem get_assigned (hdst : dst < fr.vars.size) (x : Var) :
    (assigned fr dst v).get x = if x = dst then v else fr.get x := by
  unfold assigned Frame.get
  by_cases hx : x = dst
  · subst hx
    simp [hdst]
  · simp [hx, Ne.symm hx]

theorem isSet_assigned (hdst : dst < fr.vars.size) (x : Var) :
    (assigned fr dst v).isSet x = (decide (x = dst) || fr.isSet x) := by
  unfold assigned Frame.isSet
  by_cases hx : x = dst
  · subst hx
    simp [hdst]
  · simp [hx, Ne.symm hx]

/-- A frame with variables assigned one after the other. -/
def assignedAll (fr : Frame) : List Var → List Value → Frame
  | v :: vs, x :: xs => assignedAll (assigned fr v x) vs xs
  | _, _ => fr

/-- Assigning variables leaves a frame where it is. -/
theorem assignedAll_same : ∀ {vs : List Var} {xs : List Value} {fr : Frame},
    (assignedAll fr vs xs).func = fr.func ∧ (assignedAll fr vs xs).block = fr.block ∧
      (assignedAll fr vs xs).code = fr.code := by
  intro vs
  induction vs with
  | nil => intro xs fr; cases xs <;> exact ⟨rfl, rfl, rfl⟩
  | cons v vs ih =>
    intro xs fr
    cases xs with
    | nil => exact ⟨rfl, rfl, rfl⟩
    | cons x xs => exact @ih _ (assigned fr v x)

/-- A switch leads where one of its edges does. -/
theorem switchTarget_mem (v : Var) (n : Int64) (cases : List Case) (default : Target) :
    switchTarget n cases default ∈ (Term.switch v cases default).targets := by
  unfold switchTarget
  split
  · next c hc =>
    exact List.mem_append.2 (.inl (List.mem_map_of_mem (List.mem_of_find?_eq_some hc)))
  · simp [Term.targets]

namespace Ends

variable {E : RunError → Prop} {w : World}

/-- Variables that have been assigned may be read. -/
theorem check {vs : List Var} {P : Unit → World → Prop} (hvs : ∀ v ∈ vs, fr.isSet v = true)
    (h : P () w) : Ends E (fr.check vs) w P := by
  have hnone : vs.find? (!fr.isSet ·) = none :=
    List.find?_eq_none.2 fun v hv => by simp [hvs v hv]
  unfold Frame.check
  rw [hnone]
  exact h

end Ends

end Frames

-- ======== safety

/-- The error of a frame has the same cause in its place. -/
theorem place_cause (c : Config) (e : RunError) : (c.place e).cause = e.cause := by
  have hfold : ∀ (cs : List (Frame × Await)) (e : RunError),
      (cs.foldl (fun e x => x.1.place e) e).cause = e.cause := by
    intro cs
    induction cs with
    | nil => exact fun _ => rfl
    | cons x cs ih => exact fun e => (ih _).trans rfl
  exact (hfold c.callers _).trans rfl

/-- The heap is not to blame for an error. -/
def RunError.Clean (e : RunError) : Prop := ∀ x, e.cause ≠ .heap x

/-- A context that keeps the cause of an error leaves it to the same blame. -/
theorem RunError.Clean.of_cause {e e' : RunError} (he : e.Clean) (h : e'.cause = e.cause) :
    e'.Clean := by
  intro x hx
  rw [h] at hx
  exact he x hx

/-- An operation ends in a result and a world of which something holds, or in
an error that the heap is not to blame for. -/
abbrev Safe (x : Run α) (w : World) (Q : α → World → Prop) : Prop := Ends RunError.Clean x w Q

namespace Safe

variable {w : World} {Q : α → World → Prop}

/-- A context that keeps the cause of an error does no harm. -/
theorem inContext {x : Run α} {context : RunError → RunError}
    (hc : ∀ e, (context e).cause = e.cause) (h : Safe x w Q) :
    Safe (inContext context x) w Q :=
  Ends.inContext (fun e he => he.of_cause (hc e)) h

/-- An error of a run that has a cause other than the heap. -/
theorem fault {f : Fault} : Safe (MonadExcept.throw (.fault f)) w Q :=
  Ends.throw fun _ h => RunError.noConfusion h

/-- Variables that are read have been assigned, or reading them is an error. -/
theorem check {fr : Frame} {vs : List Var} {P : Unit → World → Prop}
    (h : (∀ v ∈ vs, fr.isSet v) → P () w) : Safe (fr.check vs) w P := by
  unfold Frame.check
  split
  · exact .throw fun _ h => RunError.noConfusion h
  · next hnone =>
    refine .pure (h fun v hv => ?_)
    simpa using List.find?_eq_none.1 hnone v hv

/-- Assigning a variable that there is. -/
theorem set {fr : Frame} {v : Var} {a : Value} {P : Frame → World → Prop}
    (h : v < fr.vars.size → P (assigned fr v a) w) : Safe (fr.set v a) w P := by
  unfold Frame.set
  split
  · next hv => exact .pure (h hv)
  · exact fault

/-- Going to a block that there is. -/
theorem goTo {fr : Frame} {t : Target} {P : Frame → World → Prop}
    (h : ∀ b, t.bind fr.func.block? = some b →
      P { fr with block := b, code := b.code } w) : Safe (fr.goTo t) w P := by
  unfold Frame.goTo
  split
  · next b hb => exact .pure (h b hb)
  · exact fault

end Safe

end RefCount.Machine
