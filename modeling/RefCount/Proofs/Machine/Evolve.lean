/-
Running keeps the heap sane, whatever runs. Strings and objects that are made,
references that are taken and released, instructions and calls all come down to
steps of the heap (`Heap.Step`), whether they end in a result or in an error;
code need not be well-formed or balanced for that.

# The argument

An operation evolves the heap if it does so from every world (`Evolving`), and
operations one after the other do. Two places need a closer look. Taking a
reference reads a cell and writes it back, in one step. Releasing the last
reference counts down and frees, also in one step: in between, the bound on how
many objects may be freed must not run out, and it does not, since each of them
was live (`evolves_releaseWork`).

# Stale references

A cell that is marked as freed is found out by every access (`Stale`), and the
mark stays (`Heap.Stays`). So a reference that outlives its object can do no
harm, however many operations later it is used (`Operation.runAll_sane`).
-/
import Mathlib
import RefCount.Proofs.Heap.Sane

namespace RefCount.Machine

open Ir Option Heap

variable {α β : Type} {env : Env} {w : World}
variable {x : Run α} {f : α → Run β} {p : Address} {c : Cell}

-- ======== operations

/-- An operation evolves the heap of a world, whether it succeeds or not. -/
def EvolvesAt (x : Run α) (w : World) : Prop := ∃ n, w.heap.Evolves n (x.run.run w).2.heap

/-- An operation evolves the heap of every world. -/
def Evolving (x : Run α) : Prop := ∀ w, EvolvesAt x w

/-- One operation after the other; the second one runs only if the first
succeeds. -/
theorem EvolvesAt.bind (hx : EvolvesAt x w)
    (hf : ∀ a w', x.run.run w = (.ok a, w') → EvolvesAt (f a) w') : EvolvesAt (x >>= f) w := by
  obtain ⟨n, hn⟩ := hx
  rw [EvolvesAt, run_bind]
  rcases hrun : x.run.run w with ⟨e | a, w'⟩
  · rw [hrun] at hn
    exact ⟨n, hn⟩
  · rw [hrun] at hn
    obtain ⟨m, hm⟩ := hf a w' hrun
    exact ⟨n + m, hn.trans hm⟩

/-- An operation that leaves the heap alone. -/
theorem EvolvesAt.of_same (h : (x.run.run w).2.heap = w.heap) : EvolvesAt x w := by
  rw [EvolvesAt, h]
  exact ⟨0, .refl⟩

/-- A cell is read without a change. -/
theorem run_cellAt (p : Address) (w : World) : (cellAt p).run.run w = match w.heap.find p with
      | .ok c => (.ok c, w)
      | .error e => (.error (.heap e), w) := by
  rw [cellAt, run_bind]
  show (ofHeap (w.heap.find p) : Run Cell).run.run w = _
  cases w.heap.find p <;> rfl

/-- Looking at a cell leaves the heap alone, and what is done then may count on
it. -/
theorem EvolvesAt.cellAt_bind {f : Cell → Run β}
    (hf : ∀ c, w.heap.find p = .ok c → EvolvesAt (f c) w) : EvolvesAt (cellAt p >>= f) w := by
  refine .bind (.of_same ?_) fun c w' hrun => ?_
  · rw [run_cellAt]
    cases w.heap.find p <;> rfl
  · rw [run_cellAt] at hrun
    cases hc : w.heap.find p with
    | error e =>
      rw [hc] at hrun
      cases hrun
    | ok d =>
      rw [hc] at hrun
      cases hrun
      exact hf c hc

namespace Evolving

variable {x : Run α}

theorem pure (a : α) : Evolving (Pure.pure a : Run α) := fun _ => .of_same rfl

theorem throw (e : RunError) : Evolving (MonadExcept.throw e : Run α) := fun _ => .of_same rfl

/-- The same wherever they start. -/
theorem bind {f : α → Run β} (h : Evolving x) (hf : ∀ a, Evolving (f a)) : Evolving (x >>= f) :=
  fun w => (h w).bind fun a w' _ => hf a w'

theorem inContext {context : RunError → RunError} (h : Evolving x) :
    Evolving (inContext context x) := by
  intro w
  obtain ⟨n, hn⟩ := h w
  refine ⟨n, ?_⟩
  rw [run_inContext]
  rcases hrun : x.run.run w with ⟨e | a, w'⟩ <;> rwa [hrun] at hn

theorem forM {g : β → Run PUnit} (h : ∀ b, Evolving (g b)) : ∀ bs : List β, Evolving (bs.forM g)
  | [] => pure _
  | b :: bs => bind (h b) fun _ => forM h bs

theorem mapM {g : β → Run α} (h : ∀ b, Evolving (g b)) (bs : List β) : Evolving (bs.mapM g) := by
  induction bs with
  | nil => exact pure _
  | cons b bs ih =>
    rw [List.mapM_cons]
    exact bind (h b) fun a => bind ih fun as => pure _

theorem tally (g : Stats → Stats) : Evolving (tally g) := fun _ => .of_same rfl

theorem getHeap : Evolving getHeap := fun _ => .of_same rfl

theorem cellAt (p : Address) : Evolving (cellAt p) := by
  refine bind getHeap fun h => ?_
  cases h.find p with
  | ok c => exact pure c
  | error e => exact throw _

theorem objectAt (p : Address) : Evolving (objectAt p) := bind (cellAt p) fun _ => pure _

theorem printLine (line : Bytes) : Evolving (printLine env line) := by
  unfold Machine.printLine
  split
  · exact fun _ => .of_same rfl
  · exact pure _

/-- A new object, of a size that may be too large for a word. -/
theorem allocate {align : Int64} (halign : max align wordSize = wordSize) (size : Nat)
    (o : Object) : Evolving (allocate (Int64.ofNat size) align o) :=
  fun _ => ⟨_, (Step.allocate halign size o).evolves⟩

theorem newStr (s : Bytes) : Evolving (newStr s) := allocate (by decide) _ _

/-- A word for the object and one for each field. -/
theorem objectSize_eq (fields : List Value) :
    objectSize fields = Int64.ofNat (8 * (1 + fields.length)) := by
  rw [Int64.ofNat_mul, Int64.ofNat_add]
  rfl

theorem newObject (t : TypeId) (variant : Int) (fields : List Value) :
    Evolving (newObject t variant fields) := by
  rw [Machine.newObject, objectSize_eq]
  exact allocate (by decide) _ _

theorem newClosure (t : TypeId) (func : String) (captures : List Value) :
    Evolving (newClosure t func captures) := by
  rw [Machine.newClosure, objectSize_eq]
  exact allocate (by decide) _ _

/-- An object may be rewritten if its size stays and it is not freed by it. -/
theorem updateObject (p : Address) {g : Object → Object} (hsize : ∀ o, (g o).size = o.size)
    (hfreed : ∀ o, (g o).freed = o.freed) : Evolving (updateObject p g) := by
  intro w
  show ∃ n, w.heap.Evolves n (w.heap.modifyObject p g)
  unfold modifyObject
  split
  · next c hc => exact ⟨_, (Step.rewrite hc (hsize _) (hfreed _)).evolves⟩
  · exact ⟨0, .refl⟩

-- -------------------------------------------------- taking and releasing

mutual

/-- A reference is taken by raising one count. -/
theorem retain : ∀ v : Value, Evolving (retain v)
  | .ref p => by
    intro w
    rw [Machine.retain]
    exact .cellAt_bind fun c hc => ⟨0, (Step.more hc).evolves⟩
  | .tuple elems => by
    rw [Machine.retain]
    exact retainAll elems
  | .unit => pure _
  | .int _ => pure _
  | .float _ => pure _

theorem retainAll : ∀ vs : List Value, Evolving (retainAll vs)
  | [] => pure _
  | v :: vs => by
    rw [Machine.retainAll]
    exact bind (retain v) fun _ => retainAll vs

end

end Evolving

/-- What giving up a reference does. -/
theorem run_dropRef (hc : w.heap.find p = .ok c) : (dropRef p).run.run w =
      (.ok c.less.lost?, { w with heap := w.heap.setCell p c.less }) := by
  rw [dropRef, run_bind, run_cellAt, hc]
  rfl

/-- What freeing an object does. -/
theorem run_freeAt (hc : w.heap.cell? p = some c) :
    (freeAt p).run.run w = (.ok (), { w with heap := w.heap.freeCell p c }) := by
  have hheap : getHeap.run.run w = (.ok w.heap, w) := rfl
  rw [freeAt, run_bind, hheap]
  dsimp only
  rw [hc]
  rfl

/-- Releasing may free as many objects as there are. -/
theorem evolves_releaseWork (budget : Nat) (work : List Task) :
    ∀ w, w.heap.liveSet.card ≤ budget → EvolvesAt (releaseWork env budget work) w := by
  fun_induction releaseWork env budget work with
  | case1 => exact fun w _ => Evolving.pure _ w
  | case2 => exact fun w _ => Evolving.throw _ w
  | case3 _ _ ih => exact ih
  | case4 _ _ _ ih => exact ih
  | case5 _ _ _ ih => exact ih
  | case6 _ _ _ ih =>
    rwa [List.map_attach_eq_pmap, List.pmap_eq_map] at ih
  | case7 budget p rest ihrest ihfields =>
    intro w hbudget
    rw [EvolvesAt, run_bind]
    cases hc : w.heap.find p with
    | error e =>
      have hrun : (dropRef p).run.run w = (.error (.heap e), w) := by
        rw [dropRef, run_bind, run_cellAt, hc]
      rw [hrun]
      exact ⟨0, .refl⟩
    | ok c =>
      have hcell := (find_eq_ok_iff.1 hc).1
      have hsame : (w.heap.setCell p c.less).liveSet = w.heap.liveSet := liveSet_setCell hcell rfl
      rw [run_dropRef hc]
      dsimp only
      cases hlost : c.less.lost? with
      | none =>
        have hn : c.count ≠ 1 := by
          intro hone
          have hzero : c.less.count = 0 := by
            show c.count - 1 = 0
            omega
          rw [Cell.lost?, if_pos hzero] at hlost
          cases hlost
        obtain ⟨m, hm⟩ := ihrest { w with heap := w.heap.setCell p c.less } (hsame ▸ hbudget)
        exact ⟨0 + m, .step (.less hc hn) hm⟩
      | some o =>
        have hmem : p ∈ w.heap.liveSet := mem_liveSet.2 (live_of_find hc)
        have hcard := Finset.card_erase_add_one hmem
        cases budget with
        | zero => omega
        | succ budget =>
          rw [run_bind, run_freeAt (cell_setCell ..)]
          obtain ⟨m, hm⟩ := ihfields o
            { w with heap := (w.heap.setCell p c.less).freeCell p c.less } (by
              rw [liveSet_freeCell, hsame]
              omega)
          exact ⟨0 + m, .step (.free hc (lost_eq_some hlost).1) hm⟩

namespace Evolving

variable {name : String} {host : List Value → Run Value}

/-- Releasing lowers counts, and frees where the last reference goes. By
induction on what is left to release. -/
theorem releaseAll (vs : List Value) : Evolving (releaseAll env vs) := by
  intro w
  refine .bind (getHeap w) fun h w' hrun => ?_
  obtain ⟨rfl, rfl⟩ : w.heap = h ∧ w = w' :=
    ⟨Except.ok.inj (congrArg Prod.fst hrun), congrArg Prod.snd hrun⟩
  exact evolves_releaseWork _ _ w w.heap.card_liveSet_le

theorem release (v : Value) : Evolving (release env v) := releaseAll [v]

-- ---------------------------------------------------------- instructions

theorem literalValue (l : Literal) : Evolving (literalValue l) := by
  cases l with
  | str s => exact newStr s
  | _ => exact pure _

theorem liftExcept (r : Except RunError Value) : Evolving (prim.liftExcept r) := by
  cases r with
  | ok v => exact pure v
  | error e => exact throw e

theorem strPrim (op : Op) (args : List Value) : Evolving (strPrim op args) := by
  refine bind (mapM (fun a => ?_) _) fun texts => ?_
  · exact bind (inContext (objectAt _)) fun _ => pure _
  · split
    · exact newStr _
    · exact pure _
    · exact pure _
    · exact pure _
    · exact throw _

/-- Operations on values at most make new strings. -/
theorem prim (op : Op) (args : List Value) : Evolving (prim op args) := by
  unfold Machine.prim
  split
  · exact strPrim op args
  · split
    · exact throw _
    · exact liftExcept _
    · exact liftExcept _

theorem construct (t : TypeId) (variant : Int) (args : List Value) :
    Evolving (construct env t variant args) := by
  unfold Machine.construct
  split
  · exact throw _
  · split
    · exact pure _
    · split
      · exact newObject _ _ _
      · exact pure _

theorem elementAt (xs : List Value) (i : Int) : Evolving (elementAt xs i) := by
  unfold Machine.elementAt
  split
  · exact pure _
  · exact throw _

theorem project (v : Value) (variant field : Int) : Evolving (project v variant field) := by
  unfold Machine.project
  split
  · split
    · exact throw _
    · exact elementAt _ _
  · refine bind (objectAt _) fun o => ?_
    split
    · exact throw _
    · exact elementAt _ _
  · exact throw _

theorem tagOf (v : Value) : Evolving (tagOf v) := by
  unfold Machine.tagOf
  split
  · exact pure _
  · exact bind (objectAt _) fun _ => pure _
  · exact throw _

/-- A reset empties the object or gives up a reference. -/
theorem reset (v : Value) : Evolving (reset env v) := by
  refine bind (cellAt _) fun c => bind (tally _) fun _ => ?_
  split
  · exact bind (objectAt _) fun o => bind (releaseAll _) fun _ =>
      bind (updateObject _ (fun _ => rfl) fun _ => rfl) fun _ => pure _
  · exact bind (release v) fun _ => pure _

/-- A reuse rewrites the object or makes a new one. -/
theorem reuse (token : Value) (t : TypeId) (variant : Int) (args : List Value) :
    Evolving (reuse env token t variant args) := by
  unfold Machine.reuse
  split
  · exact bind (objectAt _) fun _ => bind (updateObject _ (fun _ => rfl) fun _ => rfl) fun _ =>
      bind (tally _) fun _ => pure _
  · exact construct _ _ _

theorem storeField (v : Value) (field : Int) (x : Value) : Evolving (storeField v field x) := by
  refine bind (objectAt _) fun _ => ?_
  split
  · exact throw _
  · exact bind (updateObject _ (fun _ => rfl) fun _ => rfl) fun _ => tally _

theorem storeTag (v : Value) (variant : Int) : Evolving (storeTag env v variant) :=
  bind (objectAt _) fun _ => bind (updateObject _ (fun _ => rfl) fun _ => rfl) fun _ => tally _

-- ----------------------------------------------------------------- frames

theorem check (fr : Frame) (vs : List Var) : Evolving (fr.check vs) := by
  unfold Frame.check
  split
  · exact throw _
  · exact pure _

theorem set (fr : Frame) (v : Var) (x : Value) : Evolving (fr.set v x) := by
  unfold Frame.set
  split
  · exact pure _
  · exact throw _

theorem setAll : ∀ (vs : List Var) (xs : List Value) (fr : Frame), Evolving (fr.setAll vs xs)
  | [], _, _ => pure _
  | _ :: _, [], _ => throw _
  | v :: vs, x :: xs, fr => bind (set fr v x) fun fr => setAll vs xs fr

theorem goTo (fr : Frame) (t : Target) : Evolving (fr.goTo t) := by
  unfold Frame.goTo
  split
  · exact pure _
  · exact throw _

theorem checkDef (fr : Frame) (x : Instr) : Evolving (checkDef fr x) := by
  unfold Machine.checkDef
  split
  · split
    · exact pure _
    · exact throw _
  · exact pure _

-- ------------------------------------------------------------------ calls

theorem firstArg : ∀ args : List Value, Evolving (firstArg args)
  | [] => throw _
  | a :: _ => pure a

/-- So do the functions that come with the machine. -/
theorem builtin (h : builtin? env name = some host) (args : List Value) : Evolving (host args) := by
  unfold builtin? at h
  split at h
  · cases h
    exact bind (firstArg args) fun _ => bind (objectAt _) fun _ =>
      bind (printLine _) fun _ => pure _
  · cases h
    dsimp only
    split
    · exact bind (firstArg args) fun _ => bind (printLine _) fun _ => pure _
    · exact pure _
  · cases h
    exact bind (firstArg args) fun _ => newStr _
  · cases h
    exact pure _
  · cases h
    exact bind (firstArg args) fun _ => bind (retain _) fun _ => pure _
  · cases h

theorem callHost (args : List Value) (h : Evolving (host args)) :
    Evolving (callHost env name host args) := by
  refine inContext (bind h fun _ => bind (forM ?_ _) fun _ => pure _)
  rintro ⟨a, i⟩
  dsimp only
  split
  · exact pure _
  · exact inContext (release _)

theorem startFrame (f : Func) (args : List Value) : Evolving (startFrame f args) :=
  bind (setAll _ _ _) fun fr => goTo fr _

/-- Entering a function changes the heap only if the host does. -/
theorem enter (depth : Nat) (name : String) (args : List Value) :
    Evolving (enter env depth name args) := by
  refine bind (tally _) fun _ => ?_
  split
  · next host _ hhost => exact bind (callHost args (builtin hhost args)) fun _ => pure _
  · exact throw _
  · split
    · exact throw _
    · split
      · exact throw _
      · exact bind (startFrame _ _) fun _ => pure _

theorem retainCaptures (modes : List Mode) (captures : List Value) :
    Evolving (retainCaptures modes captures) := by
  refine forM ?_ _
  rintro ⟨v, i⟩
  dsimp only
  split
  · exact pure _
  · exact inContext (retain _)

theorem releaseIndirect (c : Indirect) : Evolving (releaseIndirect env c) := by
  refine forM ?_ _
  rintro ⟨a, i⟩
  refine bind getHeap fun h => ?_
  dsimp only
  split
  · exact release _
  · exact pure _

theorem deliver (fr : Frame) (a : Await) (v : Value) : Evolving (deliver env fr a v) := by
  unfold Machine.deliver
  split
  · exact set _ _ _
  · exact bind (releaseIndirect _) fun _ => set _ _ _

section

variable (c : Config) (fr : Frame)

theorem continueWith (a : Await) :
    ∀ entered : Entered, Evolving (continueWith env c fr a entered)
  | .result v => bind (deliver fr a v) fun _ => pure _
  | .frame _ => pure _

theorem callFrom (dst : Var) (name : String) (args : List Value) :
    Evolving (callFrom env c fr dst name args) :=
  bind (enter _ name args) fun entered => continueWith _ _ _ entered

theorem callClosureFrom (dst : Var) (closure : Value)
    (args : List Value) : Evolving (callClosureFrom env c fr dst closure args) :=
  bind (inContext (objectAt _)) fun _ => bind (retainCaptures _ _) fun _ =>
    bind (enter _ _ _) fun entered => continueWith _ _ _ entered

-- ------------------------------------------------------------------- runs

/-- Every instruction evolves the heap. -/
theorem exec (x : Instr) : Evolving (exec env c fr x) := by
  have on (dst : Var) {y : Run Value} (hy : Evolving y) :
      Evolving (y >>= fun v => do return { c with top := ← fr.set dst v }) :=
    bind hy fun v => bind (set fr dst v) fun _ => pure _
  cases x with
  | lit dst value => exact on dst (literalValue value)
  | move dst src => exact bind (set fr dst _) fun _ => pure _
  | prim dst op args => exact on dst (prim op _)
  | call dst func args _ => exact callFrom c fr dst func _
  | callClosure dst closure args => exact callClosureFrom c fr dst _ _
  | closure dst func captures => exact on dst (newClosure _ func _)
  | construct dst type variant args => exact on dst (construct type variant _)
  | project dst src variant field => exact on dst (project _ variant field)
  | tag dst src => exact on dst (tagOf _)
  | inc v => exact bind (retain _) fun _ => pure _
  | dec v => exact bind (release _) fun _ => pure _
  | reset token v => exact on token (reset _)
  | reuse dst token type variant args => exact on dst (reuse _ type variant _)
  | isShared dst v => exact bind (cellAt _) fun _ => bind (set fr dst _) fun _ => pure _
  | set v field value => exact bind (storeField _ field _) fun _ => pure _
  | setTag v variant => exact bind (storeTag _ variant) fun _ => pure _

end

theorem returnValue (callers : List (Frame × Await)) (v : Value) :
    Evolving (returnValue env callers v) := by
  unfold Machine.returnValue
  split
  · exact pure _
  · exact bind (inContext (deliver _ _ _)) fun _ => pure _

/-- So does what ends a block. -/
theorem execTerm (c : Config) : Evolving (execTerm env c) := by
  have move (t : Target) :
      Evolving (do return Progress.running { c with top := ← c.top.goTo t } : Run Progress) :=
    bind (goTo _ t) fun _ => pure _
  refine bind (inContext (check _ _)) fun _ => ?_
  split
  · exact throw _
  · exact returnValue _ _
  · exact bind (goTo _ _) fun next => bind (setAll _ _ _) fun _ => pure _
  · exact move _
  · dsimp only
    split
    · exact throw _
    · exact move _
  · exact throw _

/-- So does a step. -/
theorem step (c : Config) : Evolving (step env c) := by
  unfold Machine.step
  split
  · exact execTerm c
  · exact bind (tally _) fun _ => inContext (bind (check _ _) fun _ =>
      bind (checkDef _ _) fun _ => bind (exec _ _ _) fun _ => pure _)

/-- Steps one after the other, however they end. -/
theorem runFor (steps : Nat) : ∀ (c : Config) (w : World),
    ∃ n, w.heap.Evolves n (runFor env steps c w).2.heap := by
  induction steps with
  | zero => exact fun _ _ => ⟨0, .refl⟩
  | succ steps ih =>
    intro c w
    obtain ⟨n, hn⟩ := @step env c w
    rw [Machine.runFor]
    rcases hrun : (Machine.step env c).run.run w with ⟨e | c' | v, w'⟩
    · rw [hrun] at hn
      exact ⟨n, hn⟩
    · rw [hrun] at hn
      obtain ⟨m, hm⟩ := ih c' w'
      exact ⟨n + m, hn.trans hm⟩
    · rw [hrun] at hn
      exact ⟨n, hn⟩

/-- So does a call. By induction on the steps. -/
theorem callFor (steps : Nat) (name : String) (args : List Value) :
    Evolving (callFor env steps name args) := by
  refine bind (enter 0 name args) fun entered => ?_
  cases entered with
  | result v => exact pure v
  | frame fr => exact runFor steps ⟨fr, []⟩

end Evolving

-- ======== stale references

/-- The variable whose object an instruction looks at first. -/
def object? : Instr → Option Var
  | .prim _ op (v :: _) => if op ∈ ["concat", "strlen", "eq", "ne"] then some v else none
  | .callClosure _ closure _ => some closure
  | .project _ src _ _ => some src
  | .tag _ src => some src
  | .inc v => some v
  | .dec v => some v
  | .reset _ v => some v
  | .reuse _ token _ _ _ => some token
  | .isShared _ v => some v
  | .set v _ _ => some v
  | .setTag v _ => some v
  | _ => none

/-- An object has been freed, and every access to it is found out. -/
structure Stale (w : World) (p : Address) : Prop where
  freed : ∃ c, w.heap.cell? p = some c ∧ c.object.freed = true
  object : w.heap.object p = .error (.useAfterFree p)
  count : w.heap.count p = .error (.useAfterFree p)
  increment : w.heap.increment p = .error (.useAfterFree p)
  decrement : w.heap.decrement p = .error (.useAfterFree p)
  exec : ∀ env c (fr : Frame) x v, object? x = some v → fr.get v = .ref p →
    ∃ e, (exec env c fr x).run.run w = (.error e, w) ∧ e.cause = .heap (.useAfterFree p)

/-- What fails first is all that happens. -/
theorem run_bind_error {e : RunError} (hx : x.run.run w = (.error e, w)) :
    (x >>= f).run.run w = (.error e, w) := by
  rw [run_bind, hx]

section stale

variable {p : Address} (hp : w.heap.find p = .error (.useAfterFree p))
include hp

/-- A freed object is not read. -/
theorem run_cellAt_stale : (cellAt p).run.run w = (.error (.heap (.useAfterFree p)), w) := by
  rw [run_cellAt, hp]

theorem run_objectAt_stale : (objectAt p).run.run w = (.error (.heap (.useAfterFree p)), w) :=
  run_bind_error (run_cellAt_stale hp)

/-- No reference to it is taken. -/
theorem run_retain_stale : (retain (.ref p)).run.run w = (.error (.heap (.useAfterFree p)), w) := by
  rw [retain]
  exact run_bind_error (run_cellAt_stale hp)

/-- None is given up. -/
theorem run_release_stale : (release env (.ref p)).run.run w =
    (.error (.heap (.useAfterFree p)), w) := by
  have hdrop : (dropRef p).run.run w = (.error (.heap (.useAfterFree p)), w) :=
    run_bind_error (run_cellAt_stale hp)
  rw [release, releaseAll, run_bind]
  show (releaseWork env w.heap.cells.size [.value (.ref p)]).run.run w = _
  rw [releaseWork]
  exact run_bind_error hdrop

/-- Its text is not looked at. -/
theorem run_prim_stale {op : Op} (hop : op ∈ ["concat", "strlen", "eq", "ne"])
    (args : List Value) : (prim op (.ref p :: args)).run.run w =
      (.error (.inOperand op 0 (.heap (.useAfterFree p))), w) := by
  have hstring : isStringOp op (.ref p :: args) = true := by
    simp only [List.mem_cons, List.not_mem_nil, or_false] at hop
    rcases hop with rfl | rfl | rfl | rfl <;> rfl
  unfold prim
  rw [if_pos hstring, strPrim]
  refine run_bind_error ?_
  rw [operandTexts, List.zipIdx_cons, List.mapM_cons]
  refine run_bind_error (run_bind_error ?_)
  show (inContext (.inOperand op 0) (objectAt p)).run.run w = _
  rw [run_inContext, run_objectAt_stale hp]

/-- No instruction gets at it, and the heap stays. -/
theorem run_exec_stale (c : Config) {fr : Frame} {x : Instr} {v : Var} (hx : object? x = some v)
    (hv : fr.get v = .ref p) :
    ∃ e, (exec env c fr x).run.run w = (.error e, w) ∧ e.cause = .heap (.useAfterFree p) := by
  have hcell := run_cellAt_stale hp
  have hobject := run_objectAt_stale hp
  cases x with
  | prim dst op args =>
    cases args with
    | nil => cases hx
    | cons u args =>
      rw [object?] at hx
      split at hx
      · obtain rfl := some.inj hx
        refine ⟨.inOperand op 0 (.heap (.useAfterFree p)), run_bind_error ?_, rfl⟩
        rw [Frame.getAll, List.map_cons, hv]
        exact run_prim_stale hp ‹_› _
      · cases hx
  | callClosure dst closure args =>
    obtain rfl := some.inj hx
    refine ⟨.inClosure (.heap (.useAfterFree p)), ?_, rfl⟩
    show (callClosureFrom env c fr dst (fr.get closure) (fr.getAll args)).run.run w = _
    rw [hv]
    refine run_bind_error ?_
    show (inContext .inClosure (objectAt p)).run.run w = _
    rw [run_inContext, hobject]
  | project | tag | reuse | set | setTag =>
    cases hx
    refine ⟨.heap (.useAfterFree p), run_bind_error ?_, rfl⟩
    rw [hv]
    exact run_bind_error hobject
  | inc u =>
    cases hx
    refine ⟨.heap (.useAfterFree p), run_bind_error ?_, rfl⟩
    rw [hv]
    exact run_retain_stale hp
  | dec u =>
    cases hx
    refine ⟨.heap (.useAfterFree p), run_bind_error ?_, rfl⟩
    rw [hv]
    exact run_release_stale hp
  | reset token u =>
    cases hx
    refine ⟨.heap (.useAfterFree p), run_bind_error ?_, rfl⟩
    rw [hv]
    exact run_bind_error hcell
  | isShared dst u =>
    cases hx
    refine ⟨.heap (.useAfterFree p), run_bind_error ?_, rfl⟩
    rw [hv]
    exact hcell
  | _ => cases hx

end stale

/-- An object that is freed is stale. -/
theorem stale_of_freed (hc : w.heap.cell? p = some c) (hfreed : c.object.freed = true) :
    Stale w p := by
  have hfind : w.heap.find p = .error (.useAfterFree p) := by simp [find, hc, hfreed]
  refine ⟨⟨c, hc, hfreed⟩, ?_, ?_, ?_, ?_, fun _ c _ _ _ => run_exec_stale hfind c⟩
  · rw [object, hfind]
    rfl
  · rw [count, hfind]
    rfl
  · rw [increment, hfind]
    rfl
  · rw [decrement, hfind]
    rfl

/-- The last reference to an object without fields takes the object with it. -/
theorem run_release_last (hc : w.heap.find p = .ok c) (hn : c.count = 1)
    (htasks : tasksOf env c.object = []) : (release env (.ref p)).run.run w =
      (.ok (), { w with heap := (w.heap.setCell p c.less).freeCell p c.less }) := by
  have hlost : c.less.lost? = some c.object := if_pos (by show c.count - 1 = 0; omega)
  obtain ⟨k, hk⟩ : ∃ k, w.heap.cells.size = k + 1 := by
    refine Nat.exists_eq_add_one.2 (Nat.lt_of_lt_of_le ?_ w.heap.card_liveSet_le)
    exact Finset.card_pos.2 ⟨p, mem_liveSet.2 (live_of_find hc)⟩
  rw [release, releaseAll, run_bind]
  show (releaseWork env w.heap.cells.size [.value (.ref p)]).run.run w = _
  rw [hk, releaseWork, run_bind, run_dropRef hc, hlost]
  dsimp only
  rw [run_bind, run_freeAt (cell_setCell ..), htasks]
  simp only [List.append_nil]
  rw [releaseWork]
  rfl

-- ======== runs

/-- Something that is done with a machine. -/
inductive Operation where
  | str (s : Bytes)
  | new (t : TypeId) (variant : Int) (fields : List Value)
  | retain (v : Value)
  | release (env : Env) (v : Value)
  | exec (env : Env) (c : Config) (fr : Frame) (x : Instr)
  | call (env : Env) (steps : Nat) (name : String) (args : List Value)

namespace Operation

/-- The world after an operation, whether it has succeeded or not. -/
def run (w : World) : Operation → World
  | str s => ((newStr s).run.run w).2
  | new t variant fields => ((newObject t variant fields).run.run w).2
  | retain v => ((Machine.retain v).run.run w).2
  | release env v => ((Machine.release env v).run.run w).2
  | exec env c fr x => ((Machine.exec env c fr x).run.run w).2
  | call env steps name args => ((callFor env steps name args).run.run w).2

/-- The world after operations one after the other. -/
def runAll (ops : List Operation) (w : World) : World := ops.foldl run w

theorem runAll_append (ops later : List Operation) (w : World) :
    runAll (ops ++ later) w = runAll later (runAll ops w) :=
  List.foldl_append

/-- An operation evolves the heap. -/
theorem run_evolves (w : World) (op : Operation) : ∃ n, w.heap.Evolves n (op.run w).heap := by
  cases op with
  | str s => exact Evolving.newStr s w
  | new t variant fields => exact Evolving.newObject t variant fields w
  | retain v => exact Evolving.retain v w
  | release env v => exact Evolving.release v w
  | exec env c fr x => exact Evolving.exec c fr x w
  | call env steps name args => exact Evolving.callFor steps name args w

/-- So do operations one after the other. -/
theorem runAll_evolves (ops : List Operation) (w : World) :
    ∃ n, w.heap.Evolves n (runAll ops w).heap := by
  induction ops generalizing w with
  | nil => exact ⟨0, .refl⟩
  | cons op ops ih =>
    obtain ⟨n, hn⟩ := op.run_evolves w
    obtain ⟨m, hm⟩ := ih (op.run w)
    exact ⟨n + m, hn.trans hm⟩

/-- Whatever is done with a machine comes down to steps of its heap. As long
as these ask for less memory than there are addresses, the heap stays sane;
objects stay in their places and, once freed, freed, so that every later access
to them is found out. -/
theorem runAll_sane (ops later : List Operation) :
    (∃ n m, empty.Evolves n (runAll ops .initial).heap ∧
      (runAll ops .initial).heap.Evolves m (runAll (ops ++ later) .initial).heap) ∧
    ∀ n m, empty.Evolves n (runAll ops .initial).heap →
      (runAll ops .initial).heap.Evolves m (runAll (ops ++ later) .initial).heap →
      0x1000 + (n + m) < 2 ^ 63 →
      (runAll (ops ++ later) .initial).heap.Sane ∧
        (runAll ops .initial).heap.Stays (runAll (ops ++ later) .initial).heap ∧
        ∀ p c, (runAll ops .initial).heap.cell? p = some c → c.object.freed = true →
          Stale (runAll (ops ++ later) .initial) p := by
  constructor
  · obtain ⟨n, hn⟩ := runAll_evolves ops .initial
    obtain ⟨m, hm⟩ := runAll_evolves later (runAll ops .initial)
    refine ⟨n, m, hn, ?_⟩
    rwa [runAll_append]
  · intro n m hn hm hroom
    obtain ⟨hlaid, -⟩ := laid_empty.evolves hn (by omega)
    rw [Nat.zero_add] at hlaid
    obtain ⟨hlaid', hstays⟩ := hlaid.evolves hm hroom
    refine ⟨hlaid'.sane, hstays, fun p c hc hfreed => ?_⟩
    obtain ⟨c', hc', -, hfreed'⟩ := hstays p c hc
    exact stale_of_freed hc' (hfreed' hfreed)

/-- A string that was freed cannot be retained. -/
theorem runAll_sane_string :
    (runAll ([str [97], release default (.ref 0x1008)] ++ [retain (.ref 0x1008)])
      .initial).heap.Sane ∧
    Stale (runAll ([str [97], release default (.ref 0x1008)] ++ [retain (.ref 0x1008)]) .initial)
      0x1008 := by
  -- Allocated with a count of one, and freed with its only reference.
  let w : World := run .initial (str [97])
  let c : Cell := ⟨1, ⟨.str, 0, [], [97], "", 1, false⟩⟩
  have hat : (empty.allocate 1 1 c.object).1 = 0x1008 := by decide
  have hfind : w.heap.find 0x1008 = .ok c := by
    show (empty.allocate 1 1 c.object).2.find 0x1008 = .ok c
    rw [find_allocate, if_pos hat.symm]
  have hrelease : (runAll [str [97], release default (.ref 0x1008)] .initial).heap =
      (w.heap.setCell 0x1008 c.less).freeCell 0x1008 c.less :=
    congrArg (·.2.heap) (@run_release_last default w _ _ hfind rfl rfl)
  have hcell : ((w.heap.setCell 0x1008 c.less).freeCell 0x1008 c.less).cell? 0x1008 =
      some ⟨0, { c.object with freed := true }⟩ := by
    rw [cell?_freeCell, if_pos rfl]
    rfl
  have hops : empty.Evolves 17
      (runAll [str [97], release default (.ref 0x1008)] .initial).heap := by
    rw [hrelease]
    exact .step (@Step.allocate _ 1 (by decide) 1 c.object) (.step (.free hfind rfl) .refl)
  have hlater : (runAll [str [97], release default (.ref 0x1008)] .initial).heap.Evolves 0
      (runAll ([str [97], release default (.ref 0x1008)] ++ [retain (.ref 0x1008)])
        .initial).heap := by
    have hstale : (runAll [str [97], release default (.ref 0x1008)] .initial).heap.find 0x1008 =
        .error (.useAfterFree 0x1008) := by
      rw [hrelease, find_freeCell, if_pos rfl]
    rw [runAll_append]
    show Evolves _ 0 ((Machine.retain (.ref 0x1008)).run.run _).2.heap
    rw [run_retain_stale hstale]
    exact .refl
  obtain ⟨hsane, -, hfreed⟩ := (runAll_sane _ _).2 17 0 hops hlater (by decide)
  exact ⟨hsane, hfreed _ _ (hrelease ▸ hcell) rfl⟩

end Operation

end RefCount.Machine
