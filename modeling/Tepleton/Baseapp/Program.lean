import Tepleton.Store.Iterator

/-!
# What handlers do to the stores they are given

The ante handler, the message handlers, the begin and end blockers and the initializer of an
application are programs: they read, write and iterate over the stores of their context, consume gas
of its meter, and return or panic.  A program runs on a machine, a stack of caches for each mounted
store and the state of a gas meter, and what it did before a panic stays done.

The charges of `gasKVStore` and `gasIterator` are gas that the program consumes, and a cached
context is a buffer that the program keeps.
-/

namespace Tepleton.Baseapp

open Lib Store

/-- What `recover` gets: `sdk.ErrorOutOfGas`, or any other value with the stack trace. -/
inductive GoPanic
  | outOfGas (descriptor : String)
  | other (value stack : String)
  deriving DecidableEq, Repr

/-! ## Gas: `types/gas.go` -/

/-- A gas meter: `basicGasMeter` with a limit, `infiniteGasMeter` without one. -/
structure GasMeter where
  limit : Option ℤ
  consumed : ℤ
  deriving DecidableEq, Repr

def newGasMeter (limit : ℤ) : GasMeter := ⟨some limit, 0⟩

def newInfiniteGasMeter : GasMeter := ⟨none, 0⟩

/-- `ConsumeGas`.  The gas is consumed also when it is too much. -/
def GasMeter.consumeGas (meter : GasMeter) (amount : ℤ) (descriptor : String) :
    Except GoPanic Unit × GasMeter :=
  let meter := { meter with consumed := int64 (meter.consumed + amount) }
  if meter.limit.any (· < meter.consumed) then (.error (.outOfGas descriptor), meter)
  else (.ok (), meter)

/-! ## Programs -/

variable {Key α : Type}

/-- A stack of caches for each mounted store. -/
abbrev MultiStore (Key : Type) := Key → Layers

/-- What a program runs on. -/
structure Machine (Key : Type) where
  ms : MultiStore Key
  gasMeter : GasMeter

/-- A program that returns an `α` or panics. -/
inductive Prog (Key α : Type)
  | done (value : α)
  | panic (value : GoPanic)
  | get (store : Key) (key : Bytes) (cont : Option Bytes → Prog Key α)
  | has (store : Key) (key : Bytes) (cont : Bool → Prog Key α)
  | set (store : Key) (key value : Bytes) (cont : Prog Key α)
  | delete (store : Key) (key : Bytes) (cont : Prog Key α)
  | iterator (store : Key) (start stop : Option Bytes) (ascending : Bool)
      (cont : List (Bytes × Bytes) → Prog Key α)
  | consumeGas (amount : ℤ) (descriptor : String) (cont : Prog Key α)
  | gasConsumed (cont : ℤ → Prog Key α)

/-- What the stores rest on: the test for a key inside the bounds of an iteration, and what is
yielded over a content of the bottom store. -/
structure Db where
  isKeyInDomain : DomainTest
  entries : Listing

section Run

variable [DecidableEq Key] (db : Db)

/-- One store replaced. -/
def Machine.update (machine : Machine Key) (store : Key) (l : Layers) : Machine Key :=
  { machine with ms := Function.update machine.ms store l }

/-- A program runs. -/
def Prog.run : Prog Key α → Machine Key → Except GoPanic α × Machine Key
  | .done value, machine => (.ok value, machine)
  | .panic value, machine => (.error value, machine)
  | .get store key cont, machine =>
    let (value, l) := (machine.ms store).get key
    (cont value).run (machine.update store l)
  | .has store key cont, machine =>
    let (found, l) := (machine.ms store).has key
    (cont found).run (machine.update store l)
  | .set store key value cont, machine =>
    cont.run (machine.update store ((machine.ms store).set key value))
  | .delete store key cont, machine =>
    cont.run (machine.update store ((machine.ms store).delete key))
  | .iterator store start stop ascending cont, machine =>
    (cont ((machine.ms store).entries db.isKeyInDomain db.entries start stop ascending)).run machine
  | .consumeGas amount descriptor cont, machine =>
    match machine.gasMeter.consumeGas amount descriptor with
    | (.error value, gasMeter) => (.error value, { machine with gasMeter })
    | (.ok (), gasMeter) => cont.run { machine with gasMeter }
  | .gasConsumed cont, machine => (cont machine.gasMeter.consumed).run machine

end Run

/-! ## The bottom of the stacks -/

/-- Every store is over the same bottom store and as many caches. -/
def SameBases (ms ms' : MultiStore Key) : Prop := ∀ store, (ms store).SameBase (ms' store)

theorem SameBases.trans {ms ms' ms'' : MultiStore Key} (h : SameBases ms ms')
    (h' : SameBases ms' ms'') : SameBases ms ms'' :=
  fun store => (h store).trans (h' store)

theorem SameBases.cached {ms ms' : MultiStore Key} (h : SameBases ms ms')
    (hcached : ∀ store, 0 < (ms store).depth) (store : Key) : 0 < (ms' store).depth := by
  rw [(h store).depth]
  exact hcached store

variable [DecidableEq Key]

theorem sameBases_update {machine : Machine Key} {store : Key} {l : Layers}
    (h : (machine.ms store).SameBase l) : SameBases machine.ms (machine.update store l).ms := by
  intro other
  by_cases heq : other = store
  · subst heq
    have hself : (machine.update other l).ms other = l := Function.update_self ..
    rw [hself]
    exact h
  · have hother : (machine.update store l).ms other = machine.ms other :=
      Function.update_of_ne heq ..
    rw [hother]
    exact .refl _

/-- A program that runs on caches changes no bottom store, whether it returns or panics. -/
theorem run_sameBases (db : Db) (prog : Prog Key α) {machine : Machine Key}
    (hcached : ∀ store, 0 < (machine.ms store).depth) :
    SameBases machine.ms (prog.run db machine).2.ms := by
  induction prog generalizing machine with
  | done value | panic value => exact fun store => .refl _
  | get store key cont ih | has store key cont ih =>
    have hsame := sameBases_update (Layers.get_sameBase (machine.ms store) key)
    exact hsame.trans (ih _ (hsame.cached hcached))
  | set store key value cont ih =>
    have hsame := sameBases_update (Layers.set_sameBase (hcached store) key value)
    exact hsame.trans (ih (hsame.cached hcached))
  | delete store key cont ih =>
    have hsame := sameBases_update (Layers.delete_sameBase (hcached store) key)
    exact hsame.trans (ih (hsame.cached hcached))
  | iterator store start stop ascending cont ih => exact ih _ hcached
  | consumeGas amount descriptor cont ih =>
    rw [Prog.run]
    split
    · exact fun store => .refl _
    · rename_i gasMeter _
      exact @ih ⟨machine.ms, gasMeter⟩ hcached
  | gasConsumed cont ih => exact ih _ hcached

end Tepleton.Baseapp
