import IosSystem.Lib.Bitmap
import IosSystem.Lib.Transition

/-!
# Interpreter slots

One pool of `ios_interpreter_pool.c` and the threads that acquire and release its slots, cut at
every operation on `slot_bitmap` and on the semaphore. What lies between two of them is local to
the thread and goes with the first one.

* `atomic_compare_exchange_weak` may fail although the bitmap has the expected value.
-/

namespace IosSystem.Interp

def maxSlotsPerType : Nat := 32

abbrev Word := BitVec 32

/-- `interpreter_pool_t` after its initialisation. -/
structure Pool where
  maxSlots : Nat
  pos : 0 < maxSlots
  le : maxSlots ≤ maxSlotsPerType
  slotBitmap : Word
  semaphore : Nat

/-- `interp_pool_init_type` -/
def initType (maxSlots : Int) : Option Pool :=
  if h : maxSlots ≤ 0 ∨ (maxSlotsPerType : Int) < maxSlots then none
  else some
    { maxSlots := maxSlots.toNat
      pos := by omega
      le := by omega
      slotBitmap := 0
      semaphore := maxSlots.toNat }

def mask (slot : Nat) : Word := Bitmap.mask 32 slot

/-- The scan of `interp_pool_find_free_slot` over its copy of the bitmap, up to the first slot that
appears free. -/
def firstFree (maxSlots : Nat) (bitmap : Word) : Option Nat :=
  (List.range maxSlots).find? fun slot => bitmap &&& mask slot = 0

/-- Where a thread is in a call. -/
inductive PC where
  | idle
  /-- `ios_interp_acquire` about to wait for the semaphore -/
  | waitSem (timeoutMs : Int)
  /-- `interp_pool_find_free_slot` about to load the bitmap -/
  | findLoad
  /-- `slot` is free in the loaded bitmap -/
  | findCas (bitmap : Word) (slot : Nat)
  /-- `interp_pool_find_free_slot` has returned -1, the token is about to be given back -/
  | findFailed
  /-- `ios_interp_try_acquire_slot` about to try the semaphore -/
  | slotSem (slot : Int)
  | slotLoad (slot : Nat)
  | slotCas (slot : Nat) (oldBitmap : Word)
  /-- the slot was not available, the token is about to be given back -/
  | slotSignal
  /-- `ios_interp_release` -/
  | relLoad (slot : Nat)
  | relCas (slot : Nat) (oldBitmap : Word)
  | relSignal
  deriving DecidableEq

/-- The pool, the slot numbers of the handles that have not been given to a release, and the
threads. -/
structure State where
  pool : Pool
  handles : List Nat
  threads : List PC

def State.goto (s : State) (i : Nat) (pc : PC) : State := { s with threads := s.threads.set i pc }

def State.signal (s : State) : State := { s with pool.semaphore := s.pool.semaphore + 1 }

def State.store (s : State) (bitmap : Word) : State := { s with pool.slotBitmap := bitmap }

/-- The loop of `interp_pool_try_acquire_slot_internal`, up to its exchange. -/
def slotLoop (slot : Nat) (oldBitmap : Word) : PC :=
  if oldBitmap &&& mask slot = 0 then .slotCas slot oldBitmap else .slotSignal

/-- The next step of thread `i`, which is at the given place. `fail` says that a wait runs out of
time or that a weak exchange fails without a reason. -/
def advance (s : State) (i : Nat) (fail : Bool) : PC → Option State
  | .idle => none
  | .waitSem timeoutMs =>
    if fail then
      if timeoutMs < 0 then none else some (s.goto i .idle)
    else if 0 < s.pool.semaphore then
      some ({ s with pool.semaphore := s.pool.semaphore - 1 }.goto i .findLoad)
    else none
  | .findLoad =>
    match firstFree s.pool.maxSlots s.pool.slotBitmap with
    | some slot => some (s.goto i (.findCas s.pool.slotBitmap slot))
    | none => some (s.goto i .findFailed)
  | .findCas bitmap slot =>
    if s.pool.slotBitmap = bitmap then
      some { (s.store (bitmap ||| mask slot)).goto i .idle with handles := slot :: s.handles }
    else some (s.goto i .findLoad)
  | .findFailed => some (s.signal.goto i .idle)
  | .slotSem slot =>
    -- a wait with `DISPATCH_TIME_NOW` never blocks
    if 0 < s.pool.semaphore then
      let s1 := { s with pool.semaphore := s.pool.semaphore - 1 }
      if slot < 0 ∨ (s.pool.maxSlots : Int) ≤ slot then some (s1.goto i .slotSignal)
      else some (s1.goto i (.slotLoad slot.toNat))
    else some (s.goto i .idle)
  | .slotLoad slot => some (s.goto i (slotLoop slot s.pool.slotBitmap))
  | .slotCas slot oldBitmap =>
    if s.pool.slotBitmap = oldBitmap ∧ fail = false then
      some { (s.store (oldBitmap ||| mask slot)).goto i .idle with handles := slot :: s.handles }
    else some (s.goto i (slotLoop slot s.pool.slotBitmap))
  | .slotSignal => some (s.signal.goto i .idle)
  | .relLoad slot => some (s.goto i (.relCas slot s.pool.slotBitmap))
  | .relCas slot oldBitmap =>
    if s.pool.slotBitmap = oldBitmap ∧ fail = false then
      some ((s.store (oldBitmap &&& ~~~(mask slot))).goto i .relSignal)
    else some (s.goto i (.relCas slot s.pool.slotBitmap))
  | .relSignal => some (s.signal.goto i .idle)

inductive Label where
  | acquire (i : Nat) (timeoutMs : Int)
  | tryAcquireSlot (i : Nat) (slot : Int)
  /-- the handle of `slot` is released, by whichever thread -/
  | release (i : Nat) (slot : Nat)
  | advance (i : Nat) (fail : Bool)

def step (s : State) : Label → Option State
  | .acquire i timeoutMs =>
    if s.threads[i]? = some .idle then some (s.goto i (.waitSem timeoutMs)) else none
  | .tryAcquireSlot i slot =>
    if s.threads[i]? = some .idle then some (s.goto i (.slotSem slot)) else none
  | .release i slot =>
    if s.threads[i]? = some .idle ∧ slot ∈ s.handles then
      some ({ s with handles := s.handles.erase slot }.goto i (.relLoad slot))
    else none
  | .advance i fail =>
    match s.threads[i]? with
    | some pc => advance s i fail pc
    | none => none

/-- The states of all interleavings of any number of threads on a pool with `maxSlots` slots. -/
def Reachable (maxSlots : Int) (s : State) : Prop :=
  Transition.Reachable step (fun _ _ => True)
    (fun s => initType maxSlots = some s.pool ∧ s.handles = [] ∧
      ∃ n, s.threads = List.replicate n .idle) s

end IosSystem.Interp
