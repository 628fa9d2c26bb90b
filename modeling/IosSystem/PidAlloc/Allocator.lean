import IosSystem.Lib.Chain
import Mathlib.Algebra.Ring.Int.Defs

/-!
# The state of the PID allocator

`g_pid_allocator` of `ios_pid_allocator.c`: a hash table of the contexts in use, and a stack of
those that can be used again, linked through `next_free`.

A context is never freed, so it is named by the order of its creation. The chain of a bucket is a
list, since it is only changed under the write lock of the bucket. The free list has no lock and is
kept with its pointers.
-/

namespace IosSystem.PidAlloc

open Function

def initialPid : Int := 100

def hashTableSize : Nat := 256

/-- `hash_pid` -/
def hashPid (pid : Int) : Nat := (pid % 2 ^ 32 % hashTableSize).toNat

/-- A `pid_t` has 32 bits, and `atomic_fetch_add` wraps around. -/
def wrapPid (n : Int) : Int := (n + 2 ^ 31) % 2 ^ 32 - 2 ^ 31

theorem wrapPid_of_lt {n : Int} (h0 : 0 ≤ n) (h : n < 2 ^ 31) : wrapPid n = n := by
  unfold wrapPid
  omega

/-- `struct _ios_pid_context` -/
structure Context where
  pid : Int
  threadId : Nat
  nextFree : Option Nat
  refCount : Int
  isAllocated : Bool

/-- `g_pid_allocator`, with the contexts that were ever created. -/
structure Allocator where
  contexts : Nat → Context
  created : Nat
  buckets : Nat → List Nat
  /-- `free_list.head` -/
  head : Option Nat
  /-- `free_list.size` -/
  size : Int
  nextPid : Int
  totalAllocated : Int
  currentlyActive : Int

namespace Allocator

/-- `pid_allocator_init_once` -/
def init : Allocator :=
  { contexts := fun _ => ⟨0, 0, none, 0, false⟩
    created := 0
    buckets := fun _ => []
    head := none
    size := 0
    nextPid := initialPid
    totalAllocated := 0
    currentlyActive := 0 }

/-- Write to a field of context `c`. -/
def modify (a : Allocator) (c : Nat) (f : Context → Context) : Allocator :=
  { a with contexts := update a.contexts c (f (a.contexts c)) }

/-- `pid_allocator_create_context`, when `calloc` succeeds. The new context is `a.created`. -/
def createContext (a : Allocator) (pid : Int) : Allocator :=
  { a with
    contexts := update a.contexts a.created ⟨pid, 0, none, 1, true⟩
    created := a.created + 1 }

/-- The bucket of context `c`. -/
def bucketOf (a : Allocator) (c : Nat) : Nat := hashPid (a.contexts c).pid

/-- `pid_allocator_insert_active` -/
def insertActive (a : Allocator) (c : Nat) : Allocator :=
  { a with
    buckets := update a.buckets (a.bucketOf c) (c :: a.buckets (a.bucketOf c)) }

/-- `pid_allocator_remove_active` -/
def removeActive (a : Allocator) (c : Nat) : Allocator :=
  { a with
    buckets := update a.buckets (a.bucketOf c) ((a.buckets (a.bucketOf c)).erase c) }

/-- `atomic_fetch_add(&ctx->ref_count, n)` -/
def addRef (a : Allocator) (c : Nat) (n : Int) : Allocator :=
  a.modify c fun x => { x with refCount := x.refCount + n }

/-- The entry that `ios_pid_lookup` finds. -/
def find (a : Allocator) (pid : Int) : Option Nat :=
  (a.buckets (hashPid pid)).find? fun c =>
    (a.contexts c).pid = pid ∧ (a.contexts c).isAllocated = true

/-- The entry of one bucket that `ios_pid_lookup_by_thread` finds. -/
def findThread (a : Allocator) (thread bucket : Nat) : Option Nat :=
  (a.buckets bucket).find? fun c =>
    (a.contexts c).threadId = thread ∧ (a.contexts c).isAllocated = true

/-- The context is in its bucket. -/
def Active (a : Allocator) (c : Nat) : Prop := c ∈ a.buckets (a.bucketOf c)

instance (a : Allocator) (c : Nat) : Decidable (a.Active c) :=
  inferInstanceAs (Decidable (c ∈ _))

def next (a : Allocator) (c : Nat) : Option Nat := (a.contexts c).nextFree

/-- The context can be reached from `free_list.head`. -/
def OnFreeList (a : Allocator) (c : Nat) : Prop := Linked.Reaches a.next a.head c

theorem contexts_modify_self (a : Allocator) (c : Nat) (f : Context → Context) :
    (a.modify c f).contexts c = f (a.contexts c) :=
  update_self ..

variable {c : Nat} {a : Allocator}

theorem contexts_modify_of_ne (a : Allocator) {d : Nat} (f : Context → Context) (h : d ≠ c) :
    (a.modify c f).contexts d = a.contexts d :=
  update_of_ne h ..

theorem contexts_modify_field {β : Type} (g : Context → β) (a : Allocator)
    {f : Context → Context} (hf : g (f (a.contexts c)) = g (a.contexts c)) (d : Nat) :
    g ((a.modify c f).contexts d) = g (a.contexts d) := by
  by_cases h : d = c
  · subst h; rw [contexts_modify_self, hf]
  · rw [contexts_modify_of_ne a f h]

variable {b : Nat}

section

variable (a : Allocator)

theorem modify_modify (c : Nat) (f g : Context → Context) :
    (a.modify c f).modify c g = a.modify c (g ∘ f) := by
  simp [Allocator.modify]

theorem head_modify (c : Nat) (f : Context → Context) : (a.modify c f).head = a.head := rfl

theorem contexts_addRef_self (c : Nat) (n : Int) :
    (a.addRef c n).contexts c = { a.contexts c with refCount := (a.contexts c).refCount + n } :=
  contexts_modify_self ..

theorem contexts_addRef_of_ne {d : Nat} (n : Int) (h : d ≠ c) :
    (a.addRef c n).contexts d = a.contexts d :=
  contexts_modify_of_ne a _ h

theorem contexts_create_self (pid : Int) :
    (a.createContext pid).contexts a.created = ⟨pid, 0, none, 1, true⟩ :=
  update_self ..

theorem contexts_create_of_ne (pid : Int) (h : c ≠ a.created) :
    (a.createContext pid).contexts c = a.contexts c :=
  update_of_ne h ..

theorem buckets_insert_self (c : Nat) :
    (a.insertActive c).buckets (a.bucketOf c) = c :: a.buckets (a.bucketOf c) :=
  update_self ..

theorem buckets_insert_of_ne (h : b ≠ a.bucketOf c) : (a.insertActive c).buckets b = a.buckets b :=
  update_of_ne h ..

theorem buckets_remove_self (c : Nat) :
    (a.removeActive c).buckets (a.bucketOf c) = (a.buckets (a.bucketOf c)).erase c :=
  update_self ..

theorem buckets_remove_of_ne (h : b ≠ a.bucketOf c) : (a.removeActive c).buckets b = a.buckets b :=
  update_of_ne h ..

theorem mem_insertActive (c b d : Nat) :
    d ∈ (a.insertActive c).buckets b ↔ d ∈ a.buckets b ∨ (d = c ∧ b = a.bucketOf c) := by
  by_cases hb : b = a.bucketOf c
  · subst hb
    rw [buckets_insert_self, List.mem_cons, and_iff_left rfl]
    exact or_comm
  · simp [buckets_insert_of_ne a hb, hb]

end

theorem mem_removeActive (hn : ∀ b, (a.buckets b).Nodup) (c b d : Nat) :
    d ∈ (a.removeActive c).buckets b ↔ d ∈ a.buckets b ∧ (d ≠ c ∨ b ≠ a.bucketOf c) := by
  by_cases hb : b = a.bucketOf c
  · subst hb
    rw [buckets_remove_self, (hn _).mem_erase_iff]
    simp [and_comm]
  · simp [buckets_remove_of_ne a hb, hb]

/-- Every entry is in the bucket of its id, once. -/
structure TableOk (a : Allocator) : Prop where
  nodup : ∀ b, (a.buckets b).Nodup
  bucket : ∀ b, ∀ c ∈ a.buckets b, c < a.created ∧ a.bucketOf c = b

section

variable (h : a.TableOk)
include h

theorem TableOk.active (hc : c ∈ a.buckets b) : a.Active c := by
  unfold Active
  rw [(h.bucket b c hc).2]
  exact hc

theorem TableOk.lt_created (hc : a.Active c) : c < a.created :=
  (h.bucket _ c hc).1

theorem TableOk.congr {a' : Allocator} (hb : a'.buckets = a.buckets) (hc : a.created ≤ a'.created)
    (hp : ∀ c < a.created, (a'.contexts c).pid = (a.contexts c).pid) : a'.TableOk := by
  refine ⟨fun b => hb ▸ h.nodup b, fun b c hm => ?_⟩
  rw [hb] at hm
  obtain ⟨hlt, hbucket⟩ := h.bucket b c hm
  refine ⟨Nat.lt_of_lt_of_le hlt hc, ?_⟩
  rw [bucketOf, hp c hlt]
  exact hbucket

theorem TableOk.insertActive (hlt : c < a.created) (hc : ¬ a.Active c) :
    (a.insertActive c).TableOk := by
  refine ⟨fun b => ?_, fun b d hm => ?_⟩
  · by_cases hb : b = a.bucketOf c
    · subst hb
      rw [buckets_insert_self]
      exact List.nodup_cons.2 ⟨hc, h.nodup _⟩
    · rw [buckets_insert_of_ne a hb]
      exact h.nodup b
  · rw [mem_insertActive] at hm
    rcases hm with hm | ⟨rfl, rfl⟩
    · exact h.bucket b d hm
    · exact ⟨hlt, rfl⟩

theorem TableOk.removeActive (c : Nat) : (a.removeActive c).TableOk := by
  refine ⟨fun b => ?_, fun b d hm => ?_⟩
  · by_cases hb : b = a.bucketOf c
    · subst hb
      rw [buckets_remove_self]
      exact (h.nodup _).erase c
    · rw [buckets_remove_of_ne a hb]
      exact h.nodup b
  · rw [mem_removeActive h.nodup] at hm
    exact h.bucket b d hm.1

end

theorem active_insertActive (a : Allocator) (c d : Nat) :
    (a.insertActive c).Active d ↔ a.Active d ∨ d = c := by
  unfold Active
  rw [mem_insertActive]
  constructor
  · rintro (h | ⟨rfl, -⟩)
    · exact .inl h
    · exact .inr rfl
  · rintro (h | rfl)
    · exact .inl h
    · exact .inr ⟨rfl, rfl⟩

theorem active_removeActive (h : a.TableOk) (c d : Nat) :
    (a.removeActive c).Active d ↔ a.Active d ∧ d ≠ c := by
  unfold Active
  rw [mem_removeActive h.nodup]
  constructor
  · rintro ⟨hd, hne⟩
    refine ⟨hd, ?_⟩
    rintro rfl
    rcases hne with hne | hne
    · exact hne rfl
    · exact hne rfl
  · rintro ⟨hd, hne⟩
    exact ⟨hd, .inl hne⟩

end Allocator

end IosSystem.PidAlloc
