import DeferredQuery.Number.Binary64
import DeferredQuery.Plan.Key

/-!
# Plan caches

A cache keeps what was stored first under each key. At its capacity it drops some entry for each
new one; which one is left to the cache's choice of victims.
-/

namespace DeferredQuery

structure CacheStats where
  hits : Nat
  misses : Nat
  evictions : Nat
  size : Nat
deriving DecidableEq, Repr

namespace CacheStats

/-- The part of the lookups that found something; zero before the first lookup. -/
def hitRate (s : CacheStats) : Float :=
  if s.hits + s.misses = 0 then 0.0
  else Float.ofNat s.hits / Float.ofNat (s.hits + s.misses)

end CacheStats

/-- A cache that keeps at most `capacity` plans, or any number if that is zero. -/
structure PlanStore (α : Type) where
  capacity : Nat
  /-- The place of the entry to drop, given how many were dropped before; it counts around the
  entries. -/
  victim : Nat → Nat
  entries : List (PlanKey × α)
  hits : Nat
  misses : Nat
  evictions : Nat

namespace PlanStore

variable {α : Type}

def empty (capacity : Nat) (victim : Nat → Nat) : PlanStore α := ⟨capacity, victim, [], 0, 0, 0⟩

/-- The plan under a key, without a trace in the statistics. -/
def find? (s : PlanStore α) (key : PlanKey) : Option α :=
  (s.entries.find? fun e => e.1 == key).map Prod.snd

def contains (s : PlanStore α) (key : PlanKey) : Bool := (s.find? key).isSome

def get (s : PlanStore α) (key : PlanKey) : Option α × PlanStore α :=
  match s.find? key with
  | some a => (some a, { s with hits := s.hits + 1 })
  | none => (none, { s with misses := s.misses + 1 })

def isFull (s : PlanStore α) : Bool := 0 < s.capacity && s.capacity ≤ s.entries.length

def makeRoom (s : PlanStore α) : PlanStore α :=
  if s.isFull then
    { s with
      entries := s.entries.eraseIdx (s.victim s.evictions % s.entries.length)
      evictions := s.evictions + 1 }
  else s

/-- Stores a plan unless there is one under the key; the result is the plan that is there now. -/
def insert (s : PlanStore α) (key : PlanKey) (a : α) : α × PlanStore α :=
  match s.find? key with
  | some kept => (kept, s)
  | none =>
    let s := s.makeRoom
    (a, { s with entries := s.entries ++ [(key, a)] })

def clear (s : PlanStore α) : PlanStore α := { s with entries := [] }

def stats (s : PlanStore α) : CacheStats := ⟨s.hits, s.misses, s.evictions, s.entries.length⟩

end PlanStore

inductive PlanCache (α : Type) where
  | keeping (store : PlanStore α)
  /-- Keeps nothing and counts the lookups. -/
  | disabled (misses : Nat)

namespace PlanCache

variable {α : Type}

def get : PlanCache α → PlanKey → Option α × PlanCache α
  | keeping s, key => let (found, s) := s.get key; (found, keeping s)
  | disabled misses, _ => (none, disabled (misses + 1))

def insert : PlanCache α → PlanKey → α → α × PlanCache α
  | keeping s, key, a => let (kept, s) := s.insert key a; (kept, keeping s)
  | disabled misses, _, a => (a, disabled misses)

def clear : PlanCache α → PlanCache α
  | keeping s => keeping s.clear
  | disabled misses => disabled misses

def stats : PlanCache α → CacheStats
  | keeping s => s.stats
  | disabled misses => ⟨0, misses, 0, 0⟩

/-- The cache with the given settings; it drops the oldest plans first. -/
def ofSettings (enabled : Bool) (capacity : Nat) : PlanCache α :=
  if enabled then keeping (.empty capacity fun _ => 0) else disabled 0

end PlanCache

end DeferredQuery
