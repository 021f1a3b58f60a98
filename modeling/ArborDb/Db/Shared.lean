import ArborDb.Txn.Read

/-!
# Threads on one database

Any number of threads share the committed state, the generation, the version lock and the caches.
A reader captures a snapshot and the generation under the read lock; afterwards its calls run one
cache access at a time. A writing commit, a flush of access times and the removal of a user commit
and then advance the generation under the write lock. The other operations commit without it. One
event is one atomic step of one thread; an event that is not enabled gives no state.
-/

namespace ArborDb

/-- Where a thread is. -/
inductive Thread where
  | idle
  /-- Holds the read lock and has not begun its snapshot. -/
  | reading (handle : Handle)
  /-- Holds the read lock and has not loaded the generation. -/
  | begun (handle : Handle) (db : Db)
  /-- Holds the read lock, with everything captured. -/
  | loaded (t : ReadTxn)
  | calling (n : Nat) (call : ReadCall) (rest : Consult CacheOp CacheOp.Result (AdbResult Answer))
  | answered (n : Nat) (call : ReadCall) (result : AdbResult Answer)
  /-- Holds the write lock and has not committed. -/
  | writing
  /-- Holds the write lock and has not advanced the generation. -/
  | committed
  /-- Holds the write lock, with everything done. -/
  | bumped

namespace Thread

def holdsRead : Thread → Bool
  | reading _ => true
  | begun _ _ => true
  | loaded _ => true
  | _ => false

def holdsWrite : Thread → Bool
  | writing => true
  | committed => true
  | bumped => true
  | _ => false

end Thread

/-- An operation that commits without advancing the generation. -/
inductive Quiet where
  | createIndex (e : Env) (d : IndexDef)
  | deleteIndex (table name : Str)
  | admin (e : Env) (p : Primitives) (op : Admin)

/-- The state after an operation, none if it fails. -/
def Quiet.apply [Externals] (db : Db) : Quiet → Option Db
  | .createIndex e d => (db.createIndex e d).toOption
  | .deleteIndex table name => ((db.deleteIndex table name).toOption).map Prod.fst
  | .admin e p op => if op.bumps then none else (op.exec e p db).toOption

/-- The shared state and the threads. -/
structure Sys where
  db : Db
  generation : UInt64
  caches : SortedMap Str PathCache
  txns : SortedMap Nat (ReadTxn × Memo)
  threads : SortedMap Nat Thread

/-- A step of thread `i`. -/
inductive Event where
  | lockRead (i : Nat) (handle : Handle)
  | beginRead (i : Nat)
  | loadGeneration (i : Nat)
  /-- Releases the lock; the transaction has number `n`. -/
  | unlockRead (i n : Nat)
  | call (i n : Nat) (call : ReadCall)
  /-- The next cache access of a call. -/
  | access (i : Nat)
  | return (i : Nat)
  | evict (table : Str) (eviction : Eviction)
  | lockWrite (i : Nat)
  /-- The commit of whatever the transaction wrote. -/
  | commit (i : Nat) (db : Db)
  | abort (i : Nat)
  | bump (i : Nat)
  | unlockWrite (i : Nat)
  | quiet (op : Quiet)

def Event.bumps : Event → Bool
  | bump _ => true
  | _ => false

namespace Sys

/-- A database that was just opened. -/
def opened (db : Db) : Sys := ⟨db, 0, .empty, .empty, .empty⟩

variable (c : TagScheme) (s : Sys)

def thread (i : Nat) : Thread := (s.threads.get i).getD .idle

def cache (table : Str) : PathCache := (s.caches.get table).getD .new

def set (i : Nat) (th : Thread) : Sys := { s with threads := s.threads.insert i th }

def readLocked : Bool := s.threads.values.any Thread.holdsRead

def writeLocked : Bool := s.threads.values.any Thread.holdsWrite

/-- The state after a cache access of a call of transaction `n`. -/
def performed (i n : Nat) (call : ReadCall) (t : ReadTxn) (memo : Memo) (op : CacheOp)
    (next : op.Result → Consult CacheOp CacheOp.Result (AdbResult Answer)) : Sys :=
  let (a, cache, memo) := op.exec t.generation (s.cache t.table) memo
  { s with
    caches := s.caches.insert t.table cache
    txns := s.txns.insert n (t, memo) }.set i (.calling n call (next a))

def step [Externals] : Event → Option Sys
  | .lockRead i handle => match s.thread i with
    | .idle => if s.writeLocked then none else some (s.set i (.reading handle))
    | _ => none
  | .beginRead i => match s.thread i with
    | .reading handle => some (s.set i (.begun handle s.db))
    | _ => none
  | .loadGeneration i => match s.thread i with
    | .begun handle db => some (s.set i (.loaded ⟨handle, db, s.generation⟩))
    | _ => none
  | .unlockRead i n => match s.thread i with
    | .loaded t =>
      if s.txns.contains n then none
      else some ({ s with txns := s.txns.insert n (t, .new) }.set i .idle)
    | _ => none
  | .call i n call => match s.thread i, s.txns.get n with
    | .idle, some (t, _) => some (s.set i (.calling n call (call.prog c t).run))
    | _, _ => none
  | .access i => match s.thread i with
    | .calling n call (.ask op next) => (s.txns.get n).map fun x => s.performed i n call x.1 x.2 op next
    | _ => none
  | .return i => match s.thread i with
    | .calling n call (.done a) => some (s.set i (.answered n call a))
    | .answered _ _ _ => some (s.set i .idle)
    | _ => none
  | .evict table eviction =>
    some { s with caches := s.caches.insert table ((s.cache table).evict eviction) }
  | .lockWrite i => match s.thread i with
    | .idle => if s.readLocked || s.writeLocked then none else some (s.set i .writing)
    | _ => none
  | .commit i db => match s.thread i with
    | .writing => some ({ s with db := db }.set i .committed)
    | _ => none
  | .abort i => match s.thread i with
    | .writing => some (s.set i .idle)
    | _ => none
  | .bump i => match s.thread i with
    | .committed => some ({ s with generation := s.generation + 1 }.set i .bumped)
    | _ => none
  | .unlockWrite i => match s.thread i with
    | .bumped => some (s.set i .idle)
    | _ => none
  | .quiet op => (op.apply s.db).map fun db => { s with db := db }

def run [Externals] (s : Sys) : List Event → Option Sys
  | [] => some s
  | event :: events => (s.step c event).bind fun s => run s events

/-- A condition on every event of a run and the state in which it happens. -/
def Along [Externals] (P : Sys → Event → Prop) (s : Sys) : List Event → Prop
  | [] => True
  | event :: events => P s event ∧ ∀ s', s.step c event = some s' → Along P s' events

end Sys

end ArborDb
