import Casm.Routing.Schema

namespace Casm.Routing
open MultiIndex

/-- `idIndexer.FromArgs` on a bare record: the fast index when there is one,
else the base58 form of the peer ID. -/
def idFromArgs (b58 : Bytes → Bytes) (rec : Record) : Except Fault Bytes :=
  rec.peerIndex.getD (.ok (b58 rec.peer))

/-- A routing table: the clock, and the committed state of its record table.
A transaction is a value of `E.Txn`; committing one makes it `records`. -/
structure Table (E : Engine schema) where
  clock : Int
  records : E.Txn

namespace Table

variable {E : Engine schema}

def new (t0 : Int) : Table E where
  clock := t0
  records := E.empty

def expiredRecords (tx : E.Txn) (t : Int) : Bool :=
  !(E.reverseLowerBound tx .ttl (timeToBytes t)).isEmpty

/-- The iterator is a snapshot taken before the first delete. A failed delete
becomes a panic that leaves the transaction as far as it got. -/
def dropExpired (wx : E.Txn) (t : Int) : E.Txn × Except Fault Unit :=
  match E.deleteAll wx (E.reverseLowerBound wx .ttl (timeToBytes t)) with
  | (wx', .ok ()) => (wx', .ok ())
  | (wx', .error fault) => (wx', .error fault.raise)

/-- Both deferred calls run on every path, so the clock is stored and the
transaction committed even when `dropExpired` panics. -/
def advance (table : Table E) (t : Int) : Table E × Except Fault Unit :=
  if table.clock < t then
    if expiredRecords table.records t then
      let (wx, result) := dropExpired table.records t
      ({ clock := t, records := wx }, result)
    else ({ table with clock := t }, .ok ())
  else (table, .ok ())

theorem dropExpired_eq (wx : E.Txn) (t : Int) :
    dropExpired wx t = ((E.deleteAll wx (E.reverseLowerBound wx .ttl (timeToBytes t))).1,
      (E.deleteAll wx (E.reverseLowerBound wx .ttl (timeToBytes t))).2.mapError Fault.raise) := by
  unfold dropExpired
  split
  all_goals
    rename_i equal
    rw [equal]
    rfl

/-- A lookup that fails to build its key finds nothing and reports an error,
which makes the record invalid. -/
def valid (b58 : Bytes → Bytes) (tx : E.Txn) (rec : Record) : Except Fault Bool :=
  match idFromArgs b58 rec with
  | .error (.panic msg) => .error (.panic msg)
  | .error (.error _) => .ok false
  | .ok key =>
    match E.first tx .id key with
    | none => .ok true
    | some old => do
      let oldSeq ← old.record.seq
      let seq ← rec.seq
      -- Same instance: the most recent record. Another instance: the youngest.
      if old.record.server = rec.server then return oldSeq < seq else return oldSeq > seq

def withDeadline (table : Table E) (rec : Record) : DeadlineRecord where
  record := rec
  deadline := table.clock + rec.ttl

/-- The write transaction of `Upsert`: insert, panic on failure, and commit
either way. -/
def write (table : Table E) (rec : Record) : Table E × Except Fault Unit :=
  match E.insert table.records (table.withDeadline rec) with
  | (wx, .ok ()) => ({ table with records := wx }, .ok ())
  | (wx, .error fault) => ({ table with records := wx }, .error fault.raise)

theorem write_eq (table : Table E) (rec : Record) :
    table.write rec = ({ table with records := (E.insert table.records (table.withDeadline rec)).1 },
      (E.insert table.records (table.withDeadline rec)).2.mapError Fault.raise) := by
  unfold write
  split
  all_goals
    rename_i equal
    rw [equal]
    rfl

def upsert (b58 : Bytes → Bytes) (table : Table E) (rec : Record) : Table E × Except Fault Bool :=
  match valid b58 table.records rec with
  | .error fault => (table, .error fault)
  | .ok false => (table, .ok false)
  | .ok true =>
    match table.write rec with
    | (table', .ok ()) => (table', .ok true)
    | (table', .error fault) => (table', .error fault)

/-- The record the table stores for a peer key, as a lookup on the primary
index finds it. -/
def Stores (table : Table E) (r : DeadlineRecord) : Prop :=
  E.Holds table.records r

end Table

/-- The calls of a table's public interface. -/
inductive Call where
  | upsert (rec : Record)
  | advance (t : Int)

/-- What a call returns: `Upsert` a flag, `Advance` nothing. -/
abbrev Reply := Except Fault (Option Bool)

namespace Table

variable {E : Engine schema} (b58 : Bytes → Bytes)

def call (table : Table E) : Call → Table E × Reply
  | .upsert rec =>
    let (table', result) := table.upsert b58 rec
    (table', result.map some)
  | .advance t =>
    let (table', result) := table.advance t
    (table', result.map fun _ => none)

/-- Calls executed one after the other, with their replies. -/
def run (table : Table E) : List Call → Table E × List Reply
  | [] => (table, [])
  | c :: rest =>
    let (table', reply) := table.call b58 c
    let (final, replies) := run table' rest
    (final, reply :: replies)

end Table

end Casm.Routing
