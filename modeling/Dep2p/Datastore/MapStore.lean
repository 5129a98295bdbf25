import Dep2p.Lib.Reach
import Dep2p.Lib.Table
import Dep2p.Datastore.Query

/- The map datastore (`datastore/basic_ds.go`) and the calls a datastore answers.

   A query ranges over a Go map, in an order that the runtime picks anew each time, so a
   call to a datastore may have several possible answers.

   Correspondence (Go ↔ Lean):
     `MapDatastore`                                   ↔ `Store`
     `Put`, `Delete`                                  ↔ `Store.step`
     `Get`, `Has`, `GetSize`                          ↔ `Store.Answers`
     `Query`                                          ↔ `query`, over the entries in some order -/
namespace Dep2p.Datastore

open Lib

abbrev Store := Table Key Bytes

inductive Call where
  | put (key : Key) (value : Bytes)
  | get (key : Key)
  | has (key : Key)
  | getSize (key : Key)
  | delete (key : Key)
  | query (q : Query)

/-- A value or a size that is not there is `ErrNotFound`. -/
inductive Answer where
  | done
  | value (v : Option Bytes)
  | found (b : Bool)
  | size (n : Option Nat)
  | results (r : Results)
  deriving DecidableEq

/-- The key a call is made for. -/
def Call.key? : Call → Option Key
  | .put key _ => some key
  | .get key => some key
  | .has key => some key
  | .getSize key => some key
  | .delete key => some key
  | .query _ => none

def entryOf (keysOnly : Bool) (kv : Key × Bytes) : Entry where
  key := kv.1.string
  value := if keysOnly then [] else kv.2
  size := kv.2.length

/-- Entries of different keys have different texts for keys. -/
theorem nodup_keys (keysOnly : Bool) {es : List (Key × Bytes)} (h : (es.map (·.1)).Nodup) :
    ((es.map (entryOf keysOnly)).map Entry.key).Nodup := by
  have hkeys := h.map fun _ _ => Key.ext
  simpa [entryOf, Function.comp_def] using hkeys

variable (s : Sorter Entry)

/-- `MapDatastore.Query` when the map gives its entries in the order of the list. -/
def query (es : List (Key × Bytes)) (q : Query) : Results :=
  naiveQueryApply s q ⟨es.map (entryOf q.keysOnly), false⟩

namespace Store

def step (t : Store) : Call → Store
  | .put key value => t.set key value
  | .delete key => t.erase key
  | _ => t

def Answers (t : Store) : Call → Answer → Prop
  | .put _ _, a => a = .done
  | .get key, a => a = .value (t.get key)
  | .has key, a => a = .found (t.get key).isSome
  | .getSize key, a => a = .size ((t.get key).map List.length)
  | .delete _, a => a = .done
  | .query q, a => ∃ es, es.Perm t.entries ∧ a = .results (query s es q)

/-- One call: its answer and the store after it. -/
def Next (t : Store) (c : Call) (a : Answer) (t' : Store) : Prop := Answers s t c a ∧ t' = t.step c

/-- Nothing that is read from a map panics. -/
theorem Answers.panics {s : Sorter Entry} {t : Store} {c : Call} {r : Results}
    (h : t.Answers s c (.results r)) : r.panics = false := by
  cases c with
  | query q =>
    obtain ⟨es, -, hr⟩ := h
    rw [Answer.results.inj hr, query, naiveQueryApply_entries]
  | put key value | get key | has key | getSize key | delete key => cases h

end Store

end Dep2p.Datastore
