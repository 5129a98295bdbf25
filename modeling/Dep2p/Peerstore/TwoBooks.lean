import Dep2p.Peerstore.MemView
import Dep2p.Peerstore.DsView

/- The two address books against each other.

   Both books are given the same calls at whole-second times, and the one in memory
   collects its expired entries before every call. The book over a datastore is first
   compared with one without a cache (`Tied`), and the record of that one with the entries
   in memory (`Lists`): an address that is not expired has the same TTL and the same
   expiry in both, in seconds here and in nanoseconds there.

   What is proved:
     1. `Agree.step` — a call keeps the two books in agreement.
     2. `two_books_agree` — in every run both books return the same addresses of a peer,
        exactly where those in memory all parse.
     3. `empty_address_hides_others` — one that does not parse hides the others. -/
namespace Dep2p.Peerstore

open Lib List MemoryAddrBook Multiaddr.Wire

/-- A book in memory, one over a datastore, and the time of their last call. -/
structure TwoBooks where
  mem : MemoryAddrBook
  ds : DsAddrBook
  clock : Int

variable (mab : MemoryAddrBook)

namespace TwoBooks

/-- `order` is the order in which the book in memory takes the entries of the peer, `hit`
what a lookup in the cache of the other book finds. -/
inductive Call where
  | addAddrs (now : Int) (p : PeerID) (args : List (Option Multiaddr)) (ttl : Int) (hit : Bool)
  | setAddrs (now : Int) (p : PeerID) (args : List (Option Multiaddr)) (ttl : Int) (hit : Bool)
  | updateAddrs (now : Int) (p : PeerID) (oldTTL newTTL : Int) (order : List Nat) (hit : Bool)
  | clearAddrs (now : Int) (p : PeerID) (order : List Nat)
  | addrs (now : Int) (p : PeerID) (hit : Bool)

namespace Call

def now : Call → Int
  | addAddrs now .. | setAddrs now .. | updateAddrs now .. | clearAddrs now .. | addrs now .. => now

def onMem : Call → MemoryAddrBook
  | addAddrs now p args ttl _ => mab.addAddrs now p args ttl
  | setAddrs now p args ttl _ => mab.setAddrs now p args ttl
  | updateAddrs now p oldTTL newTTL order _ => mab.updateAddrs now p oldTTL newTTL order
  | clearAddrs _ p order => mab.clearAddrs p order
  | addrs .. => mab

def onDs : Call → DsAddrBook.Call
  | addAddrs now p args ttl hit => .addAddrs now p args ttl hit
  | setAddrs now p args ttl hit => .setAddrs now p args ttl hit
  | updateAddrs now p oldTTL newTTL _ hit => .updateAddrs now p oldTTL newTTL hit
  | clearAddrs now p _ => .clearAddrs now p
  | addrs now p hit => .addrs now p hit

/-- A `time.Duration` of whole seconds. -/
def IsTTL (d : Int) : Prop := WholeSeconds d ∧ -9223372036854775808 ≤ d ∧ d < 9223372036854775808

/-- TTLs are whole seconds, those of `SetAddrs` positive, and no address is named twice. -/
def WellFormed : Call → Prop
  | addAddrs _ p args ttl _ => IsTTL ttl ∧ (cleanAddrs args p).Nodup
  | setAddrs _ p args ttl _ => IsTTL ttl ∧ 0 < ttl ∧ (cleanAddrs args p).Nodup
  | updateAddrs _ _ oldTTL newTTL _ _ => IsTTL oldTTL ∧ IsTTL newTTL
  | clearAddrs .. | addrs .. => True

/-- The order a loop of the book in memory takes covers the entries of the peer. -/
def Ranges : Call → Prop
  | updateAddrs _ p _ _ order _ => order.Perm (mab.addrs.ofPeer p)
  | clearAddrs _ p order => order.Perm (mab.addrs.ofPeer p)
  | addAddrs .. | setAddrs .. | addrs .. => True

end Call

def init (caching : Bool) (maxUnconnected maxSigned start : Int) : TwoBooks :=
  ⟨MemoryAddrBook.newAddrBook maxUnconnected maxSigned, { caching }, start⟩

/-- The book in memory collects its expired entries, and both books do the call. -/
def step {ε : Type} (sorter : ExpirySort) (ps : Multiaddr.Protocols ε) (s : TwoBooks) (c : Call) :
    TwoBooks :=
  ⟨c.onMem (s.mem.gc c.now), (s.ds.exec sorter ps c.onDs).2, c.now⟩

/-- The cap of the book in memory is not reached. -/
def HasRoom : Prop :=
  (mab.addrs.numUnconnectedAddrs : Int) < mab.maxUnconnectedAddrs

structure Allowed (s : TwoBooks) (c : Call) : Prop where
  time : s.clock ≤ c.now
  whole : WholeSeconds c.now
  wellFormed : c.WellFormed
  ranges : c.Ranges (s.mem.gc c.now)
  roomBefore : HasRoom (s.mem.gc c.now)
  roomAfter : HasRoom (c.onMem (s.mem.gc c.now))

end TwoBooks

/-! ## One peer in both books -/

/-- An entry in memory as the datastore would keep it. -/
def toEntry (e : ExpiringAddr) : AddrEntry := ⟨e.addr, e.ttl, unix e.expiry⟩

/-- The record of a peer lists the entries in memory that are not expired. -/
structure Lists (t : Int) (view : Multiaddr → Option ExpiringAddr) (b : Slot) : Prop where
  tidy : Tidy b.record.addrs
  look : ∀ addr, (look b.record.addrs addr).filter (fun x => t < x.expiry) =
    ((view addr).map toEntry).filter fun x => t < x.expiry

/-- What is listed of a book that has collected its expired entries. -/
structure Exact (t : Int) (view : Multiaddr → Option ExpiringAddr) (b : Slot) : Prop where
  tidy : Tidy b.record.addrs
  look : ∀ addr, (look b.record.addrs addr).filter (fun x => t < x.expiry) = (view addr).map toEntry

variable {sorter : ExpirySort} {now t t' ttl : Int} {b b' : Slot} {hit : Bool} {p : PeerID}
  {view view' : Multiaddr → Option ExpiringAddr} {ε : Type} {ps : Multiaddr.Protocols ε}

theorem filter_live_live (h : t ≤ t') (o : Option AddrEntry) :
    (o.filter fun x => t < x.expiry).filter (fun x => t' < x.expiry) =
      o.filter fun x => t' < x.expiry := by
  rw [Option.filter_filter]
  congr 1
  funext x
  by_cases hx : t' < x.expiry
  · simp [lt_of_le_of_lt h hx]
  · simp [hx]

theorem Lists.mono (h : Lists t view b) (ht : t ≤ t') : Lists t' view b := by
  refine ⟨h.tidy, fun addr => ?_⟩
  rw [← filter_live_live ht, h.look, filter_live_live ht]

theorem unix_lt_iff {s u : Int} (hs : WholeSeconds s) (hu : WholeSeconds u) :
    unix s < unix u ↔ s < u := by
  unfold WholeSeconds at hs hu
  unfold unix
  omega

/-- Collecting what has expired leaves what is listed. -/
theorem Lists.collect (h : Lists (unix now) view b) (hnow : WholeSeconds now)
    (htimed : ∀ addr e, view addr = some e → e.Timed) :
    Exact (unix now) (fun addr => (view addr).filter fun e => now < e.expiry) b := by
  refine ⟨h.tidy, fun addr => ?_⟩
  rw [h.look]
  cases hv : view addr with
  | none => rfl
  | some e =>
    have hiff : unix now < (toEntry e).expiry ↔ now < e.expiry :=
      unix_lt_iff hnow (htimed addr e hv).expiry
    simp only [Option.map_some, Option.filter_some, hiff]
    split <;> rfl

theorem Exact.lists (h : Exact t view b) : Lists t view b := by
  refine ⟨h.tidy, fun addr => ?_⟩
  rw [← h.look, filter_live_live (le_refl t)]

/-- A record written with the entries that are then in memory. -/
theorem lists_of_written (ht : Tidy b'.record.addrs)
    (hlook : ∀ addr, look b'.record.addrs addr =
      ((view' addr).map toEntry).filter fun x => t < x.expiry) : Lists t view' b' := by
  refine ⟨ht, fun addr => ?_⟩
  rw [hlook, filter_live_live (le_refl t)]

/-! ## One call on a peer -/

variable {addr : Multiaddr} {o : Option ExpiringAddr} {exp : Int}

theorem toEntry_addedTo (hexp : WholeSeconds exp)
    (ho : ∀ e, o = some e → e.Timed) :
    mergedTo .extend ttl (unix exp) addr (o.map toEntry) =
      toEntry (addedTo p ttl exp addr o) := by
  cases o with
  | none => rfl
  | some e =>
    have hiff : unix e.expiry < unix exp ↔ e.expiry < exp := unix_lt_iff (ho e rfl).expiry hexp
    simp only [mergedTo, Option.map_some, AddrEntry.rewrite, toEntry, addedTo, hiff]
    congr 1
    split <;> rfl

theorem toEntry_written (ho : ∀ e, o = some e → e.addr = addr) :
    mergedTo .override ttl (unix exp) addr (o.map toEntry) =
      toEntry { addr, expiry := exp, ttl, peer := p } := by
  cases o with
  | none => rfl
  | some e =>
    rw [← ho e rfl]
    rfl

section

variable (h : Exact (unix now) view b) (hb : b.cached = none)
include h hb

/-- A call that writes the entries `made` of its arguments. -/
theorem Exact.setAddrs {mode : TtlWriteMode}
    (made : Multiaddr → Option ExpiringAddr → ExpiringAddr)
    (hmade : ∀ addr, mergedTo mode ttl (unix (now + ttl)) addr ((view addr).map toEntry) =
      toEntry (made addr (view addr)))
    {args : List Multiaddr} (hargs : args.Nodup)
    (hview : ∀ addr, view' addr =
      if addr ∈ args then some (made addr (view addr)) else view addr) :
    Lists (unix now) view' (b.setAddrs sorter false hit now args ttl mode) := by
  by_cases hne : args = []
  · have hsame : view' = view := by
      funext addr
      rw [hview, hne, if_neg not_mem_nil]
    rw [Slot.setAddrs, if_pos hne, hsame]
    exact h.lists
  · obtain ⟨ht, hlook⟩ := setAddrs_plain sorter hit now ttl mode hb h.tidy hargs hne
    apply lists_of_written ht
    intro addr
    rw [hlook, h.look, hview]
    split
    · rw [hmade]
      rfl
    · rfl

theorem Exact.updateAddrs {oldTTL newTTL : Int}
    (hview : ∀ addr, view' addr =
      (view addr).bind (updatedTo oldTTL newTTL (now + newTTL))) :
    Lists (unix now) view' (b.updateAddrs sorter false hit now oldTTL newTTL) := by
  obtain ⟨ht, hlook⟩ := updateAddrs_plain sorter hit now oldTTL newTTL hb h.tidy
  refine ⟨ht, fun addr => ?_⟩
  rw [hlook, h.look, hview]
  cases view addr with
  | none => rfl
  | some e =>
    rw [Option.map_some, Option.map_some, Option.bind_some]
    unfold AddrEntry.retime updatedTo
    by_cases hold : oldTTL = e.ttl
    · have hold' : (toEntry e).ttl = oldTTL := hold.symm
      rw [if_pos hold, if_neg (not_not.mpr hold')]
      split
      · -- a TTL of zero: the entry is deleted here, and has expired there
        rename_i hzero
        simp [hzero]
      · rfl
    · have hold' : (toEntry e).ttl ≠ oldTTL := symm hold
      rw [if_neg hold, if_pos hold']
      rfl

theorem Exact.addrs :
    Lists (unix now) view (b.addrs sorter false ps hit now).2 := by
  obtain ⟨_, _, hshrunk⟩ := Slot.addrs_plain hb
  obtain ⟨ht, hlook⟩ := hshrunk.tidy h.tidy
  refine ⟨ht, fun addr => ?_⟩
  rw [hlook]
  exact h.lists.look addr

end

theorem lists_empty : Lists t (fun _ => none) {} := ⟨tidy_nil, fun _ => rfl⟩

/-! ## The books together -/

namespace TwoBooks

/-- Both books hold the same addresses that are not expired. -/
structure Agree (s : TwoBooks) : Prop where
  timed : s.mem.addrs.Timed
  slots : ∀ p, ∃ b, Tied False (unix s.clock) (s.ds.slots p) b ∧
    Lists (unix s.clock) (fun addr => s.mem.addrs.view (p, addr)) b

variable {s : TwoBooks} {c : Call} {d : Int}

/-- A whole-second duration is below the TTL of a connected peer. -/
theorem IsTTL.unconnected (h : Call.IsTTL d) : ¬ ttlIsConnected d := by
  unfold Call.IsTTL WholeSeconds at h
  unfold ttlIsConnected connectedAddrTTL
  omega

theorem WholeSeconds.add {d' : Int} (h : WholeSeconds d) (h' : WholeSeconds d') :
    WholeSeconds (d + d') := Int.dvd_add h h'

/-- The state of a peer after the collection that precedes a call. -/
theorem Agree.collect (h : Agree s) (htime : s.clock ≤ now) (hnow : WholeSeconds now) :
    ∃ b, Tied False (unix now) (s.ds.slots p) b ∧
      Exact (unix now) (fun addr => (s.mem.gc now).addrs.view (p, addr)) b := by
  obtain ⟨b, htied, hlists⟩ := h.slots p
  have ht := DsAddrBook.unix_mono htime
  refine ⟨b, htied.mono ht, ?_⟩
  have hexact := (hlists.mono ht).collect hnow fun addr e he => h.timed.entries _ e he
  have hview : (fun addr => (s.mem.gc now).addrs.view (p, addr)) =
      fun addr => (s.mem.addrs.view (p, addr)).filter fun e => now < e.expiry :=
    funext fun addr => (timed_gc h.timed now).2 _
  rw [hview]
  exact hexact

variable {mem' : MemoryAddrBook}

/-- A call that changes only what the books hold of one peer keeps the agreement, if it
does so for that peer. -/
theorem Agree.of_peer (h : Agree s) (htime : s.clock ≤ now) (hnow : WholeSeconds now)
    {slot' : Slot} (htimed : mem'.addrs.Timed)
    (hother : ∀ q addr, q ≠ p → mem'.addrs.view (q, addr) = (s.mem.gc now).addrs.view (q, addr))
    (htied : Tied False (unix now) slot' b')
    (hlists : Lists (unix now) (fun addr => mem'.addrs.view (p, addr)) b') :
    Agree ⟨mem', s.ds.update p slot', now⟩ := by
  refine ⟨htimed, ?_⟩
  intro q
  by_cases hq : q = p
  · subst hq
    refine ⟨b', ?_, hlists⟩
    show Tied False _ (Function.update s.ds.slots q slot' q) b'
    rw [Function.update_self]
    exact htied
  · obtain ⟨b, hb, hexact⟩ := h.collect htime hnow
    refine ⟨b, ?_, ?_⟩
    · show Tied False _ (Function.update s.ds.slots p slot' q) b
      rw [Function.update_of_ne hq]
      exact hb
    · have hview : (fun addr => mem'.addrs.view (q, addr)) =
          fun addr => (s.mem.gc now).addrs.view (q, addr) := funext fun addr => hother q addr hq
      rw [hview]
      exact hexact.lists

/-- A call that changes nothing keeps the agreement. -/
theorem Agree.idle (h : Agree s) (htime : s.clock ≤ now) (hnow : WholeSeconds now)
    (hsame : mem'.addrs = (s.mem.gc now).addrs) :
    Agree ⟨mem', s.ds, now⟩ := by
  refine ⟨?_, ?_⟩
  · show mem'.addrs.Timed
    rw [hsame]
    exact (timed_gc h.timed now).1
  · intro p
    obtain ⟨b, hb, hexact⟩ := h.collect htime hnow
    refine ⟨b, hb, ?_⟩
    rw [hsame]
    exact hexact.lists

/-! ## One call on both books -/

section

variable {args : List (Option Multiaddr)} {oldTTL newTTL : Int} {order : List Nat}

section

variable (h : Agree s) (sorter : ExpirySort)
include h

theorem Agree.addAddrs (hok : Allowed s (.addAddrs now p args ttl hit)) :
    Agree (s.step sorter ps (.addAddrs now p args ttl hit)) := by
  have htime : s.clock ≤ now := hok.time
  have hnow : WholeSeconds now := hok.whole
  obtain ⟨httl, hn⟩ := hok.wellFormed
  have hgc := (timed_gc h.timed now).1
  have hexp : WholeSeconds (now + ttl) := WholeSeconds.add hnow httl.1
  show Agree ⟨(s.mem.gc now).addAddrs now p args ttl, s.ds.addAddrs sorter now p args ttl hit, now⟩
  unfold DsAddrBook.addAddrs
  split
  · rename_i hpos
    apply h.idle htime hnow
    simp [MemoryAddrBook.addAddrs, hpos, addrs_maybeDeleteSignedPeerRecord]
  · rename_i hpos
    have hroom : ¬ (s.mem.gc now).maxUnconnectedAddrs ≤
        ((s.mem.gc now).addrs.numUnconnectedAddrs : Int) := not_le.mpr hok.roomBefore
    have hmem : ((s.mem.gc now).addAddrs now p args ttl).addrs =
        args.foldl (addOne p ttl (now + ttl)) (s.mem.gc now).addrs := by
      simp [MemoryAddrBook.addAddrs, hpos, hroom, addrs_maybeDeleteSignedPeerRecord]
    obtain ⟨htimed, hview⟩ := view_addLoop hgc (IsTTL.unconnected httl) hexp args hn
    rw [← hmem] at htimed hview
    obtain ⟨b, hb, hexact⟩ := h.collect htime hnow
    refine h.of_peer htime hnow htimed ?_
      (hb.setAddrs sorter _ hit _ ttl .extend fun hf => hf.elim) ?_
    · intro q addr hq
      rw [hview, if_neg fun hc => hq hc.1]
    · apply hexact.setAddrs hb.plain (addedTo p ttl (now + ttl))
        (fun addr => toEntry_addedTo hexp fun e he => hgc.entries _ e he) hn
      intro addr
      rw [hview]
      simp

theorem Agree.setAddrs (hok : Allowed s (.setAddrs now p args ttl hit)) :
    Agree (s.step sorter ps (.setAddrs now p args ttl hit)) := by
  have htime : s.clock ≤ now := hok.time
  have hnow : WholeSeconds now := hok.whole
  obtain ⟨httl, hpos, hn⟩ := hok.wellFormed
  have hgc := (timed_gc h.timed now).1
  have hexp : WholeSeconds (now + ttl) := WholeSeconds.add hnow httl.1
  have hmem : ((s.mem.gc now).setAddrs now p args ttl).addrs =
      args.foldl (setOne (s.mem.gc now).maxUnconnectedAddrs p ttl (now + ttl))
        (s.mem.gc now).addrs := by
    simp [MemoryAddrBook.setAddrs, addrs_maybeDeleteSignedPeerRecord]
  have hroom : (((s.mem.gc now).setAddrs now p args ttl).addrs.numUnconnectedAddrs : Int) <
      (s.mem.gc now).maxUnconnectedAddrs := by
    have hafter : HasRoom ((s.mem.gc now).setAddrs now p args ttl) := hok.roomAfter
    unfold HasRoom at hafter
    rw [max_setAddrs] at hafter
    exact hafter
  rw [hmem] at hroom
  obtain ⟨htimed, hview⟩ := view_setLoop hgc hpos (IsTTL.unconnected httl) hexp args hn
    hroom
  rw [← hmem] at htimed hview
  obtain ⟨b, hb, hexact⟩ := h.collect htime hnow
  show Agree ⟨(s.mem.gc now).setAddrs now p args ttl, s.ds.setAddrs sorter now p args ttl hit, now⟩
  unfold DsAddrBook.setAddrs
  rw [if_neg (not_le.mpr hpos)]
  refine h.of_peer htime hnow htimed ?_
    (hb.setAddrs sorter _ hit _ ttl .override fun hf => hf.elim) ?_
  · intro q addr hq
    rw [hview, if_neg fun hc => hq hc.1]
  · apply hexact.setAddrs hb.plain (fun addr _ => { addr, expiry := now + ttl, ttl, peer := p })
      (fun addr => toEntry_written fun e he => congrArg Prod.snd (key_of_view hgc.indexed he)) hn
    intro addr
    rw [hview]
    simp

theorem Agree.updateAddrs (hok : Allowed s (.updateAddrs now p oldTTL newTTL order hit)) :
    Agree (s.step sorter ps (.updateAddrs now p oldTTL newTTL order hit)) := by
  have htime : s.clock ≤ now := hok.time
  have hnow : WholeSeconds now := hok.whole
  obtain ⟨_, hnew⟩ := hok.wellFormed
  have hgc := (timed_gc h.timed now).1
  have hexp : WholeSeconds (now + newTTL) := WholeSeconds.add hnow hnew.1
  have hr : order.Perm ((s.mem.gc now).addrs.ofPeer p) := hok.ranges
  have hmem : ((s.mem.gc now).updateAddrs now p oldTTL newTTL order).addrs =
      order.foldl (updateOne (s.mem.gc now).maxUnconnectedAddrs oldTTL newTTL
        (now + newTTL)) (s.mem.gc now).addrs := by
    simp [MemoryAddrBook.updateAddrs, addrs_maybeDeleteSignedPeerRecord]
  have hloop := view_updateLoop (s.mem.gc now).maxUnconnectedAddrs oldTTL
    (IsTTL.unconnected hnew) hexp hgc hr
  rw [← hmem] at hloop
  obtain ⟨htimed, hview⟩ := hloop
  obtain ⟨b, hb, hexact⟩ := h.collect htime hnow
  show Agree ⟨(s.mem.gc now).updateAddrs now p oldTTL newTTL order, s.ds.update p
    ((s.ds.slots p).updateAddrs sorter s.ds.caching hit now oldTTL newTTL), now⟩
  refine h.of_peer htime hnow htimed ?_ (hb.updateAddrs sorter _ hit oldTTL newTTL) ?_
  · intro q addr hq
    rw [hview, if_neg hq]
  · apply hexact.updateAddrs hb.plain
    intro addr
    rw [hview, if_pos rfl]

theorem Agree.clearAddrs (hok : Allowed s (.clearAddrs now p order)) :
    Agree (s.step sorter ps (.clearAddrs now p order)) := by
  have hgc := (timed_gc h.timed now).1
  have hr : order.Perm ((s.mem.gc now).addrs.ofPeer p) := hok.ranges
  obtain ⟨htimed, hview⟩ := view_clearLoop hgc hr
  have hmem : ((s.mem.gc now).clearAddrs p order).addrs =
      order.foldl .delete (s.mem.gc now).addrs := rfl
  rw [← hmem] at htimed hview
  show Agree ⟨(s.mem.gc now).clearAddrs p order, s.ds.update p {}, now⟩
  refine h.of_peer hok.time hok.whole htimed ?_ tied_empty ?_
  · intro q addr hq
    rw [hview, if_neg hq]
    rfl
  · have hnone : (fun addr => ((s.mem.gc now).clearAddrs p order).addrs.view (p, addr)) =
        fun _ => none := by
      funext addr
      rw [hview, if_pos rfl, Option.bind_fun_none]
    rw [hnone]
    exact lists_empty

theorem Agree.addrs (hok : Allowed s (.addrs now p hit)) :
    Agree (s.step sorter ps (.addrs now p hit)) := by
  have hgc := (timed_gc h.timed now).1
  obtain ⟨b, hb, hexact⟩ := h.collect hok.time hok.whole
  have hlists : Lists _ _ (b.addrs sorter false ps hit now).2 := hexact.addrs hb.plain
  exact h.of_peer hok.time hok.whole hgc (fun _ _ _ => rfl) (hb.addrs sorter s.ds.caching hit).2
    hlists

end

end

theorem Agree.step (h : Agree s) (hok : Allowed s c) :
    Agree (s.step sorter ps c) := by
  cases c with
  | addAddrs now p args ttl hit => exact h.addAddrs sorter hok
  | setAddrs now p args ttl hit => exact h.setAddrs sorter hok
  | updateAddrs now p oldTTL newTTL order hit => exact h.updateAddrs sorter hok
  | clearAddrs now p order => exact h.clearAddrs sorter hok
  | addrs now p hit => exact h.addrs sorter hok

theorem agree_reach (caching : Bool) (maxUnconnected maxSigned start : Int)
    (h : Reach (step sorter ps) Allowed (init caching maxUnconnected maxSigned start) s) : Agree s := by
  refine h.invariant ?_ ?_
  · refine ⟨⟨PeerAddrs.indexed_empty, fun _ _ hk => (by cases hk)⟩, fun p => ⟨{}, tied_empty, ?_⟩⟩
    exact lists_empty
  · intro s c _ hok hs
    exact hs.step hok

/-- An address is read from the book in memory where it has an entry that is not
expired. -/
theorem mem_getAddrs {mab : MemoryAddrBook} (h : mab.addrs.Timed) :
    addr ∈ mab.getAddrs now p ↔ ∃ e, mab.addrs.view (p, addr) = some e ∧ now < e.expiry := by
  unfold getAddrs
  rw [mem_map]
  constructor
  · intro hm
    obtain ⟨a, ha, haddr⟩ := hm
    obtain ⟨ha, hexp⟩ := mem_filter.mp ha
    obtain ⟨addr', hget⟩ := h.indexed.mem_ofPeer.mp ha
    have hkey : (mab.addrs.entry a).addr = addr' :=
      congrArg Prod.snd (h.indexed.home _ a hget).1
    rw [decide_eq_true_iff] at hexp
    refine ⟨mab.addrs.entry a, ?_, not_le.mp hexp⟩
    rw [← haddr, hkey]
    exact view_of_get hget
  · intro hm
    obtain ⟨e, hview, hexp⟩ := hm
    obtain ⟨a, hget, hea⟩ := Option.map_eq_some_iff.mp hview
    refine ⟨a, mem_filter.mpr ⟨h.indexed.mem_ofPeer.mpr ⟨addr, hget⟩, ?_⟩, ?_⟩
    · rw [decide_eq_true_iff, hea]
      exact not_le.mpr hexp
    · exact congrArg Prod.snd (h.indexed.home _ a hget).1

/-- Two lists with the same addresses, of which one is parsed. -/
theorem same_reparse_iff {l l' : List Multiaddr} (h : ∀ addr, addr ∈ l ↔ addr ∈ l') :
    (∀ addr, addr ∈ l ↔ addr ∈ reparse ps l') ↔ ∀ addr ∈ l, parses ps addr := by
  unfold reparse
  split
  · rename_i hall
    exact ⟨fun _ addr hm => all_eq_true.mp hall addr ((h addr).mp hm), fun _ => h⟩
  · rename_i hall
    constructor
    · intro hsame addr hm
      exact absurd ((hsame addr).mp hm) not_mem_nil
    · intro hparse
      exact absurd (all_eq_true.mpr fun addr hm => hparse addr ((h addr).mpr hm)) hall

/-- In every run of allowed calls, and whatever the cache of the one over a datastore holds,
the two books return the same addresses of a peer exactly where those in memory all parse. -/
theorem two_books_agree (sorter : ExpirySort) (ps : Multiaddr.Protocols ε) (caching : Bool)
    (maxUnconnected maxSigned start : Int)
    (h : Reach (step sorter ps) Allowed (init caching maxUnconnected maxSigned start) s) (now : Int)
    (htime : s.clock ≤ now) (hnow : WholeSeconds now) (p : PeerID) (hit : Bool) :
    (∀ addr, addr ∈ (s.mem.gc now).getAddrs now p ↔
      addr ∈ ((s.ds.slots p).addrs sorter s.ds.caching ps hit now).1) ↔
      ∀ addr ∈ (s.mem.gc now).getAddrs now p, parses ps addr := by
  have hagree := agree_reach caching maxUnconnected maxSigned start h
  have hgc := timed_gc hagree.timed now
  obtain ⟨b, hb, hexact⟩ := hagree.collect htime hnow
  rw [(hb.addrs sorter s.ds.caching hit).1, (Slot.addrs_plain hb.plain).1]
  refine same_reparse_iff fun addr => ?_
  rw [mem_getAddrs hgc.1]
  have hlook := hexact.look addr
  rw [← hexact.tidy.look_removeExpired] at hlook
  have hd := (hexact.tidy.removeExpired (unix now)).distinct
  constructor
  · intro hm
    obtain ⟨e, hview, _⟩ := hm
    have hsome : look (removeExpired b.record.addrs (unix now)) addr = some (toEntry e) := by
      rw [hlook, hview]
      rfl
    obtain ⟨hmem, haddr⟩ := (look_eq_some hd).mp hsome
    exact mem_map.mpr ⟨_, hmem, haddr⟩
  · intro hm
    obtain ⟨x, hx, hxa⟩ := mem_map.mp hm
    rw [(look_eq_some hd).mpr ⟨hx, hxa⟩] at hlook
    obtain ⟨e, hview, _⟩ := Option.map_eq_some_iff.mp hlook.symm
    refine ⟨e, hview, ?_⟩
    rw [hgc.2] at hview
    exact of_decide_eq_true (Option.filter_eq_some_iff.mp hview).2

/-- Two addresses for ten seconds; at the fifth second they are updated to twenty, and one
of them is set to a second. -/
def updated : TwoBooks :=
  (((init true 1000000 100000 0).step .stable portTable
    (.addAddrs 0 [1] [some [⟨6, [0, 80]⟩], some [⟨6, [0, 81]⟩]] 10000000000 true)).step .stable
    portTable (.updateAddrs 5000000000 [1] 10000000000 20000000000 [1, 0] true)).step .stable
    portTable (.setAddrs 5000000000 [1] [some [⟨6, [0, 80]⟩]] 1000000000 false)

theorem updated_reached :
    Reach (step .stable portTable) Allowed (init true 1000000 100000 0) updated := by
  refine .step _ (.step _ (.step _ .init ?_) ?_) ?_
  · refine ⟨by decide, by decide, ⟨⟨by decide, by decide⟩, by decide⟩, trivial, ?_, ?_⟩
    all_goals unfold HasRoom; decide +kernel
  · refine ⟨by decide, by decide, ⟨⟨by decide, by decide⟩, by decide, by decide⟩, ?_, ?_, ?_⟩
    · show List.Perm _ _
      decide +kernel
    all_goals unfold HasRoom; decide +kernel
  · refine ⟨by decide, by decide, ⟨⟨by decide, by decide⟩, by decide, by decide⟩, trivial, ?_, ?_⟩
    all_goals unfold HasRoom; decide +kernel

/-- After ten seconds only the address that kept its twenty seconds is left. -/
theorem two_books_agree_updated :
    (∀ addr, addr ∈ (updated.mem.gc 10000000000).getAddrs 10000000000 [1] ↔
      addr ∈ ((updated.ds.slots [1]).addrs .stable updated.ds.caching portTable true
        10000000000).1) ∧
      (updated.mem.gc 10000000000).getAddrs 10000000000 [1] = [[⟨6, [0, 81]⟩]] := by
  have hleft : (updated.mem.gc 10000000000).getAddrs 10000000000 [1] = [[⟨6, [0, 81]⟩]] := by
    decide +kernel
  refine ⟨?_, hleft⟩
  rw [two_books_agree .stable portTable true 1000000 100000 0 updated_reached 10000000000
    (by decide) (by decide) [1] true, hleft]
  decide +kernel

/-- The empty address, which `Join` makes of nothing, and another one for ten seconds. -/
def joined : TwoBooks :=
  (init true 1000000 100000 0).step .stable portTable
    (.addAddrs 0 [1] [some [], some [⟨6, [0, 80]⟩]] 10000000000 true)

/-- The book in memory returns both, the one over a datastore neither. -/
theorem empty_address_hides_others :
    Reach (step .stable portTable) Allowed (init true 1000000 100000 0) joined ∧
      (joined.mem.gc 0).getAddrs 0 [1] = [[⟨6, [0, 80]⟩], []] ∧
      ((joined.ds.slots [1]).addrs .stable true portTable true 0).1 = [] := by
  refine ⟨.step _ .init ⟨by decide, by decide, ⟨⟨by decide, by decide⟩, by decide⟩, trivial, ?_, ?_⟩,
    by decide +kernel, rfl⟩
  all_goals unfold HasRoom; decide +kernel

end TwoBooks

end Dep2p.Peerstore
