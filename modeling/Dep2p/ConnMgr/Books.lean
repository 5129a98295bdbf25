import Dep2p.ConnMgr.Decay
import Dep2p.ConnMgr.Emergency

/- The books of the connection manager.

   A record caches the sum of its tags, the manager caches the number of connections, and
   a flag says that a record waits for its first connection. Tags are changed by calls and
   by the decayer, records come and go with connections and trims. `Sound` is what holds of
   a record and `Books` of a manager.

   Most calls rewrite one record, or each of them, without touching its connections:
   `Update` says so once, and `Books.put` and `Books.mapValues` carry the books over.

   What is proved:
     1. `books_step` — every call and every event of the decayer keeps the books.
     2. `books_kept` — so they hold after any sequence of them; the counter of
        connections is exact as long as it fits in an `int32`.
     3. `emergency_run` — after any of them the emergency trim does what it is for exactly
        under its condition. -/
namespace Dep2p.ConnMgr

open Lib List Table Int32

/-- A sum of machine integers, with the entry of one key taken out. -/
theorem total_eq_erase {K V : Type} [DecidableEq K] {t : Table K V} (h : t.Keyed) (k : K)
    (f : V → Int64) : t.total f = ((t.get k).map f).getD 0 + (t.erase k).total f := by
  cases hk : t.get k with
  | none =>
    rw [erase_of_get_none hk]
    exact (Int64.zero_add _).symm
  | some v => exact h.total_erase hk f

variable {tag : String}

namespace PeerInfo

variable {pi pi' : PeerInfo} {t : TagID}

/-- The cached value is the sum of the tags. -/
structure Balanced (pi : PeerInfo) : Prop where
  tags : pi.tags.Keyed
  decaying : pi.decaying.Keyed
  value : pi.value = pi.tags.total (fun v => v) + pi.decaying.total DecayingValue.value

/-- The value a record holds for a decaying tag. -/
def held (pi : PeerInfo) (t : TagID) : Int64 := ((pi.decaying.get t).map DecayingValue.value).getD 0

theorem Balanced.tags_erase (h : pi.Balanced) (tag : String) :
    pi.tags.total (fun v => v) = pi.tag tag + (pi.tags.erase tag).total fun v => v := by
  have htotal := total_eq_erase h.tags tag fun v => v
  rwa [Option.map_id'] at htotal

/-- A change to the tags of a record that leaves its connections alone. -/
structure Update (pi pi' : PeerInfo) : Prop where
  id : pi'.id = pi.id
  conns : pi'.conns = pi.conns
  temp : pi'.temp = pi.temp
  balanced : pi.Balanced → pi'.Balanced

theorem Update.refl (pi : PeerInfo) : Update pi pi := ⟨rfl, rfl, rfl, fun h => h⟩

theorem update_setTag (tag : String) (val : Int64) :
    Update pi { pi with value := pi.value + (val - pi.tag tag), tags := pi.tags.set tag val } := by
  refine ⟨rfl, rfl, rfl, fun h => ⟨h.tags.set tag val, h.decaying, ?_⟩⟩
  have hsum := h.tags_erase tag
  have hvalue := h.value
  simp only [total_set]
  grind

theorem update_eraseTag (pi : PeerInfo) (tag : String) :
    Update pi { pi with value := pi.value - pi.tag tag, tags := pi.tags.erase tag } := by
  refine ⟨rfl, rfl, rfl, fun h => ⟨h.tags.erase tag, h.decaying, ?_⟩⟩
  have hsum := h.tags_erase tag
  have hvalue := h.value
  grind

theorem Balanced.setDecaying (h : pi.Balanced) (v : DecayingValue) :
    Balanced { pi with
      value := pi.value + (v.value - pi.held t), decaying := pi.decaying.set t v } := by
  refine ⟨h.tags, h.decaying.set t v, ?_⟩
  have hsum := total_eq_erase h.decaying t DecayingValue.value
  have hvalue := h.value
  simp only [total_set, held]
  grind

theorem Balanced.eraseDecaying (h : pi.Balanced) (t : TagID) :
    Balanced { pi with
      value := pi.value - pi.held t, decaying := pi.decaying.erase t } := by
  refine ⟨h.tags, h.decaying.erase t, ?_⟩
  have hsum := total_eq_erase h.decaying t DecayingValue.value
  have hvalue := h.value
  simp only [held]
  grind

/-! ## The decayer -/

variable (d : Decayer) (visit : List TagID) (now : Int)

theorem held_of_get {v : DecayingValue} (h : pi.decaying.get t = some v) :
    pi.held t = v.value := by
  simp [held, h]

/-- One value of the record decays; the other values stay. -/
theorem decayOne_spec {e : TagID × DecayingValue} (he : pi.decaying.get e.1 = some e.2) :
    Update pi (decayOne d visit now pi e) ∧
      ∀ t, t ≠ e.1 → (decayOne d visit now pi e).decaying.get t = pi.decaying.get t := by
  have hheld := held_of_get he
  unfold decayOne
  split
  · exact ⟨.refl pi, fun _ _ => rfl⟩
  split
  · split
    · refine ⟨⟨rfl, rfl, rfl, fun h => ?_⟩, fun t ht => pi.decaying.get_erase_ne ht⟩
      have hbal := h.eraseDecaying e.1
      rw [hheld, Int64.sub_eq_add_neg] at hbal
      rwa [Int64.zero_sub]
    · refine ⟨⟨rfl, rfl, rfl, fun h => ?_⟩, fun t ht => pi.decaying.get_set_ne _ ht⟩
      rw [← hheld]
      exact h.setDecaying _
  · exact ⟨.refl pi, fun _ _ => rfl⟩

theorem Update.trans {pi'' : PeerInfo} (h : Update pi pi') (h' : Update pi' pi'') :
    Update pi pi'' :=
  ⟨h'.id.trans h.id, h'.conns.trans h.conns, h'.temp.trans h.temp,
    fun hb => h'.balanced (h.balanced hb)⟩

/-- The loop over the decaying values. What is still to come is untouched, because no tag
has two entries. -/
theorem update_decayLoop (es : List (TagID × DecayingValue)) (hes : (es.map (·.1)).Nodup)
    (h : ∀ e ∈ es, pi.decaying.get e.1 = some e.2) :
    Update pi (es.foldl (decayOne d visit now) pi) := by
  induction es generalizing pi with
  | nil => exact .refl pi
  | cons e es ih =>
    rw [map_cons, nodup_cons] at hes
    obtain ⟨hone, hothers⟩ := decayOne_spec d visit now (h e mem_cons_self)
    refine hone.trans (ih hes.2 ?_)
    intro e' he'
    have hne : e'.1 ≠ e.1 := fun heq => hes.1 (heq ▸ mem_map_of_mem he')
    rw [hothers _ hne]
    exact h e' (mem_cons_of_mem _ he')

theorem update_decay (hkeyed : pi.decaying.Keyed) :
    Update pi (pi.decay d visit now) :=
  update_decayLoop d visit now _ hkeyed fun _ he => hkeyed.mem_iff.mp he

theorem update_bump (cmd : BumpCmd) : Update pi (pi.bump d cmd now) := by
  unfold bump
  dsimp only
  split
  · exact .refl pi
  refine ⟨rfl, rfl, rfl, fun h => ?_⟩
  -- a value that is not there yet counts as zero
  have hheld : pi.held cmd.tag = ((pi.decaying.get cmd.tag).getD
      { tag := cmd.tag, peer := cmd.peer, lastVisit := now, added := now, value := 0 }).value := by
    cases hget : pi.decaying.get cmd.tag <;> simp [held, hget]
  rw [← hheld]
  exact h.setDecaying _

theorem update_removeDecaying : Update pi (pi.removeDecaying t) := by
  unfold removeDecaying
  split
  · exact .refl pi
  rename_i v hv
  refine ⟨rfl, rfl, rfl, fun h => ?_⟩
  rw [← held_of_get hv]
  exact h.eraseDecaying t

/-! ## Sound records -/

/-- What holds of the record filed under `p`. -/
structure Sound (p : PeerID) (pi : PeerInfo) : Prop where
  balanced : pi.Balanced
  id : pi.id = p
  conns : pi.conns.Keyed
  remotePeer : ∀ c ∈ pi.connList, c.remotePeer = p
  /-- A record is temporary exactly when it has no connection. -/
  temp : pi.temp = true ↔ pi.conns.entries = []

theorem Sound.update {p : PeerID} (h : Sound p pi) (hu : Update pi pi') : Sound p pi' where
  balanced := hu.balanced h.balanced
  id := hu.id.trans h.id
  conns := by rw [hu.conns]; exact h.conns
  remotePeer := by unfold connList; rw [hu.conns]; exact h.remotePeer
  temp := by rw [hu.temp, hu.conns]; exact h.temp

/-- An empty record balances. -/
theorem balanced_new (p : PeerID) (now : Int) (temp : Bool) :
    Balanced { id := p, firstSeen := now, temp } :=
  ⟨nodup_nil, nodup_nil, rfl⟩

theorem sound_temp (p : PeerID) (now : Int) :
    Sound p { id := p, firstSeen := now, temp := true } where
  balanced := balanced_new p now true
  id := rfl
  conns := nodup_nil
  remotePeer := fun c hc => by cases hc
  temp := ⟨fun _ => rfl, fun _ => rfl⟩

end PeerInfo

variable (n : Nat)

namespace BasicConnMgr

open PeerInfo

variable {cm : BasicConnMgr} {p : PeerID}

/-- The number of connections of a record. -/
def connLen (pi : PeerInfo) : Nat := pi.conns.entries.length

structure Books (cm : BasicConnMgr) : Prop where
  keyed : cm.peers.Keyed
  sound : ∀ p pi, (p, pi) ∈ cm.peers.entries → Sound p pi
  count : cm.connCount = Int32.ofNat cm.tracked

/-- Sound books are what the emergency trim assumes of a manager. -/
theorem Books.wellFormed (h : Books cm) : cm.WellFormed where
  keyed := h.keyed
  id := fun p pi hm => (h.sound p pi hm).id
  conns := fun p pi hm => (h.sound p pi hm).conns
  remotePeer := fun p pi hm => (h.sound p pi hm).remotePeer

variable {pi : PeerInfo}

theorem Books.sound_get (h : Books cm) (hget : cm.peers.get p = some pi) : Sound p pi :=
  h.sound p pi (h.keyed.mem_iff.mpr hget)

/-- The records after one of them was written. -/
theorem Books.sound_set (h : Books cm) (hpi : Sound p pi) :
    ∀ q qi, (q, qi) ∈ (cm.peers.set p pi).entries → Sound q qi := by
  intro q qi hm
  rcases mem_cons.mp hm with heq | hm
  · cases heq
    exact hpi
  · exact h.sound q qi (mem_filter.mp hm).1

theorem tracked_erase (h : cm.peers.Keyed) (hget : cm.peers.get p = some pi) :
    cm.tracked = connLen pi + (cm.peers.erase p).total connLen :=
  h.total_erase hget connLen

variable {now : Int}

section

variable (h : Books cm)
include h

theorem sound_tagInfoFor (p : PeerID) (now : Int) : Sound p (cm.tagInfoFor p now) := by
  unfold tagInfoFor
  split
  · rename_i hget
    exact h.sound_get hget
  · exact sound_temp p now

theorem tracked_tagInfoFor (p : PeerID) (now : Int) :
    cm.tracked = connLen (cm.tagInfoFor p now) + (cm.peers.erase p).total connLen := by
  unfold tagInfoFor
  split
  · rename_i hget
    exact tracked_erase h.keyed hget
  · rename_i hget
    rw [erase_of_get_none hget]
    exact (zero_add _).symm

/-! ## Changes that leave the connections alone -/

theorem Books.put (hu : Update (cm.tagInfoFor p now) pi) : Books (cm.put p pi) where
  keyed := h.keyed.set p pi
  sound := h.sound_set ((sound_tagInfoFor h p now).update hu)
  count := by
    have hold := tracked_tagInfoFor h p now
    have hnew : (cm.put p pi).tracked = connLen pi + (cm.peers.erase p).total connLen := rfl
    have hlen : connLen pi = connLen (cm.tagInfoFor p now) := by unfold connLen; rw [hu.conns]
    rw [hnew, hlen, ← hold]
    exact h.count

theorem Books.mapValues {g : PeerInfo → PeerInfo}
    (hg : ∀ pi, pi.Balanced → Update pi (g pi)) :
    Books { cm with peers := cm.peers.mapValues g } where
  keyed := h.keyed.mapValues g
  sound := by
    intro q qi hm
    obtain ⟨pi, hpi, rfl⟩ := mem_mapValues.mp hm
    have hs := h.sound q pi hpi
    exact hs.update (hg pi hs.balanced)
  count := by
    have hsame : (cm.peers.mapValues g).total connLen = cm.peers.total connLen := by
      rw [total_mapValues]
      unfold total
      congr 1
      refine map_congr_left fun e he => ?_
      have hs := h.sound e.1 e.2 he
      show (g e.2).conns.entries.length = e.2.conns.entries.length
      rw [(hg e.2 hs.balanced).conns]
    show cm.connCount = ofNat ((cm.peers.mapValues g).total connLen)
    rw [hsame]
    exact h.count

theorem Books.untagPeer : Books (cm.untagPeer p tag) := by
  unfold BasicConnMgr.untagPeer
  split
  · exact h
  rename_i pi hget
  have hinfo : cm.tagInfoFor p 0 = pi := by simp [tagInfoFor, hget]
  have hu := update_eraseTag pi tag
  rw [← hinfo] at hu
  rw [← hinfo]
  exact h.put hu

/-- Protection is not in the books. -/
theorem Books.of_eq {cm' : BasicConnMgr} (hpeers : cm'.peers = cm.peers)
    (hcount : cm'.connCount = cm.connCount) : Books cm' where
  keyed := by rw [hpeers]; exact h.keyed
  sound := by rw [hpeers]; exact h.sound
  count := by unfold tracked; rw [hcount, hpeers]; exact h.count

theorem Books.unprotect : Books (cm.unprotect p tag).1 := by
  unfold BasicConnMgr.unprotect
  split
  · exact h
  · dsimp only
    split <;> exact h.of_eq rfl rfl

end

/-! ## Connections -/

theorem tracked_erase_none (hget : cm.peers.get p = none) :
    cm.tracked = (cm.peers.erase p).total connLen := by
  rw [erase_of_get_none hget]
  rfl

variable {c : Conn}

/-- A record with one connection more. -/
theorem sound_addConn (hbal : pi.Balanced) (hid : pi.id = c.remotePeer) (hconns : pi.conns.Keyed)
    (hremote : ∀ c' ∈ pi.connList, c'.remotePeer = c.remotePeer) (htemp : pi.temp = false) :
    Sound c.remotePeer { pi with conns := pi.conns.set c now } where
  balanced := ⟨hbal.tags, hbal.decaying, hbal.value⟩
  id := hid
  conns := hconns.set c now
  remotePeer := by
    intro c' hc'
    obtain ⟨e, he, rfl⟩ := mem_map.mp hc'
    rcases mem_cons.mp he with rfl | he
    · rfl
    · exact hremote e.1 (mem_map_of_mem (mem_filter.mp he).1)
  temp := by
    constructor
    · intro ht
      rw [htemp] at ht
      cases ht
    · intro hnil
      cases hnil

theorem connLen_addConn (hget : pi.conns.get c = none) :
    connLen { pi with conns := pi.conns.set c now } = connLen pi + 1 := by
  show ((c, now) :: (pi.conns.erase c).entries).length = pi.conns.entries.length + 1
  rw [erase_of_get_none hget, length_cons]

theorem tracked_addConn (hget : pi.conns.get c = none)
    (hlen : cm.tracked = connLen pi + (cm.peers.erase c.remotePeer).total connLen) :
    (cm.put c.remotePeer { pi with conns := pi.conns.set c now }).tracked = cm.tracked + 1 := by
  show connLen { pi with conns := pi.conns.set c now } +
    (cm.peers.erase c.remotePeer).total connLen = _
  rw [connLen_addConn hget, add_right_comm, ← hlen]

theorem ofNat_succ : ofNat (n + 1) = ofNat n + 1 := by
  rw [ofNat_add]
  rfl

/-- Books with one connection more, in a record that has replaced an old one or is new. -/
theorem Books.addConn (h : Books cm)
    (hs : Sound c.remotePeer { pi with conns := pi.conns.set c now }) (hget : pi.conns.get c = none)
    (hlen : cm.tracked = connLen pi + (cm.peers.erase c.remotePeer).total connLen) :
    Books { cm.put c.remotePeer { pi with conns := pi.conns.set c now } with
      connCount := cm.connCount + 1 } where
  keyed := h.keyed.set _ _
  sound := h.sound_set hs
  count := by
    show cm.connCount + 1 = ofNat
      (cm.put c.remotePeer { pi with conns := pi.conns.set c now }).tracked
    rw [tracked_addConn hget hlen, ofNat_succ, h.count]

theorem Books.connected (h : Books cm) : Books (cm.connected c now) := by
  unfold BasicConnMgr.connected
  dsimp only
  cases hget : cm.peers.get c.remotePeer with
  | none =>
    have hlen := tracked_erase_none hget
    refine h.addConn (sound_addConn (balanced_new _ now false) rfl nodup_nil ?_ rfl) rfl ?_
    · intro c' hc'
      cases hc'
    · rw [hlen]
      exact (zero_add _).symm
  | some pi =>
    have hs := h.sound_get hget
    have hlen := tracked_erase h.keyed hget
    dsimp only
    by_cases htemp : pi.temp = true
    · -- a temporary record has no connection, so this is its first
      have hnil := hs.temp.mp htemp
      have hnone : pi.conns.get c = none := by simp [Table.get, hnil]
      have hbal : Balanced { pi with temp := false, firstSeen := now } :=
        ⟨hs.balanced.tags, hs.balanced.decaying, hs.balanced.value⟩
      rw [if_pos htemp]
      rw [hnone]
      exact h.addConn (sound_addConn hbal hs.id hs.conns hs.remotePeer rfl) hnone hlen
    · rw [if_neg htemp]
      cases hc : pi.conns.get c with
      | some t =>
        -- the connection is known: the record is written back as it was
        have hinfo : cm.tagInfoFor c.remotePeer now = pi := by simp [tagInfoFor, hget]
        have hu := Update.refl pi
        nth_rewrite 1 [← hinfo] at hu
        exact h.put hu
      | none =>
        have hfalse : pi.temp = false := Bool.eq_false_iff.mpr htemp
        exact h.addConn (sound_addConn hs.balanced hs.id hs.conns hs.remotePeer hfalse) hc hlen

theorem connLen_eraseConn {t : Int} (hk : pi.conns.Keyed) (hget : pi.conns.get c = some t) :
    connLen pi = (pi.conns.erase c).entries.length + 1 := by
  have htotal := hk.total_erase hget fun _ => 1
  simp only [total, map_const', sum_replicate_nat] at htotal
  unfold connLen
  omega

theorem sound_eraseConn (hs : Sound p pi) (hne : (pi.conns.erase c).entries ≠ []) :
    Sound p { pi with conns := pi.conns.erase c } where
  balanced := ⟨hs.balanced.tags, hs.balanced.decaying, hs.balanced.value⟩
  id := hs.id
  conns := hs.conns.erase c
  remotePeer := by
    intro c' hc'
    obtain ⟨e, he, rfl⟩ := mem_map.mp hc'
    exact hs.remotePeer e.1 (mem_map_of_mem (mem_filter.mp he).1)
  temp := by
    constructor
    · intro ht
      have hnil := hs.temp.mp ht
      exact absurd (by simp [erase, hnil]) hne
    · intro hnil
      exact absurd hnil hne

theorem Books.disconnected (h : Books cm) : Books (cm.disconnected c) := by
  unfold BasicConnMgr.disconnected
  split
  · exact h
  rename_i pi hget
  split
  · exact h
  rename_i t hc
  have hs := h.sound_get hget
  have hlen := connLen_eraseConn hs.conns hc
  have htracked := tracked_erase h.keyed hget
  have hcount : ∀ n, cm.tracked = n + 1 → cm.connCount - 1 = ofNat n := by
    intro n hn
    rw [h.count, hn, ofNat_succ]
    grind
  dsimp only
  by_cases hnil : (pi.conns.erase c).entries = []
  · -- the last connection takes the record with it
    rw [if_pos hnil]
    refine ⟨h.keyed.erase _, fun q qi hm => h.sound q qi (mem_filter.mp hm).1, hcount _ ?_⟩
    show cm.tracked = (cm.peers.erase c.remotePeer).total connLen + 1
    rw [hnil] at hlen
    rw [htracked, hlen, length_nil]
    omega
  · rw [if_neg hnil]
    refine ⟨h.keyed.set _ _, h.sound_set (sound_eraseConn hs hnil), hcount _ ?_⟩
    show cm.tracked = (pi.conns.erase c).entries.length +
      (cm.peers.erase c.remotePeer).total connLen + 1
    omega

/-! ## Trims -/

/-- Records without connections were deleted, and nothing else. -/
structure Sheds (peers peers' : Table PeerID PeerInfo) : Prop where
  keyed : peers.Keyed → peers'.Keyed
  subset : ∀ e ∈ peers'.entries, e ∈ peers.entries
  total : peers.Keyed → peers'.total connLen = peers.total connLen

variable {peers : Table PeerID PeerInfo}

theorem sheds_erase {id : PeerID}
    (hempty : ∀ pi, (id, pi) ∈ peers.entries → connLen pi = 0) : Sheds peers (peers.erase id) where
  keyed := fun h => h.erase id
  subset := fun _ he => (mem_filter.mp he).1
  total := by
    intro h
    cases hget : peers.get id with
    | none => rw [erase_of_get_none hget]
    | some pi =>
      have hzero := hempty pi (h.mem_iff.mpr hget)
      rw [h.total_erase hget connLen, hzero, zero_add]

theorem Sheds.trans {a b c : Table PeerID PeerInfo} (h : Sheds a b) (h' : Sheds b c) :
    Sheds a c where
  keyed := fun hk => h'.keyed (h.keyed hk)
  subset := fun e he => h.subset e (h'.subset e he)
  total := fun hk => (h'.total (h.keyed hk)).trans (h.total hk)

/-- The loop of a trim. A candidate is the only record under its id, and stays so while
others are deleted. -/
theorem closeLoop_sheds (infs : List PeerInfo) (peers : Table PeerID PeerInfo) (target : Int)
    (hfiled : ∀ inf ∈ infs, ∀ pi, (inf.id, pi) ∈ peers.entries → pi = inf) :
    Sheds peers (closeLoop peers target infs).2 := by
  have hrefl : Sheds peers peers := ⟨fun h => h, fun _ he => he, fun _ => rfl⟩
  induction infs generalizing peers target with
  | nil => exact hrefl
  | cons inf infs ih =>
    unfold closeLoop
    split
    · exact hrefl
    split
    · rename_i hempty
      have hshed : Sheds peers (peers.erase inf.id) := by
        refine sheds_erase fun pi hpi => ?_
        rw [hfiled inf mem_cons_self pi hpi]
        have hlen := hempty.1
        rwa [connList, length_map] at hlen
      refine hshed.trans (ih _ target ?_ ⟨fun h => h, fun _ he => he, fun _ => rfl⟩)
      intro inf' hinf' pi hpi
      exact hfiled inf' (mem_cons_of_mem _ hinf') pi (hshed.subset _ hpi)
    · exact ih peers _ (fun inf' hinf' => hfiled inf' (mem_cons_of_mem _ hinf')) hrefl

theorem Books.sheds (h : Books cm) (hs : Sheds cm.peers peers) :
    Books { cm with peers } where
  keyed := hs.keyed h.keyed
  sound := fun q qi hm => h.sound q qi (hs.subset _ hm)
  count := by
    show cm.connCount = ofNat (peers.total connLen)
    rw [hs.total h.keyed]
    exact h.count

theorem Books.trim (h : Books cm) {stat : Conn → ConnStats} (sorter : PeerSort stat false)
    : Books (cm.getConnsToClose sorter now).2 := by
  unfold getConnsToClose
  split
  · exact h
  split
  · exact h
  dsimp only
  split
  · exact h
  refine h.sheds (closeLoop_sheds _ _ _ ?_)
  intro inf hinf pi hpi
  -- the candidate was found in the map, under its own id
  have hcand := (sorter.perm _).mem_iff.mp hinf
  obtain ⟨e, he, rfl⟩ := mem_map.mp hcand
  have hmem := (mem_filter.mp he).1
  have hid := (h.sound e.1 e.2 hmem).id
  rw [hid] at hpi
  have hsome := h.keyed.mem_iff.mp hpi
  have hsome' : cm.peers.get e.1 = some e.2 := h.keyed.mem_iff.mp hmem
  rw [hsome'] at hsome
  exact (Option.some.inj hsome).symm

end BasicConnMgr

namespace Manager

open PeerInfo BasicConnMgr

variable {m : Manager}

theorem books_init (cfg : Config) (resolution now : Int) : Books (init cfg resolution now).cm where
  keyed := nodup_nil
  sound := fun _ _ hm => by cases hm
  count := rfl

/-- Every call and every event of the decayer keeps the books. -/
theorem books_step (h : Books m.cm) (call : Call) : Books (m.step call).cm := by
  cases call with
  | tagPeer p tag val now => exact h.put (update_setTag tag val)
  | untagPeer p tag => exact h.untagPeer
  | upsertTag p tag upsert now => exact h.put (update_setTag tag _)
  | protect p tag => exact h.of_eq rfl rfl
  | unprotect p tag => exact h.unprotect
  | connected c now => exact h.connected
  | disconnected c => exact h.disconnected
  | trim stat sorter now => exact h.trim sorter
  | registerDecayingTag name interval decayFn bumpFn | bump t p delta | remove t p
  | close t => exact h
  | tick now => exact h.mapValues fun pi hbal => update_decay _ _ now hbal.decaying
  | takeBump now =>
    simp only [step, takeBump]
    split
    · exact h
    · exact h.put (update_bump _ now _)
  | takeRemove now =>
    simp only [step, takeRemove]
    split
    · exact h
    · exact h.put update_removeDecaying
  | takeClose =>
    simp only [step, takeClose]
    split
    · exact h
    · exact h.mapValues fun pi _ => update_removeDecaying

theorem books_run (h : Books m.cm) (calls : List Call) : Books (calls.foldl step m).cm := by
  induction calls generalizing m with
  | nil => exact h
  | cons call calls ih => exact ih (books_step h call)

/-- A count is what the counter shows exactly when it is in the range of an `int32`. -/
theorem toInt_ofNat_iff : (ofNat n).toInt = n ↔ n < 2 ^ 31 := by
  constructor
  · intro h
    have hlt := (ofNat n).toInt_lt
    omega
  · intro h
    exact toInt_ofNat_of_lt h

/-- After any sequence of calls and events: the value of every record is the sum of its
tags, a record is temporary exactly when it has no connection, and the counter is the
number of tracked connections in `int32` arithmetic, so the number itself exactly while
that is below 2^31. -/
theorem books_kept (cfg : Config) (resolution start : Int) (calls : List Call) :
    let cm := (calls.foldl step (init cfg resolution start)).cm
    (∀ p pi, cm.peers.get p = some pi →
      pi.value = pi.tags.total (fun v => v) + pi.decaying.total DecayingValue.value ∧
        (pi.temp = true ↔ pi.conns.entries = [])) ∧
      cm.connCount = ofNat cm.tracked ∧
      (cm.connCount.toInt = cm.tracked ↔ cm.tracked < 2 ^ 31) := by
  have hbooks := books_run (books_init cfg resolution start) calls
  refine ⟨fun p pi hget => ?_, hbooks.count, ?_⟩
  · have hs := hbooks.sound_get hget
    exact ⟨hs.balanced.value, hs.temp⟩
  · rw [hbooks.count]
    exact toInt_ofNat_iff _

/-- What the emergency trim does in a manager that any calls and events have led to. -/
theorem emergency_run (cfg : Config) (resolution start : Int) (calls : List Call) (maxCap : Nat)
    (stat : Conn → ConnStats) (n : Int) :
    let cm := (calls.foldl step (init cfg resolution start)).cm
    (∀ sorter : PeerSort stat true, ∃ selected,
      cm.getConnsToCloseEmergency maxCap sorter n = some selected ∧ Frees cm n selected) ↔
      (-10 ≤ n ∧ n + 10 ≤ maxCap) ∧ EmergencyOk cm stat n := by
  have hbooks := books_run (books_init cfg resolution start) calls
  exact returns_iff.trans (and_congr_right fun _ => frees_iff hbooks.wellFormed)

/-! ## The range of the counter -/

/-- The connections with numbers below `n` come up, all to one peer. -/
def crowd : Nat → Manager
  | 0 => init ⟨2, 1, 0⟩ 1 0
  | n + 1 => (crowd n).step (.connected ⟨n, .single 1⟩ 0)

theorem crowd_eq_run :
    crowd n = ((range n).map fun i => .connected ⟨i, .single 1⟩ 0).foldl step
      (init ⟨2, 1, 0⟩ 1 0) := by
  induction n with
  | zero => rfl
  | succ n ih =>
    rw [range_succ, map_append, foldl_append, ← ih]
    rfl

/-- The record of the one peer holds the connections so far and no other. -/
theorem crowd_record (hn : 0 < n) :
    ∃ pi, (crowd n).cm.peers = ⟨[(.single 1, pi)]⟩ ∧ pi.temp = false ∧
      pi.conns.entries.map (·.1) = ((range n).map fun i => .mk i (.single 1)).reverse := by
  induction n with
  | zero => omega
  | succ n ih =>
    rcases eq_zero_or_pos n with rfl | hpos
    · exact ⟨_, rfl, rfl, rfl⟩
    · obtain ⟨pi, hpeers, htemp, hconns⟩ := ih hpos
      have hget : (crowd n).cm.peers.get (.single 1) = some pi := by rw [hpeers]; rfl
      -- the new number is above all others
      have hfresh : ∀ e ∈ pi.conns.entries, e.1 ≠ ⟨n, .single 1⟩ := by
        intro e he heq
        have hmem : e.1 ∈ pi.conns.entries.map (·.1) := mem_map_of_mem he
        rw [hconns, heq] at hmem
        simp at hmem
      have hnone : pi.conns.get ⟨n, .single 1⟩ = none := by
        have hfind : pi.conns.entries.find? (·.1 = ⟨n, .single 1⟩) = none := by
          rw [find?_eq_none]
          intro e he
          simpa using hfresh e he
        simp [Table.get, hfind]
      refine ⟨{ pi with conns := pi.conns.set ⟨n, .single 1⟩ 0 }, ?_, htemp, ?_⟩
      · simp only [crowd, step, connected, hget, htemp, hnone, put,
          Bool.false_eq_true, if_false]
        rw [hpeers]
        rfl
      · simp only [Table.set, erase_of_get_none hnone, map_cons, hconns,
          range_succ, map_append, map_nil, reverse_append,
          reverse_cons, reverse_nil, nil_append, cons_append]

theorem tracked_crowd : (crowd n).cm.tracked = n := by
  rcases eq_zero_or_pos n with rfl | hpos
  · rfl
  · obtain ⟨pi, hpeers, -, hconns⟩ := crowd_record n hpos
    have hlen := congrArg length hconns
    simp only [length_map] at hlen
    simp [tracked, hpeers, weight, hlen]

/-- With 2^31 connections the counter shows -2^31. -/
theorem connCount_wraps :
    ∃ calls : List Call,
      (calls.foldl step (init ⟨2, 1, 0⟩ 1 0)).cm.tracked = 2147483648 ∧
        (calls.foldl step (init ⟨2, 1, 0⟩ 1 0)).cm.connCount.toInt = -2147483648 := by
  refine ⟨(range 2147483648).map fun i => .connected ⟨i, .single 1⟩ 0, ?_⟩
  have hbooks := books_run (books_init ⟨2, 1, 0⟩ 1 0)
    ((range 2147483648).map fun i => .connected ⟨i, .single 1⟩ 0)
  have hcount := hbooks.count
  rw [← crowd_eq_run, tracked_crowd] at hcount
  rw [← crowd_eq_run, tracked_crowd, hcount]
  exact ⟨rfl, by decide⟩

end Manager

end Dep2p.ConnMgr
