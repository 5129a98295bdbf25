import Dep2p.Multiaddr.Transcoders

/- The text of onion addresses of version 3 (`onion3StB`).

   The parser counts 56 characters before it decodes them. The decoder of the standard library
   leaves out new lines and stops at the padding, so that fewer than 35 bytes may be decoded;
   the parser takes 35 bytes of the buffer all the same, the last of which are characters that
   were never decoded.

   What is proved: `onion3_canonical_iff` — an accepted text is printed back with its host in
   lower case, and its bytes are the decoding of the host, just if every character of the host
   is one of base32. -/
namespace Dep2p.Multiaddr.Wire

open Lib Lib.Positional Base32 List UInt8

variable (o : Outside) {s b : Bytes} {n : Nat} {c : UInt8}

/-! ## The parser -/

/-- The number with these digits behind `n`; none for another character. -/
def parseDigits : Bytes → Nat → Option Nat
  | [], n => some n
  | c :: s, n => if 48 ≤ c ∧ c ≤ 57 then parseDigits s (n * 10 + (c.toNat - 48)) else none

/-- `strconv.ParseUint` in base 10: digits only, at least one, and a number of that many bits. -/
def parseUint (bits : Nat) (s : Bytes) : Option Nat :=
  if s = [] then none
  else (parseDigits s 0).bind fun n => if n < 2 ^ bits then some n else none

/-- `binary.BigEndian.PutUint16` -/
def putUint16 (n : Nat) : Bytes := [UInt8.ofNat (n / 256), UInt8.ofNat n]

/-- A port that is not zero. -/
def onionPort (s : Bytes) : Val Bytes :=
  match parseUint 16 s with
  | none => .error (.err (.failedPort s))
  | some i => if i = 0 then .error (.err .nonZeroPort) else .ok (putUint16 i)

/-- `onionHostBytes[0:35]` is a slice of the buffer, however many bytes were decoded. -/
def onion3StB (s : Bytes) : Val Bytes :=
  match s.splitOn 58 with
  | [host, port] =>
    if host.length ≠ 56 then .error (.err (.notOnion3 s host.length))
    else
      match stdEncoding.decodeInPlace (o.toUpper host) with
      | .error err => .error (.err (.failedBase32 s err))
      | .ok (hostBytes, behind) =>
        match onionPort port with
        | .error err => .error err
        | .ok portBytes =>
          let buf := hostBytes ++ behind ++ replicate (o.spare (o.toUpper host).length) 0
          if buf.length < 35 then .error .panicked else .ok (buf.take 35 ++ portBytes)
  | _ => .error (.err (.noPort s))

theorem onionPort_ok (h : onionPort s = .ok b) :
    ∃ n, parseUint 16 s = some n ∧ n ≠ 0 ∧ n < 2 ^ 16 ∧ b = putUint16 n := by
  unfold onionPort at h
  split at h
  · cases h
  rename_i n hn
  split at h
  · cases h
  rename_i hzero
  cases h
  refine ⟨n, hn, hzero, ?_, rfl⟩
  unfold parseUint at hn
  split at hn
  · cases hn
  obtain ⟨m, -, hm⟩ := Option.bind_eq_some_iff.mp hn
  split at hm
  · cases hm
    assumption
  · cases hm

theorem uint_putUint16 (hn : n < 2 ^ 16) : uint (putUint16 n) = n := by
  have hhigh : (ofNat (n / 256)).toNat = n / 256 :=
    toNat_ofNat_of_lt' (show n / 256 < 256 by omega)
  have hlow : (ofNat n).toNat = n % 256 := toNat_ofNat'
  unfold uint putUint16
  simp only [map_cons, map_nil, value_cons, value_nil, length_cons, length_nil]
  omega

/-- What an accepted text is made of. -/
theorem onion3StB_ok (h : onion3StB o s = .ok b) :
    ∃ host port hostBytes behind n, s.splitOn 58 = [host, port] ∧ host.length = 56 ∧
      stdEncoding.decodeInPlace (o.toUpper host) = .ok (hostBytes, behind) ∧
      parseUint 16 port = some n ∧ n ≠ 0 ∧ n < 2 ^ 16 ∧
      ∃ addr, addr.length = 35 ∧ b = addr ++ putUint16 n ∧
        ∃ zeros, addr = (hostBytes ++ behind ++ zeros).take 35 := by
  unfold onion3StB at h
  split at h
  · rename_i host port hsplit
    split at h
    · cases h
    rename_i hlen
    split at h
    · cases h
    rename_i hostBytes behind hdecode
    split at h
    · cases h
    rename_i portBytes hport
    obtain ⟨n, hn, hzero, hlt, rfl⟩ := onionPort_ok hport
    dsimp only at h
    split at h
    · cases h
    rename_i hbuf
    cases h
    refine ⟨host, port, hostBytes, behind, n, hsplit, not_not.mp hlen, hdecode, hn, hzero,
      hlt, _, ?_, rfl, _, rfl⟩
    rw [length_take]
    omega
  · cases h

theorem onion3BtS_parts {addr : Bytes} (hlen : addr.length = 35) (hzero : n ≠ 0)
    (hn : n < 2 ^ 16) :
    onion3BtS o (addr ++ putUint16 n) =
      .ok (o.toLower (stdEncoding.encode addr) ++ 58 :: formatUint n) := by
  have hdrop : (addr ++ putUint16 n).drop 35 = putUint16 n := by rw [← hlen, drop_left]
  have htake : (addr ++ putUint16 n).take 35 = addr := by rw [← hlen, take_left]
  have hfull : ¬ (addr ++ putUint16 n).length < 35 + 2 := by
    rw [length_append, hlen]
    exact lt_irrefl 37
  unfold onion3BtS onionText
  rw [if_neg hfull, hdrop, htake, take_of_length_le (le_refl 2), uint_putUint16 hn]
  exact if_neg hzero

/-! ## The alphabet -/

/-- A character of base32, in either case. -/
def InBase32 (c : UInt8) : Prop := asciiToUpper c ∈ stdEncoding.alphabet

instance (c : UInt8) : Decidable (InBase32 c) := inferInstanceAs (Decidable (_ ∈ _))

theorem stdEncoding_agrees : Encoding.Agrees stdEncoding stdEncoding where
  pad := rfl
  padLine := by decide
  char := by decide +kernel

/-- The characters one by one: they are of ASCII, and in upper case they stand for a group. -/
theorem inBase32_char (hc : InBase32 c) :
    c < 0x80 ∧ asciiToLower (asciiToUpper c) = asciiToLower c ∧
      ∃ v, Encoding.Group v ∧ stdEncoding.char v = asciiToUpper c := by
  have hascii := forall_byte (P := fun c => InBase32 c → c < 0x80) (by decide +kernel) c
  have hcase := forall_byte (P := fun c => asciiToLower (asciiToUpper c) = asciiToLower c)
    (by decide +kernel) c
  have hcount : stdEncoding.alphabet.length = 32 := by decide +kernel
  obtain ⟨i, hi, hget⟩ := getElem_of_mem hc
  have hnat : (ofNat i).toNat = i := toNat_ofNat_of_lt' (show i < 256 by omega)
  refine ⟨hascii hc, hcase, ofNat i, ?_, ?_⟩
  · unfold Encoding.Group
    omega
  · rw [Encoding.char, hnat, getD_eq_getElem _ _ hi, hget]

/-- A character with the lower case of a group's one is of base32. -/
theorem inBase32_of_lower {v : UInt8} (hv : Encoding.Group v)
    (h : asciiToLower c = asciiToLower (stdEncoding.char v)) : InBase32 c := by
  have hcase : ∀ c, asciiToUpper (asciiToLower c) = asciiToUpper c :=
    forall_byte (by decide +kernel)
  have hgroup : ∀ n, n < 32 → InBase32 (stdEncoding.char (ofNat n)) := by decide +kernel
  have hchar := hgroup v.toNat hv
  rw [UInt8.ofNat_toNat] at hchar
  unfold InBase32 at hchar ⊢
  rwa [← hcase c, h, hcase]

/-! ## Canonical texts -/

/-- The characters before the colon. -/
def onionHost (s : Bytes) : Bytes := (s.splitOn 58).headD []

/-- The bytes are printed as the host in lower case and the port in decimal, and they begin
with what the host decodes to. -/
def Canonical (s b : Bytes) : Prop :=
  ∃ port n, s.splitOn 58 = [onionHost s, port] ∧ parseUint 16 port = some n ∧
    onion3BtS o b = .ok (o.toLower (onionHost s) ++ 58 :: formatUint n) ∧
    stdEncoding.decodeString (o.toUpper (onionHost s)) = .ok (b.take 35)

variable {host : Bytes}

/-- 56 characters of base32 are 35 bytes. -/
theorem exists_address (hlen : host.length = 56) (h : ∀ c ∈ host, InBase32 c) :
    ∃ data : Bytes, data.length = 35 ∧ stdEncoding.encode data = host.map asciiToUpper := by
  have hgroups : ∃ vs : Bytes, (∀ v ∈ vs, Encoding.Group v) ∧
      vs.map stdEncoding.char = host.map asciiToUpper := by
    clear hlen
    induction host with
    | nil => exact ⟨[], forall_mem_nil _, rfl⟩
    | cons c host ih =>
      obtain ⟨vs, hvs, hmap⟩ := ih fun c' hc' => h c' (mem_cons_of_mem c hc')
      obtain ⟨-, -, v, hv, hchar⟩ := inBase32_char (h c mem_cons_self)
      exact ⟨v :: vs, forall_mem_cons.mpr ⟨hv, hvs⟩, by rw [map_cons, hchar, hmap]; rfl⟩
  obtain ⟨vs, hvs, hmap⟩ := hgroups
  have hcount : vs.length = 8 * 7 := by
    have := congrArg length hmap
    rw [length_map, length_map, hlen] at this
    exact this
  obtain ⟨data, hdata, hencode⟩ := stdEncoding.exists_encode hcount hvs
  exact ⟨data, hdata, hencode.trans hmap⟩

theorem ascii_host (h : ∀ c ∈ host, InBase32 c) : Ascii host :=
  fun c hc => (inBase32_char (h c hc)).1

/-- The host of a text in base32 is decoded to its end. -/
theorem canonical_of_base32 (h : onion3StB o s = .ok b)
    (hbase : ∀ c ∈ onionHost s, InBase32 c) : Canonical o s b := by
  obtain ⟨host, port, hostBytes, behind, n, hsplit, hlen, hdecode, hn, hzero, hlt, addr, haddr, rfl,
    zeros, htake⟩ := onion3StB_ok o h
  have hhost : onionHost s = host := by rw [onionHost, hsplit]; rfl
  rw [hhost] at hbase
  obtain ⟨data, hdata, hencode⟩ := exists_address hlen hbase
  have hupper : o.toUpper host = stdEncoding.encode data := by
    rw [o.toUpper_ascii host (ascii_host hbase), hencode]
  rw [hupper, Encoding.decodeInPlace_encode stdEncoding_agrees] at hdecode
  cases hdecode
  have hwhole : addr = hostBytes := by
    rw [htake, append_assoc, ← hdata, take_left]
  subst hwhole
  refine ⟨port, n, by rw [hhost]; exact hsplit, hn, ?_, ?_⟩
  · have hascii : Ascii (host.map asciiToUpper) := by
      intro c hc
      obtain ⟨c', hc', rfl⟩ := mem_map.mp hc
      exact forall_byte (P := fun c => c < 0x80 → asciiToUpper c < 0x80) (by decide +kernel) c'
        (ascii_host hbase c' hc')
    rw [onion3BtS_parts o haddr hzero hlt, hencode, hhost, o.toLower_ascii _ hascii,
      o.toLower_ascii _ (ascii_host hbase), map_map]
    congr 2
    exact map_congr_left fun c hc => (inBase32_char (hbase c hc)).2.1
  · rw [hhost, hupper, Encoding.decodeString_encode stdEncoding_agrees, ← haddr, take_left]

/-- A host that is printed back is in base32. -/
theorem base32_of_canonical (h : onion3StB o s = .ok b) (hc : Canonical o s b) :
    ∀ c ∈ onionHost s, InBase32 c := by
  obtain ⟨host, port, hostBytes, behind, n, hsplit, hlen, hdecode, hn, hzero, hlt, addr, haddr, rfl,
    zeros, htake⟩ := onion3StB_ok o h
  have hhost : onionHost s = host := by rw [onionHost, hsplit]; rfl
  obtain ⟨port', n', hsplit', hn', hprint, -⟩ := hc
  rw [hsplit, hhost] at hsplit'
  cases hsplit'
  rw [hn] at hn'
  cases hn'
  rw [onion3BtS_parts o haddr hzero hlt, hhost] at hprint
  have hlower := append_cancel_right (Except.ok.inj hprint)
  obtain ⟨vs, hchars, hvs⟩ := stdEncoding.encode_exact (by rw [haddr])
  -- the printed host is of ASCII, and so are its letters in lower case
  have hascii : Ascii (stdEncoding.encode addr) := by
    intro c hc
    rw [hchars] at hc
    obtain ⟨v, hv, rfl⟩ := mem_map.mp hc
    exact (inBase32_char (inBase32_of_lower (hvs v hv) rfl)).1
  rw [o.toLower_ascii _ hascii] at hlower
  have hlowerAscii : Ascii (o.toLower host) := by
    rw [← hlower]
    intro c hc
    obtain ⟨c', hc', rfl⟩ := mem_map.mp hc
    exact forall_byte (P := fun c => c < 0x80 → asciiToLower c < 0x80) (by decide +kernel) c'
      (hascii c' hc')
  have hhostAscii : Ascii host := by
    by_contra hnot
    have hshort := o.toLower_short host hnot hlowerAscii
    rw [← hlower, length_map, Encoding.length_encode, haddr, hlen] at hshort
    exact absurd hshort (by decide)
  rw [o.toLower_ascii host hhostAscii, hchars] at hlower
  intro c hc
  rw [hhost] at hc
  have hmem : asciiToLower c ∈ host.map asciiToLower := mem_map_of_mem hc
  rw [← hlower, map_map] at hmem
  obtain ⟨v, hv, heq⟩ := mem_map.mp hmem
  exact inBase32_of_lower (hvs v hv) heq.symm

/-- An accepted text is printed back, and is the only one for its bytes up to the case of the
host, just if its host is in base32. -/
theorem onion3_canonical_iff {s b : Bytes} (h : onion3StB o s = .ok b) :
    (Canonical o s b ↔ ∀ c ∈ onionHost s, InBase32 c) ∧
      ∀ s', onion3StB o s' = .ok b → (∀ c ∈ onionHost s, InBase32 c) →
        (∀ c ∈ onionHost s', InBase32 c) → o.toLower (onionHost s) = o.toLower (onionHost s') := by
  refine ⟨⟨base32_of_canonical o h, canonical_of_base32 o h⟩, fun s' h' hbase hbase' => ?_⟩
  have hlength : ∀ {t}, onion3StB o t = .ok b → (∀ c ∈ onionHost t, InBase32 c) →
      (o.toLower (onionHost t)).length = 56 := by
    intro t ht hin
    obtain ⟨host, port, -, -, -, hsplit, hlen, -⟩ := onion3StB_ok o ht
    rw [o.toLower_ascii _ (ascii_host hin), length_map, onionHost, hsplit]
    exact hlen
  obtain ⟨port, n, -, -, hprint, -⟩ := canonical_of_base32 o h hbase
  obtain ⟨port', n', -, -, hprint', -⟩ := canonical_of_base32 o h' hbase'
  rw [hprint] at hprint'
  exact append_inj_left (Except.ok.inj hprint') ((hlength h hbase).trans (hlength h' hbase').symm)

theorem onion3_canonical_letters :
    Canonical asciiOnly (replicate 56 97 ++ [58, 49]) (replicate 35 0 ++ [0, 1]) ↔
      ∀ c ∈ onionHost (replicate 56 97 ++ [58, 49]), InBase32 c :=
  (onion3_canonical_iff asciiOnly (by decide +kernel)).1

/-- The new lines before or behind 48 letters: the bytes are the same, and five of them are
letters that were not decoded. -/
theorem onion3_newlines :
    let before := replicate 8 10 ++ replicate 48 97 ++ [58, 49]
    let behind := replicate 48 97 ++ replicate 8 10 ++ [58, 49]
    let b := replicate 30 0 ++ replicate 5 65 ++ [0, 1]
    onion3StB asciiOnly before = .ok b ∧ onion3StB asciiOnly behind = .ok b ∧
      onionHost before ≠ onionHost behind ∧ ¬ Canonical asciiOnly before b := by
  have hbefore : onion3StB asciiOnly (replicate 8 10 ++ replicate 48 97 ++ [58, 49]) =
      .ok (replicate 30 0 ++ replicate 5 65 ++ [0, 1]) := by decide +kernel
  refine ⟨hbefore, by decide +kernel, by decide +kernel, fun hc => ?_⟩
  exact absurd (base32_of_canonical asciiOnly hbefore hc 10 (by decide +kernel)) (by decide +kernel)

end Dep2p.Multiaddr.Wire
